import RiscvLab.Library.Reachable
import RiscvLab.Mm.SlabLists

/-!
# Runs of the slab allocator

A run of the allocator starts at boot and makes calls of `kmem_cache_create`, `kmem_cache_alloc`,
`kmem_cache_free` and `kfree`, one at a time and on arbitrary CPUs, with stores into the objects
that are handed out in between. Caches are created once, for objects of 9 to 8192 bytes; frees are
of outstanding objects; the page allocator returns pages that are in no other use.

## Main definitions

* `SlabRun`, `SlabStep`: the states and the calls.
* `SlabInv`: the invariant between two calls.

## Main results

* `SlabInv.kmemCacheAlloc_cases`, `SlabInv.kmemCacheFree_cases`: what a call does.
* `SlabInv.step`, `slabInv_of_reachable`: every call keeps the invariant.

Source: `mm/slab.c`, lines 77–93 and 121–275; `mm/kmalloc.c`, lines 92–97.
-/

namespace RiscvLab.Mm

open Library

variable {κ : Type}

/-! ### Geometry of a cache -/

private theorem calcSlabOrderLoop_eq {n : ℕ} (order : ℕ) (ho : order ≤ Nat.clog 2 n - 10) :
    calcSlabOrderLoop (n * 4) order = Nat.clog 2 n - 10 := by
  fun_induction calcSlabOrderLoop (n * 4) order with
  | case1 order hgt ih =>
    refine ih ?_
    have hlt : 2 ^ (order + 10) < n := by
      rw [Nat.pow_add]
      simp only [pgSize] at hgt
      omega
    have := (Nat.lt_clog_iff_pow_lt (by decide)).mpr hlt
    omega
  | case2 order hle =>
    have hle' : n ≤ 2 ^ (order + 10) := by
      rw [Nat.pow_add]
      simp only [pgSize] at hle
      omega
    have := Nat.clog_le_of_le_pow hle'
    omega

theorem calcSlabOrder_eq (n : BitVec 16) : calcSlabOrder n = Nat.clog 2 n.toNat - 10 :=
  calcSlabOrderLoop_eq 0 (Nat.zero_le _)

section OfSize

variable {n : BitVec 16} (cpu : Fin ncpu → ℕ)

section

variable (h1 : 1 ≤ n.toNat) (h32768 : n.toNat ≤ 32768)

include h1 h32768

theorem ofSize_size : (KmemCache.ofSize n cpu).size = 2 ^ Nat.clog 2 n.toNat := by
  have hwide : (n.setWidth 64).toNat = n.toNat := by
    rw [BitVec.toNat_setWidth]
    exact Nat.mod_eq_of_lt (by omega)
  have hpow := nextPowerOf2_toNat (n := n.setWidth 64) (by omega) (by omega)
  have hclog := Nat.clog_le_of_le_pow (show n.toNat ≤ 2 ^ 15 by omega)
  have hlt : 2 ^ Nat.clog 2 n.toNat < 2 ^ 16 := Nat.pow_lt_pow_right (by decide) (by omega)
  rw [KmemCache.ofSize, BitVec.toNat_setWidth, hpow, hwide, Nat.mod_eq_of_lt hlt]

theorem ofSize_countPerSlab :
    (KmemCache.ofSize n cpu).countPerSlab =
      2 ^ (calcSlabOrder n + 12 - Nat.clog 2 n.toNat) := by
  have hclog := Nat.clog_le_of_le_pow (show n.toNat ≤ 2 ^ 15 by omega)
  have ho := calcSlabOrder_eq n
  have hs := ofSize_size cpu h1 h32768
  have hdiv : 2 ^ calcSlabOrder n * pgSize / 2 ^ Nat.clog 2 n.toNat =
      2 ^ (calcSlabOrder n + 12 - Nat.clog 2 n.toNat) := by
    rw [show pgSize = 2 ^ 12 from rfl, ← Nat.pow_add, Nat.pow_div (by omega) (by decide)]
  have hlt : 2 ^ (calcSlabOrder n + 12 - Nat.clog 2 n.toNat) < 2 ^ 16 :=
    Nat.pow_lt_pow_right (by decide) (by omega)
  rw [← hs] at hdiv
  rw [← Nat.mod_eq_of_lt hlt, ← hdiv]
  rfl

theorem ofSize_count_mul_size :
    (KmemCache.ofSize n cpu).countPerSlab * (KmemCache.ofSize n cpu).size =
      2 ^ (KmemCache.ofSize n cpu).order * pgSize := by
  have hclog := Nat.clog_le_of_le_pow (show n.toNat ≤ 2 ^ 15 by omega)
  have ho := calcSlabOrder_eq n
  rw [ofSize_countPerSlab cpu h1 h32768, ofSize_size cpu h1 h32768, ← Nat.pow_add,
    show pgSize = 2 ^ 12 from rfl,
    show (KmemCache.ofSize n cpu).order = calcSlabOrder n from rfl, ← Nat.pow_add]
  congr 1
  omega

theorem four_le_ofSize_countPerSlab : 4 ≤ (KmemCache.ofSize n cpu).countPerSlab := by
  have ho := calcSlabOrder_eq n
  rw [ofSize_countPerSlab cpu h1 h32768]
  exact Nat.pow_le_pow_right (n := 2) (i := 2) (by decide) (by omega)

end

theorem ofSize_countPerSlab_le (h9 : 9 ≤ n.toNat) (h32768 : n.toNat ≤ 32768) :
    (KmemCache.ofSize n cpu).countPerSlab ≤ 256 := by
  have hclog := (Nat.lt_clog_iff_pow_lt (by decide)).mpr (show 2 ^ 3 < n.toNat by omega)
  have ho := calcSlabOrder_eq n
  rw [ofSize_countPerSlab cpu (by omega) h32768]
  exact Nat.pow_le_pow_right (n := 2) (by decide) (show _ ≤ 8 by omega)

theorem geometry_ofSize (h9 : 9 ≤ n.toNat) (h8192 : n.toNat ≤ 8192) :
    Geometry (KmemCache.ofSize n cpu) where
  size_pos := by
    rw [ofSize_size cpu (by omega) (by omega)]
    exact Nat.two_pow_pos _
  count_mul := ofSize_count_mul_size cpu (by omega) (by omega)
  four_le := four_le_ofSize_countPerSlab cpu (by omega) (by omega)
  le_max := ofSize_countPerSlab_le cpu h9 (by omega)

theorem calcSlabOrder_eq_zero (h : n.toNat ≤ 1024) : calcSlabOrder n = 0 := by
  have := Nat.clog_le_of_le_pow (show n.toNat ≤ 2 ^ 10 by omega)
  rw [calcSlabOrder_eq]
  omega

end OfSize

/-! ### Runs -/

/-- The allocator, the sizes that caches were created for, and the outstanding objects. -/
structure SlabRun (κ : Type) where
  st : SlabState κ
  sizes : κ → Option (BitVec 16)
  out : List (Obj κ)

/-- The calls of a run. -/
inductive SlabCall (κ : Type)
  | create (c : κ) (size : BitVec 16)
  | alloc (c : κ) (cpuid : Fin ncpu)
  | free (o : Obj κ)
  | kfree (o : Obj κ)
  | store (o : Obj κ) (x v : ℕ)

/-- The pages for the slabs of the CPUs are fresh and apart from each other. -/
def FreshAll (s : SlabState κ) (order : ℕ) (pages : Fin ncpu → ℕ × ℕ) : Prop :=
  (∀ i, Fresh s order (pages i)) ∧ ∀ i j, i ≠ j →
    Disjoint (footprint (pages i).1 (pages i).2 order) (footprint (pages j).1 (pages j).2 order)

/-- One call. -/
inductive SlabStep [DecidableEq κ] : SlabRun κ → SlabCall κ → SlabRun κ → Prop
  | create {r : SlabRun κ} {c : κ} {size : BitVec 16} {pages : Fin ncpu → ℕ × ℕ}
      (hnew : r.sizes c = none) (h9 : 9 ≤ size.toNat) (h8192 : size.toNat ≤ 8192)
      (hpages : FreshAll r.st (calcSlabOrder size) pages) :
      SlabStep r (.create c size)
        ⟨kmemCacheCreate r.st c size pages, Function.update r.sizes c (some size), r.out⟩
  | alloc {r : SlabRun κ} {c : κ} {cpuid : Fin ncpu} {pages : ℕ × ℕ} {o : Obj κ}
      {s : SlabState κ} (hc : r.sizes c ≠ none) (hpages : Fresh r.st (r.st.cache c).order pages)
      (hok : kmemCacheAlloc r.st c cpuid pages = .ok (o, s)) :
      SlabStep r (.alloc c cpuid) ⟨s, r.sizes, o :: r.out⟩
  | free {r : SlabRun κ} {o : Obj κ} {s : SlabState κ} (ho : o ∈ r.out)
      (hok : kmemCacheFree r.st o.cache o.addr = .ok s) :
      SlabStep r (.free o) ⟨s, r.sizes, r.out.erase o⟩
  | kfree {r : SlabRun κ} {o : Obj κ} {s : SlabState κ} (ho : o ∈ r.out)
      (hok : kfree r.st o.addr = .ok s) :
      SlabStep r (.kfree o) ⟨s, r.sizes, r.out.erase o⟩
  | store {r : SlabRun κ} {o : Obj κ} {x v : ℕ} (ho : o ∈ r.out) (hx : o.addr ≤ x)
      (hxo : x < o.addr + (r.st.cache o.cache).size) :
      SlabStep r (.store o x v) ⟨{ r.st with mem := Function.update r.st.mem x v }, r.sizes, r.out⟩

/-- A run starts with no cache. -/
def SlabStart (r : SlabRun κ) : Prop := ∃ mem, r = ⟨.boot mem, fun _ => none, []⟩

/-! ### The invariant of a run -/

/-- The four parts of the invariant together. -/
structure CoreInv (s : SlabState κ) (out : List (Obj κ)) (L : ListKey κ → List (SlabNode κ)) :
    Prop where
  pagesInv : PagesInv s
  stacksInv : StacksInv s out
  listsInv : ListsInv s L
  filledInv : FilledInv s L

/-- The allocator between two calls. -/
structure SlabInv (r : SlabRun κ) (L : ListKey κ → List (SlabNode κ)) : Prop where
  core : CoreInv r.st r.out L
  size : ∀ {c n}, r.sizes c = some n → 9 ≤ n.toNat ∧ n.toNat ≤ 8192 ∧
    r.st.cache c = .ofSize n (r.st.cache c).cacheCpu
  listed : ∀ {c}, .cacheList c ∈ L .caches ↔ r.sizes c ≠ none
  cpu : ∀ {c}, r.sizes c ≠ none → ∀ i, (∃ p, r.st.shape ((r.st.cache c).cacheCpu i) = some (c, p)) ∧
    ∀ k, .slabList ((r.st.cache c).cacheCpu i) ∉ L k
  created : ∀ {a c p}, r.st.shape a = some (c, p) → r.sizes c ≠ none
  own : ∀ {c}, r.sizes c ≠ none → Function.Injective (r.st.cache c).cacheCpu
  covered : ∀ {a c p}, r.st.shape a = some (c, p) →
    (∃ i, a = (r.st.cache c).cacheCpu i) ∨ ∃ k, .slabList a ∈ L k

theorem Relisted.cacheList_mem {L L' : ListKey κ → List (SlabNode κ)} {a : ℕ} {k : ListKey κ}
    (hR : Relisted L L' (.slabList a) k) (c : κ) (j : ListKey κ) :
    .cacheList c ∈ L' j ↔ .cacheList c ∈ L j := by
  rw [hR]
  simp

theorem Relisted.notMem {L L' : ListKey κ → List (SlabNode κ)} {a b : ℕ} {k : ListKey κ}
    (hR : Relisted L L' (.slabList a) k) (hba : b ≠ a) (hb : ∀ j, .slabList b ∉ L j)
    (j : ListKey κ) : .slabList b ∉ L' j := by
  rw [hR]
  simp [hba, hb]

theorem Relisted.listed {L L' : ListKey κ → List (SlabNode κ)} {a : ℕ} {k : ListKey κ}
    (hR : Relisted L L' (.slabList a) k) {b : ℕ} (hb : ∃ j, .slabList b ∈ L j) :
    ∃ j, .slabList b ∈ L' j := by
  obtain ⟨j, hj⟩ := hb
  by_cases hba : b = a
  · exact ⟨k, (hR _ _).2 (.inl ⟨by rw [hba], rfl⟩)⟩
  · exact ⟨j, (hR _ _).2 (.inr ⟨by simpa using hba, hj⟩)⟩

/-- A call that creates no cache: what is left to show about the caches. -/
theorem SlabInv.of_core {r : SlabRun κ} {L L' : ListKey κ → List (SlabNode κ)} (hI : SlabInv r L)
    {s' : SlabState κ} {out' : List (Obj κ)} (hcore : CoreInv s' out' L')
    (hcache : s'.cache = r.st.cache)
    (hkeep : ∀ a c p, r.st.shape a = some (c, p) → s'.shape a = some (c, p))
    (hnew : ∀ a c p, s'.shape a = some (c, p) → r.st.shape a = none → r.sizes c ≠ none)
    (hcaches : ∀ c, .cacheList c ∈ L' .caches ↔ .cacheList c ∈ L .caches)
    (hcpu : ∀ c i, r.sizes c ≠ none → ∀ k, .slabList ((r.st.cache c).cacheCpu i) ∉ L' k)
    (hold : ∀ b, (∃ k, .slabList b ∈ L k) → ∃ k, .slabList b ∈ L' k)
    (hlist : ∀ a c p, s'.shape a = some (c, p) → r.st.shape a = none → ∃ k, .slabList a ∈ L' k) :
    SlabInv ⟨s', r.sizes, out'⟩ L' := by
  have hcases (b : ℕ) (c : κ) (p : ℕ) (hb : s'.shape b = some (c, p)) :
      r.st.shape b = none ∨ r.st.shape b = some (c, p) := by
    cases hshape : r.st.shape b with
    | none => exact .inl rfl
    | some x => exact .inr ((hkeep b x.1 x.2 hshape).symm.trans hb)
  constructor
  case core => exact hcore
  case size =>
    intro c n hn
    dsimp only
    rw [hcache]
    exact hI.size hn
  case listed => exact fun {c} => (hcaches c).trans hI.listed
  case cpu =>
    intro c hc i
    dsimp only
    rw [hcache]
    obtain ⟨p, hp⟩ := (hI.cpu hc i).1
    exact ⟨⟨p, hkeep _ _ _ hp⟩, hcpu c i hc⟩
  case created =>
    intro b c p hb
    exact (hcases b c p hb).elim (hnew b c p hb) hI.created
  case own =>
    intro c hc
    dsimp only
    rw [hcache]
    exact hI.own hc
  case covered =>
    intro b c p hb
    dsimp only at hb ⊢
    rw [hcache]
    rcases hcases b c p hb with hshape | hshape
    · exact .inr (hlist b c p hb hshape)
    · exact (hI.covered hshape).imp_right (hold b)

theorem SlabInv.of_shape {r : SlabRun κ} {L L' : ListKey κ → List (SlabNode κ)} (hI : SlabInv r L)
    {s' : SlabState κ} {out' : List (Obj κ)} (hcore : CoreInv s' out' L')
    (hcache : s'.cache = r.st.cache) (hshape : s'.shape = r.st.shape)
    (hcaches : ∀ c, .cacheList c ∈ L' .caches ↔ .cacheList c ∈ L .caches)
    (hcpu : ∀ c i, r.sizes c ≠ none → ∀ k, .slabList ((r.st.cache c).cacheCpu i) ∉ L' k)
    (hold : ∀ b, (∃ k, .slabList b ∈ L k) → ∃ k, .slabList b ∈ L' k) :
    SlabInv ⟨s', r.sizes, out'⟩ L' := by
  have hsame : ∀ a c p, s'.shape a = some (c, p) → r.st.shape a ≠ none := fun a c p h hn => by
    rw [hshape, hn] at h
    cases h
  exact hI.of_core hcore hcache (fun a c p h => by rwa [hshape])
    (fun a c p h hn => absurd hn (hsame a c p h)) hcaches hcpu hold
    fun a c p h hn => absurd hn (hsame a c p h)

/-- A call that moves one slab to another list. -/
theorem SlabInv.of_relisted {r : SlabRun κ} {L L' : ListKey κ → List (SlabNode κ)} {a : ℕ}
    {j k : ListKey κ} (hI : SlabInv r L) (hR : Relisted L L' (.slabList a) k)
    (ha : .slabList a ∈ L j) {s' : SlabState κ} {out' : List (Obj κ)} (hcore : CoreInv s' out' L')
    (hcache : s'.cache = r.st.cache) (hshape : s'.shape = r.st.shape) :
    SlabInv ⟨s', r.sizes, out'⟩ L' :=
  hI.of_shape hcore hcache hshape (fun d => hR.cacheList_mem d _)
    (fun _ i hd => hR.notMem (fun e => (hI.cpu hd i).2 _ (e ▸ ha)) (hI.cpu hd i).2)
    fun _ hb => hR.listed hb

theorem SlabInv.of_lists {r : SlabRun κ} {L : ListKey κ → List (SlabNode κ)} (hI : SlabInv r L)
    {s' : SlabState κ} {out' : List (Obj κ)} (hcore : CoreInv s' out' L)
    (hcache : s'.cache = r.st.cache) (hshape : s'.shape = r.st.shape) :
    SlabInv ⟨s', r.sizes, out'⟩ L :=
  hI.of_shape hcore hcache hshape (fun _ => Iff.rfl) (fun _ i hd => (hI.cpu hd i).2) fun _ h => h

/-! ### `kmem_cache_alloc` -/

section Alloc

variable {r : SlabRun κ} {L : ListKey κ → List (SlabNode κ)} {c : κ}

/-- `obj_pop` on a slab that keeps its place in the lists. -/
theorem CoreInv.pop {s : SlabState κ} {out : List (Obj κ)} (hI : CoreInv s out L) {a : ℕ}
    {sl : Slab κ} (hsl : s.slab a = some sl) (hlt : sl.inuse < (s.cache sl.kc).countPerSlab)
    (hfilled : FilledInv (popState s a sl) L) :
    CoreInv (popState s a sl) (⟨sl.kc, a, s.mem sl.freeList⟩ :: out) L where
  pagesInv := hI.pagesInv.congr rfl (shape_update hsl _ _) rfl
  stacksInv := hI.stacksInv.pop hsl hlt
  listsInv := hI.listsInv.congr rfl (shape_update hsl _ _)
  filledInv := hfilled

/-- `obj_pop` on a slab of `part_slabs` that stays there. -/
theorem SlabInv.pop (hI : SlabInv r L) {a : ℕ} {sl : Slab κ} (hsl : r.st.slab a = some sl)
    (ha : .slabList a ∈ L (.slabs sl.kc false))
    (hlt : sl.inuse + 1 < (r.st.cache sl.kc).countPerSlab) :
    SlabInv ⟨popState r.st a sl, r.sizes, ⟨sl.kc, a, r.st.mem sl.freeList⟩ :: r.out⟩ L := by
  have hfilled : FilledInv (popState r.st a sl) L := by
    refine hI.core.filledInv.relist (hI.core.listsInv.relisted_refl ha) rfl
      (fun b hb => Function.update_of_ne hb _ _) fun sl' hsl' => ?_
    obtain rfl : _ = sl' := by simpa [popState] using hsl'
    exact iff_of_true rfl hlt
  exact hI.of_lists (hI.core.pop hsl (Nat.lt_of_succ_lt hlt) hfilled) rfl (shape_update hsl _ _)

theorem FilledInv.of_unlisted {s s' : SlabState κ} (hF : FilledInv s L) {a : ℕ}
    (hun : ∀ k, .slabList a ∉ L k) (hc : s'.cache = s.cache)
    (hother : ∀ b, b ≠ a → s'.slab b = s.slab b) : FilledInv s' L := by
  intro c f b sl hb hsl
  rw [hc]
  exact hF c f b sl hb (by rwa [← hother b fun e => hun _ (e ▸ hb)])

theorem SlabInv.geometry (hI : SlabInv r L) (hc : r.sizes c ≠ none) : Geometry (r.st.cache c) := by
  obtain ⟨n, hn⟩ := Option.ne_none_iff_exists'.mp hc
  obtain ⟨h9, h8192, hcache⟩ := hI.size hn
  rw [hcache]
  exact geometry_ofSize _ h9 h8192

variable [DecidableEq κ]

theorem SlabInv.cacheList_notEmpty (hI : SlabInv r L) (hc : r.sizes c ≠ none) :
    listEmpty r.st.links (.cacheList c) = false :=
  hI.core.listsInv.rings.notEmpty_of_mem (hI.listed.mpr hc)

/-- The state after `kmem_cache_add_slab`, before the first object is taken. -/
def addState (s : SlabState κ) (c : κ) (pages : ℕ × ℕ) : SlabState κ :=
  (kmemCacheAddSlab s c pages).2

/-- The slab that `slab_create` sets up. -/
def newSlab (c : κ) (pages : ℕ × ℕ) : Slab κ :=
  ⟨c, getPageAddr pages.2, 0, freeListField pages.1 + 8⟩

theorem addState_slab (s : SlabState κ) (c : κ) (pages : ℕ × ℕ) :
    (addState s c pages).slab = Function.update s.slab pages.1 (some (newSlab c pages)) := rfl

/-- The four ways in which `kmem_cache_alloc` serves a call: from the slab of the CPU, from a new
slab, from the first slab of `part_slabs`, and from that slab when the object is its last one. -/
inductive AllocCase (r : SlabRun κ) (L : ListKey κ → List (SlabNode κ)) (c : κ) (cpuid : Fin ncpu)
    (pages : ℕ × ℕ) : Obj κ × SlabState κ → Prop
  | cpu {sl : Slab κ} (hsl : r.st.slab ((r.st.cache c).cacheCpu cpuid) = some sl) (hkc : sl.kc = c)
      (hlt : sl.inuse < (r.st.cache c).countPerSlab) :
      AllocCase r L c cpuid pages (⟨c, (r.st.cache c).cacheCpu cpuid, r.st.mem sl.freeList⟩,
        popState r.st ((r.st.cache c).cacheCpu cpuid) sl)
  | new :
      AllocCase r L c cpuid pages
        (⟨c, pages.1, (addState r.st c pages).mem (newSlab c pages).freeList⟩,
          popState (addState r.st c pages) pages.1 (newSlab c pages))
  | part {a : ℕ} {sl : Slab κ} (ha : .slabList a ∈ L (.slabs c false)) (hsl : r.st.slab a = some sl)
      (hkc : sl.kc = c) (hlt : sl.inuse + 1 < (r.st.cache c).countPerSlab) :
      AllocCase r L c cpuid pages (⟨c, a, r.st.mem sl.freeList⟩, popState r.st a sl)
  | last {a : ℕ} {sl : Slab κ} (ha : .slabList a ∈ L (.slabs c false)) (hsl : r.st.slab a = some sl)
      (hkc : sl.kc = c) (hlt : sl.inuse + 1 = (r.st.cache c).countPerSlab) :
      AllocCase r L c cpuid pages
        (⟨c, a, r.st.mem sl.freeList⟩, moveSlab (popState r.st a sl) a (.fullSlabs c))

/-- A CPU whose own slab has room takes the object from there. -/
theorem SlabInv.kmemCacheAlloc_cpu (hI : SlabInv r L) (hc : r.sizes c ≠ none) (cpuid : Fin ncpu)
    (pages : ℕ × ℕ) {sl : Slab κ} (hsl : r.st.slab ((r.st.cache c).cacheCpu cpuid) = some sl)
    (hkc : sl.kc = c) (hlt : sl.inuse < (r.st.cache c).countPerSlab) :
    kmemCacheAlloc r.st c cpuid pages =
      .ok (⟨c, (r.st.cache c).cacheCpu cpuid, r.st.mem sl.freeList⟩,
        popState r.st ((r.st.cache c).cacheCpu cpuid) sl) := by
  simp [kmemCacheAlloc, hI.cacheList_notEmpty hc, isSlabPartial, hsl, hlt, objPop_eq hsl, hkc]

/-- `kmem_cache_alloc` returns for a cache that has been created. The object comes from the slab of
the CPU, from one on the list of partial slabs, or from a new slab. -/
theorem SlabInv.kmemCacheAlloc_cases (hI : SlabInv r L) (hc : r.sizes c ≠ none)
    (cpuid : Fin ncpu) (pages : ℕ × ℕ) :
    ∃ res, kmemCacheAlloc r.st c cpuid pages = .ok res ∧ AllocCase r L c cpuid pages res := by
  have hne := hI.cacheList_notEmpty hc
  obtain ⟨p, hp⟩ := (hI.cpu hc cpuid).1
  obtain ⟨sl, hsl, hkc, -⟩ := slab_of_shape hp
  by_cases hlt : sl.inuse < (r.st.cache c).countPerSlab
  · exact ⟨_, hI.kmemCacheAlloc_cpu hc cpuid pages hsl hkc hlt, .cpu hsl hkc hlt⟩
  have hrings := hI.core.listsInv.rings
  cases hpart : L (.slabs c false) with
  | nil =>
    have hempty : listEmpty r.st.links (.partSlabs c) = true :=
      (hrings.empty_iff (.slabs c false)).mpr hpart
    have hnew : (addState r.st c pages).slab pages.1 = some (newSlab c pages) := by
      rw [addState_slab, Function.update_self]
    refine ⟨_, ?_, .new⟩
    simp [kmemCacheAlloc, hne, isSlabPartial, hsl, hlt, hempty]
    exact objPop_eq hnew
  | cons x rest =>
    have hx : x ∈ L (.slabs c false) := by simp [hpart]
    obtain ⟨a, q, rfl, hq⟩ := hI.core.listsInv.slabs hx
    obtain ⟨sa, hsa, hkca, -⟩ := slab_of_shape hq
    have hroom := (hI.core.filledInv _ _ _ _ hx hsa).1 rfl
    have hempty : listEmpty r.st.links (.partSlabs c) = false := by
      simpa [hpart, ListKey.head] using (hrings.empty_iff (.slabs c false)).not
    have hfirst : listFirst r.st.links (.partSlabs c) = .slabList a := by
      have hseg := (hrings.ring (.slabs c false)).seg
      rw [hpart] at hseg
      exact hseg.1.1
    have hpop : (popState r.st a sa).slab a =
        some { sa with inuse := sa.inuse + 1, freeList := sa.freeList + 8 } := by simp [popState]
    have hcache : (popState r.st a sa).cache = r.st.cache := rfl
    by_cases hlast : sa.inuse + 1 < (r.st.cache c).countPerSlab
    · refine ⟨_, ?_, .part hx hsa hkca hlast⟩
      simp [kmemCacheAlloc, hne, isSlabPartial, hsl, hlt, hempty, hfirst, objPop_eq hsa, hpop,
        hlast, hkca, hcache]
    · refine ⟨_, ?_, .last hx hsa hkca (by omega)⟩
      simp [kmemCacheAlloc, hne, isSlabPartial, hsl, hlt, hempty, hfirst, objPop_eq hsa, hpop,
        hlast, hkca, hcache]

/-- `kmem_cache_add_slab`: the new slab is on `part_slabs`. -/
theorem CoreInv.add {s : SlabState κ} {out : List (Obj κ)} (hI : CoreInv s out L) {pages : ℕ × ℕ}
    (hg : Geometry (s.cache c)) (hf : Fresh s (s.cache c).order pages) :
    ∃ L', Relisted L L' (.slabList pages.1) (.slabs c false) ∧
      CoreInv (addState s c pages) out L' := by
  obtain ⟨h, p⟩ := pages
  have hshape : (slabCreate s c h p).shape h = some (c, getPageAddr p) := by
    rw [slabCreate_shape, Function.update_self]
  obtain ⟨L', hR, hL'⟩ := (hI.listsInv.create (p := p) hf).addHead hshape false
    (hI.listsInv.notMem hf.shape_eq_none)
  refine ⟨L', hR, ⟨?_, ?_, hL', ?_⟩⟩
  · exact (hI.pagesInv.create hg hf).congr rfl rfl rfl
  · have hS := hI.stacksInv.create hI.pagesInv hg hf
    exact ⟨hS.top, hS.le, hS.perm, hS.issued⟩
  · refine hI.filledInv.relist hR rfl (fun b hb => Function.update_of_ne hb _ _) fun sl hsl => ?_
    obtain rfl : newSlab c (h, p) = sl := by simpa [addState_slab] using hsl
    exact iff_of_true rfl (lt_of_lt_of_le (Nat.zero_lt_succ 3) hg.four_le)

theorem SlabInv.add (hI : SlabInv r L) (hc : r.sizes c ≠ none) {pages : ℕ × ℕ}
    (hf : Fresh r.st (r.st.cache c).order pages) :
    ∃ L', .slabList pages.1 ∈ L' (.slabs c false) ∧
      SlabInv ⟨addState r.st c pages, r.sizes, r.out⟩ L' := by
  obtain ⟨L', hR, hcore⟩ := hI.core.add (hI.geometry hc) hf
  have hmem : .slabList pages.1 ∈ L' (.slabs c false) := (hR _ _).mpr (Or.inl ⟨rfl, rfl⟩)
  have hnone : r.st.shape pages.1 = none := hf.shape_eq_none
  have hshape : (addState r.st c pages).shape =
      Function.update r.st.shape pages.1 (some (c, getPageAddr pages.2)) := slabCreate_shape ..
  have hnew (a d p) (h : (addState r.st c pages).shape a = some (d, p)) (hn : r.st.shape a = none) :
      a = pages.1 ∧ d = c := by
    rw [hshape] at h
    by_cases ha : a = pages.1
    · subst ha
      rw [Function.update_self] at h
      cases h
      exact ⟨rfl, rfl⟩
    · rw [Function.update_of_ne ha, hn] at h
      cases h
  refine ⟨L', hmem, hI.of_core hcore rfl (fun a d p h => ?_)
    (fun a d p h hn => (hnew a d p h hn).2 ▸ hc) (fun d => hR.cacheList_mem d _)
    (fun d i hd => hR.notMem (fun e => ?_) (hI.cpu hd i).2) (fun b hb => hR.listed hb)
    fun a d p h hn => ⟨_, (hnew a d p h hn).1 ▸ hmem⟩⟩
  · rw [hshape, Function.update_of_ne, h]
    rintro rfl
    rw [hnone] at h
    cases h
  · obtain ⟨q, hq⟩ := (hI.cpu hd i).1
    rw [e, hnone] at hq
    cases hq

theorem SlabInv.alloc (hI : SlabInv r L) (hc : r.sizes c ≠ none) {cpuid : Fin ncpu}
    {pages : ℕ × ℕ} (hf : Fresh r.st (r.st.cache c).order pages) {res : Obj κ × SlabState κ}
    (hres : AllocCase r L c cpuid pages res) :
    ∃ L', SlabInv ⟨res.2, r.sizes, res.1 :: r.out⟩ L' := by
  cases hres with
  | @cpu sl hsl hkc hlt =>
    subst hkc
    have hcore := hI.core.pop hsl hlt (hI.core.filledInv.of_unlisted (hI.cpu hc cpuid).2 rfl
      fun b hb => Function.update_of_ne hb _ _)
    exact ⟨L, hI.of_lists hcore rfl (shape_update hsl _ _)⟩
  | new =>
    obtain ⟨L', hmem, hadd⟩ := hI.add hc hf
    have hnew : (addState r.st c pages).slab pages.1 = some (newSlab c pages) := by
      rw [addState_slab, Function.update_self]
    have hfour := (hI.geometry hc).four_le
    exact ⟨L', hadd.pop hnew hmem (show 1 < (r.st.cache c).countPerSlab by omega)⟩
  | @part a sl ha hsl hkc hlt =>
    subst hkc
    exact ⟨L, hI.pop hsl ha hlt⟩
  | @last a sl ha hsl hkc hlt =>
    subst hkc
    have hshape : (popState r.st a sl).shape = r.st.shape := shape_update hsl _ _
    have hlists : ListsInv (popState r.st a sl) L := hI.core.listsInv.congr rfl hshape
    obtain ⟨L', hR, hL'⟩ := hlists.move (hshape ▸ shape_of_slab hsl) true ha
    have hfilled : FilledInv (moveSlab (popState r.st a sl) a (.fullSlabs sl.kc)) L' := by
      refine hI.core.filledInv.relist hR rfl (fun b hb => Function.update_of_ne hb _ _)
        fun sl' hsl' => ?_
      obtain rfl : _ = sl' := by simpa [popState, moveSlab] using hsl'
      exact iff_of_false (by simp) hlt.not_lt
    have hcore : CoreInv (moveSlab (popState r.st a sl) a (.fullSlabs sl.kc))
        (⟨sl.kc, a, r.st.mem sl.freeList⟩ :: r.out) L' := by
      have hS := hI.core.stacksInv.pop hsl (by omega)
      exact ⟨hI.core.pagesInv.congr rfl hshape rfl, ⟨hS.top, hS.le, hS.perm, hS.issued⟩, hL',
        hfilled⟩
    exact ⟨L', hI.of_relisted hR ha hcore rfl hshape⟩

end Alloc

/-! ### `kmem_cache_free` -/

section Free

variable {r : SlabRun κ} {L : ListKey κ → List (SlabNode κ)} {o : Obj κ}

/-- A back pointer that is set on the page of an outstanding object leads to the slab that issued
the object. -/
theorem CoreInv.owner_eq (hI : CoreInv r.st r.out L) (ho : o ∈ r.out) {a : ℕ}
    (ha : r.st.pageSlab (getPageStruct o.addr) = some a) : a = o.slab := by
  obtain ⟨p, hp⟩ := hI.stacksInv.issued ho
  obtain ⟨sl, hsl, -, -⟩ := slab_of_shape hp
  have hp := shape_of_slab hsl
  obtain ⟨d, hd⟩ := hI.pagesInv.owner_first ha
  by_contra hne
  have hsize := (hI.pagesInv.geometry hp).size_pos
  have hpage := hI.pagesInv.object_page hsl (hI.stacksInv.mem_objects_of_mem ho hsl) le_rfl
    (by omega)
  have hpos := Nat.two_pow_pos (r.st.cache d).order
  refine Set.disjoint_left.mp (hI.pagesInv.disjoint hd hp hne)
    (mem_footprint.mpr (Or.inr ⟨?_, ?_⟩)) (mem_footprint.mpr (Or.inr hpage)) <;>
    rw [getPageStruct_getPageAddr]
  omega

/-- The three ways in which `kmem_cache_free` takes an object back: into the slab of a CPU, into a
slab that has room, and into a slab that was full and moves to `part_slabs`. -/
inductive FreeCase [DecidableEq κ] (r : SlabRun κ) (L : ListKey κ → List (SlabNode κ)) (o : Obj κ)
    (sl : Slab κ) : SlabState κ → Prop
  | cpu (hun : ∀ k, .slabList o.slab ∉ L k) :
      FreeCase r L o sl (pushState r.st o.slab sl o.addr)
  | part (hmem : .slabList o.slab ∈ L (.slabs o.cache false)) :
      FreeCase r L o sl (pushState r.st o.slab sl o.addr)
  | full (hmem : .slabList o.slab ∈ L (.slabs o.cache true)) :
      FreeCase r L o sl (pushState (moveSlab r.st o.slab (.partSlabs o.cache)) o.slab sl o.addr)

variable [DecidableEq κ]

/-- `kmem_cache_free` finds the slab of the object if the back pointer is right. The object goes
back onto the stack of the slab, which moves to `part_slabs` if it was full. -/
theorem SlabInv.kmemCacheFree_cases (hI : SlabInv r L) (ho : o ∈ r.out)
    (hown : r.st.pageSlab (getPageStruct o.addr) = some o.slab) :
    ∃ sl s', r.st.slab o.slab = some sl ∧ sl.kc = o.cache ∧
      kmemCacheFree r.st o.cache o.addr = .ok s' ∧ FreeCase r L o sl s' := by
  obtain ⟨p, hp⟩ := hI.core.stacksInv.issued ho
  obtain ⟨sl, hsl, hkc, -⟩ := slab_of_shape hp
  have hne := hI.cacheList_notEmpty (hI.created hp)
  by_cases hun : ∀ k, .slabList o.slab ∉ L k
  · have hself : listEmpty r.st.links (.slabList o.slab) = true := by
      simpa [listEmpty] using (hI.core.listsInv.unlisted (by simp [hp]) hun).1
    refine ⟨sl, _, hsl, hkc, ?_, .cpu hun⟩
    simp [kmemCacheFree, hne, hown, hself, objPush_eq hsl]
  obtain ⟨k, hk⟩ := not_forall_not.mp hun
  have hlisted : listEmpty r.st.links (.slabList o.slab) = false :=
    hI.core.listsInv.rings.notEmpty_of_mem hk
  cases k with
  | caches =>
    obtain ⟨d, hd⟩ := hI.core.listsInv.caches hk
    cases hd
  | slabs d f =>
    obtain ⟨b, q, hb, hq⟩ := hI.core.listsInv.slabs hk
    cases hb
    obtain rfl : o.cache = d := by
      rw [hp] at hq
      cases hq
      rfl
    have hroom := hI.core.filledInv _ _ _ _ hk hsl
    cases f with
    | false =>
      refine ⟨sl, _, hsl, hkc, ?_, .part hk⟩
      simp [kmemCacheFree, hne, hown, hlisted, isSlabPartial, hsl, hroom.1 rfl, objPush_eq hsl]
    | true =>
      have hfull : ¬sl.inuse < (r.st.cache o.cache).countPerSlab := fun h => by cases hroom.2 h
      have hsl' : (moveSlab r.st o.slab (.partSlabs o.cache)).slab o.slab = some sl := hsl
      refine ⟨sl, _, hsl, hkc, ?_, .full hk⟩
      simp [kmemCacheFree, hne, hown, hlisted, isSlabPartial, hsl, hfull, objPush_eq hsl']

theorem SlabInv.free (hI : SlabInv r L) (ho : o ∈ r.out) {sl : Slab κ}
    (hsl : r.st.slab o.slab = some sl) (hkc : sl.kc = o.cache) {s' : SlabState κ}
    (hs' : FreeCase r L o sl s') : ∃ L', SlabInv ⟨s', r.sizes, r.out.erase o⟩ L' := by
  have hshape : (pushState r.st o.slab sl o.addr).shape = r.st.shape :=
    shape_update (s := { r.st with mem := _ }) hsl _ _
  have hP := hI.core.pagesInv
  have hS := hI.core.stacksInv.push hP ho hsl
  have hpages : PagesInv (pushState r.st o.slab sl o.addr) := hP.congr rfl hshape rfl
  have hother (b : ℕ) (hb : b ≠ o.slab) :
      (pushState r.st o.slab sl o.addr).slab b = r.st.slab b := Function.update_of_ne hb _ _
  have hroom (sl' : Slab κ) (hsl' : (pushState r.st o.slab sl o.addr).slab o.slab = some sl') :
      false = false ↔ sl'.inuse < (r.st.cache o.cache).countPerSlab := by
    refine iff_of_true rfl ?_
    obtain rfl : _ = sl' := by simpa [pushState] using hsl'
    have hle := hI.core.stacksInv.le hsl
    have hpos := (hP.geometry (shape_of_slab hsl)).four_le
    rw [hkc] at hle hpos
    dsimp only
    omega
  have hstays (hfilled : FilledInv (pushState r.st o.slab sl o.addr) L) :
      SlabInv ⟨pushState r.st o.slab sl o.addr, r.sizes, r.out.erase o⟩ L :=
    hI.of_lists ⟨hpages, hS, hI.core.listsInv.congr rfl hshape, hfilled⟩ rfl hshape
  cases hs' with
  | cpu hun => exact ⟨L, hstays (hI.core.filledInv.of_unlisted hun rfl hother)⟩
  | part hmem =>
    exact ⟨L, hstays (hI.core.filledInv.relist (hI.core.listsInv.relisted_refl hmem) rfl hother
      hroom)⟩
  | full hmem =>
    obtain ⟨L', hR, hL'⟩ := hI.core.listsInv.move (hkc ▸ shape_of_slab hsl) false hmem
    have hfilled : FilledInv (pushState (moveSlab r.st o.slab (.partSlabs o.cache)) o.slab sl
        o.addr) L' := hI.core.filledInv.relist hR rfl hother hroom
    have hcore : CoreInv (pushState (moveSlab r.st o.slab (.partSlabs o.cache)) o.slab sl o.addr)
        (r.out.erase o) L' :=
      ⟨hpages.congr rfl rfl rfl, ⟨hS.top, hS.le, hS.perm, hS.issued⟩, hL'.congr rfl hshape, hfilled⟩
    exact ⟨L', hI.of_relisted hR hmem hcore rfl hshape⟩

/-- A free that returns has followed a back pointer. -/
theorem kmemCacheFree_ok {s s' : SlabState κ} {c : κ} {obj : ℕ}
    (h : kmemCacheFree s c obj = .ok s') : ∃ a, s.pageSlab (getPageStruct obj) = some a := by
  cases hp : s.pageSlab (getPageStruct obj) with
  | none =>
    cases hl : listEmpty s.links (.cacheList c) with
    | false => simp [kmemCacheFree, hp, hl] at h
    | true =>
      simp only [kmemCacheFree, hl, if_true] at h
      cases h
  | some a => exact ⟨a, rfl⟩

theorem kfree_ok {s s' : SlabState κ} {obj : ℕ} (h : kfree s obj = .ok s') :
    ∃ a, s.pageSlab (getPageStruct obj) = some a := by
  cases hp : s.pageSlab (getPageStruct obj) with
  | none => simp [kfree, hp] at h
  | some a => exact ⟨a, rfl⟩

/-- `kfree` finds the cache of an object through its slab. -/
theorem SlabInv.kfree_eq (hI : SlabInv r L) (ho : o ∈ r.out)
    (hown : r.st.pageSlab (getPageStruct o.addr) = some o.slab) :
    kfree r.st o.addr = kmemCacheFree r.st o.cache o.addr := by
  obtain ⟨p, hp⟩ := hI.core.stacksInv.issued ho
  obtain ⟨sl, hsl, hkc, -⟩ := slab_of_shape hp
  simp [kfree, hown, hsl, hkc]

end Free

/-! ### `kmem_cache_create` -/

section Create

variable {s : SlabState κ} {out : List (Obj κ)} {L : ListKey κ → List (SlabNode κ)} {c : κ}

/-- A change of list nodes that leaves the lists and the nodes of slabs alone. -/
theorem CoreInv.setLinks (hI : CoreInv s out L) {links : Links (SlabNode κ)}
    {L' : ListKey κ → List (SlabNode κ)} (hrings : Rings links ListKey.head L')
    (hcaches : ∀ x ∈ L' .caches, ∃ d, x = .cacheList d)
    (hslabs : ∀ d f, L' (.slabs d f) = L (.slabs d f))
    (hframe : ∀ a, (∀ k, .slabList a ∉ L k) →
      links.next (.slabList a) = s.links.next (.slabList a) ∧
        links.prev (.slabList a) = s.links.prev (.slabList a)) :
    CoreInv { s with links := links } out L' := by
  have hS := hI.stacksInv
  refine ⟨hI.pagesInv.congr rfl rfl rfl, ⟨hS.top, hS.le, hS.perm, hS.issued⟩,
    ⟨hrings, fun {x} hx => hcaches x hx, fun {d f x} hx => hI.listsInv.slabs (hslabs d f ▸ hx), ?_⟩,
    fun d f a sl ha => hI.filledInv d f a sl (hslabs d f ▸ ha)⟩
  · intro a ha hun
    have hunL (k : ListKey κ) : .slabList a ∉ L k := by
      intro hk
      cases k with
      | caches =>
        obtain ⟨d, hd⟩ := hI.listsInv.caches hk
        cases hd
      | slabs d f => exact hun (.slabs d f) (by rwa [hslabs])
    obtain ⟨hnext, hprev⟩ := hframe a hunL
    dsimp only
    rw [hnext, hprev]
    exact hI.listsInv.unlisted ha hunL

theorem ListsInv.cacheList_notMem_ring (hL : ListsInv s L) (hcache : .cacheList c ∉ L .caches)
    (k : ListKey κ) : .cacheList c ∉ k.head :: L k := by
  rw [List.mem_cons, not_or]
  cases k with
  | caches => exact ⟨by simp [ListKey.head], hcache⟩
  | slabs d f =>
    refine ⟨by cases f <;> simp [ListKey.head], fun hx => ?_⟩
    obtain ⟨a, p, ha, -⟩ := hL.slabs hx
    cases ha

variable [DecidableEq κ]

theorem CoreInv.create (hI : CoreInv s out L) {h p : ℕ} (hg : Geometry (s.cache c))
    (hf : Fresh s (s.cache c).order (h, p)) : CoreInv (slabCreate s c h p) out L where
  pagesInv := hI.pagesInv.create hg hf
  stacksInv := hI.stacksInv.create hI.pagesInv hg hf
  listsInv := hI.listsInv.create hf
  filledInv := hI.filledInv.of_unlisted (hI.listsInv.notMem hf.shape_eq_none) rfl
    fun _ hb => Function.update_of_ne hb _ _

theorem Fresh.create {h p : ℕ} {pages : ℕ × ℕ} {order : ℕ} (hf : Fresh s order pages)
    (hdis : Disjoint (footprint h p (s.cache c).order) (footprint pages.1 pages.2 order)) :
    Fresh (slabCreate s c h p) order pages := by
  refine ⟨hf.1, fun i hi => ⟨(hf.2 i hi).1, fun a sl ha hmem => ?_⟩⟩
  by_cases hah : a = h
  · subst hah
    obtain rfl : newSlab c (a, p) = sl := by simpa [slabCreate, newSlab] using ha
    rw [newSlab, getPageStruct_getPageAddr] at hmem
    exact Set.disjoint_left.mp hdis hmem hi
  · exact (hf.2 i hi).2 a sl (by simpa [slabCreate, hah] using ha) hmem

theorem CoreInv.cpuInit {pages : Fin ncpu → ℕ × ℕ} (l : List (Fin ncpu)) (hI : CoreInv s out L)
    (hg : Geometry (s.cache c)) (hnd : l.Nodup)
    (hfresh : ∀ i ∈ l, Fresh s (s.cache c).order (pages i))
    (hdis : ∀ i j, i ≠ j → Disjoint (footprint (pages i).1 (pages i).2 (s.cache c).order)
      (footprint (pages j).1 (pages j).2 (s.cache c).order)) {s' : SlabState κ}
    (hs' : l.foldl (fun s i => slabCreate s c (pages i).1 (pages i).2) s = s') :
    CoreInv s' out L ∧ s'.cache = s.cache ∧
      (∀ a x, s.shape a = some x → s'.shape a = some x) ∧
      (∀ i ∈ l, ∃ p, s'.shape (pages i).1 = some (c, p)) ∧
      ∀ a d p, s'.shape a = some (d, p) →
        s.shape a = some (d, p) ∨ d = c ∧ ∃ i, a = (pages i).1 := by
  induction l generalizing s with
  | nil =>
    cases hs'
    exact ⟨hI, rfl, fun _ _ h => h, fun i hi => absurd hi List.not_mem_nil, fun _ _ _ h => Or.inl h⟩
  | cons i l ih =>
    have hf := hfresh i List.mem_cons_self
    have hnone : s.shape (pages i).1 = none := hf.shape_eq_none
    obtain ⟨hi, hnd⟩ := List.nodup_cons.mp hnd
    have hshape := slabCreate_shape s c (pages i).1 (pages i).2
    obtain ⟨hcore, hcache, hkeep, hcpu, hnew⟩ := ih (s := slabCreate s c (pages i).1 (pages i).2)
      (hI.create hg hf) hg hnd
      (fun j hj => (hfresh j (List.mem_cons_of_mem _ hj)).create
        (hdis i j fun e => hi (e ▸ hj))) hdis hs'
    refine ⟨hcore, hcache, fun a x ha => hkeep a x ?_, fun j hj => ?_, fun a d p ha => ?_⟩
    · rw [hshape, Function.update_of_ne, ha]
      rintro rfl
      rw [hnone] at ha
      cases ha
    · rcases List.mem_cons.mp hj with rfl | hj
      · exact ⟨_, hkeep _ _ (by rw [hshape, Function.update_self])⟩
      · exact hcpu j hj
    · rcases hnew a d p ha with ha | ha
      · rw [hshape] at ha
        by_cases hai : a = (pages i).1
        · subst hai
          rw [Function.update_self] at ha
          cases ha
          exact Or.inr ⟨rfl, i, rfl⟩
        · rw [Function.update_of_ne hai] at ha
          exact Or.inl ha
      · exact Or.inr ha

/-- Setting up the record of a cache that has no slabs yet. -/
theorem CoreInv.setCache (hI : CoreInv s out L) (hc : ∀ a p, s.shape a ≠ some (c, p))
    (k : KmemCache) : CoreInv { s with cache := Function.update s.cache c k } out L := by
  have hne {a d p} (h : s.shape a = some (d, p)) : Function.update s.cache c k d = s.cache d := by
    refine Function.update_of_ne ?_ _ _
    rintro rfl
    exact hc a p h
  have hneS {a sl} (h : s.slab a = some sl) := hne (shape_of_slab h)
  refine ⟨⟨?_, ?_, ?_, hI.pagesInv.owner, hI.pagesInv.owner_first⟩,
    ⟨hI.stacksInv.top, ?_, ?_, hI.stacksInv.issued⟩, hI.listsInv.congr rfl rfl, ?_⟩
  · intro a d o (h : s.shape a = some (d, o))
    dsimp only
    rw [hne h]
    exact hI.pagesInv.geometry h
  · intro a d o (h : s.shape a = some (d, o))
    dsimp only
    rw [hne h]
    exact hI.pagesInv.block h
  · intro a b d e o o' (ha : s.shape a = some (d, o)) (hb : s.shape b = some (e, o')) hab
    dsimp only
    rw [hne ha, hne hb]
    exact hI.pagesInv.disjoint ha hb hab
  · intro a sl (h : s.slab a = some sl)
    dsimp only
    rw [hneS h]
    exact hI.stacksInv.le h
  · intro a sl (h : s.slab a = some sl)
    have hperm := hI.stacksInv.perm h
    simpa only [stack, objects, hneS h] using hperm
  · intro d f a sl ha (h : s.slab a = some sl)
    obtain ⟨b, p, hb, hp⟩ := hI.listsInv.slabs ha
    dsimp only
    rw [hne hp]
    exact hI.filledInv d f a sl ha h

theorem CoreInv.setup (hI : CoreInv s out L) (hc : ∀ a p, s.shape a ≠ some (c, p))
    (hcache : .cacheList c ∉ L .caches) (k : KmemCache) :
    CoreInv (kmemCacheSetup s c k) out L := by
  have hnil (f : Bool) : L (.slabs c f) = [] := List.eq_nil_iff_forall_not_mem.mpr fun x hx => by
    obtain ⟨a, p, -, hp⟩ := hI.listsInv.slabs hx
    exact hc a p hp
  have hrings := ((hI.listsInv.rings.init_head (hnil false)).init_head (hnil true)).init
    (hI.listsInv.cacheList_notMem_ring hcache)
  refine (hI.setCache hc k).setLinks hrings (fun x hx => hI.listsInv.caches hx) (fun _ _ => rfl)
    fun a _ => ?_
  simp [initListHead_next, initListHead_prev]

theorem CoreInv.enlist (hI : CoreInv s out L) (hcache : .cacheList c ∉ L .caches) :
    CoreInv { s with links := listAddHead s.links (.cacheList c) .kmemCacheList } out
      (Function.update L .caches (.cacheList c :: L .caches)) := by
  refine hI.setLinks
    (hI.listsInv.rings.addHead .caches (hI.listsInv.cacheList_notMem_ring hcache)) (fun x hx => ?_)
    (fun d f => by simp) fun a hun =>
      hI.listsInv.rings.insert_head_frame .caches (slabList_notMem_ring hun) (by simp)
  rw [Function.update_self, List.mem_cons] at hx
  rcases hx with rfl | hx
  · exact ⟨c, rfl⟩
  · exact hI.listsInv.caches hx

/-- `kmem_cache_create` of a cache without slabs: the new slabs are those of its CPUs. -/
theorem CoreInv.kmemCacheCreate (hI : CoreInv s out L) (hc : ∀ a p, s.shape a ≠ some (c, p))
    (hcache : .cacheList c ∉ L .caches) {size : BitVec 16} (h9 : 9 ≤ size.toNat)
    (h8192 : size.toNat ≤ 8192) {pages : Fin ncpu → ℕ × ℕ}
    (hpages : FreshAll s (calcSlabOrder size) pages) {s' : SlabState κ}
    (hs' : Mm.kmemCacheCreate s c size pages = s') :
    CoreInv s' out (Function.update L .caches (.cacheList c :: L .caches)) ∧
      s'.cache = Function.update s.cache c (.ofSize size fun i => (pages i).1) ∧
      (∀ a x, s.shape a = some x → s'.shape a = some x) ∧
      (∀ i, ∃ p, s'.shape (pages i).1 = some (c, p)) ∧
      ∀ a d p, s'.shape a = some (d, p) →
        s.shape a = some (d, p) ∨ d = c ∧ ∃ i, a = (pages i).1 := by
  obtain ⟨k, hk⟩ : ∃ k : KmemCache, k = .ofSize size fun i => (pages i).1 := ⟨_, rfl⟩
  have hcache₁ : (kmemCacheSetup s c k).cache c = k := Function.update_self ..
  have hg : Geometry ((kmemCacheSetup s c k).cache c) := by
    rw [hcache₁, hk]
    exact geometry_ofSize _ h9 h8192
  have horder : ((kmemCacheSetup s c k).cache c).order = calcSlabOrder size := by
    rw [hcache₁, hk]
    rfl
  have hfresh (i : Fin ncpu) :
      Fresh (kmemCacheSetup s c k) ((kmemCacheSetup s c k).cache c).order (pages i) := by
    rw [horder]
    refine ⟨(hpages.1 i).1, fun j hj => ⟨((hpages.1 i).2 j hj).1, fun a sl ha => ?_⟩⟩
    have hne : sl.kc ≠ c := fun e => hc a sl.objs (e ▸ shape_of_slab (s := s) ha)
    rw [show (kmemCacheSetup s c k).cache sl.kc = s.cache sl.kc from Function.update_of_ne hne _ _]
    exact ((hpages.1 i).2 j hj).2 a sl ha
  obtain ⟨s₂, hs₂⟩ : ∃ s₂, cacheCpuInit (kmemCacheSetup s c k) c pages = s₂ := ⟨_, rfl⟩
  obtain ⟨hcore, hcache₂, hkeep, hcpu, hnew⟩ := (hI.setup hc hcache k).cpuInit
    (List.finRange ncpu) hg (List.nodup_finRange _) (fun i _ => hfresh i) (horder ▸ hpages.2) hs₂
  rw [Mm.kmemCacheCreate, ← hk, hs₂] at hs'
  subst hs'
  exact ⟨hcore.enlist hcache, hk ▸ hcache₂, hkeep, fun i => hcpu i (List.mem_finRange i), hnew⟩

theorem SlabInv.create {r : SlabRun κ} (hI : SlabInv r L) (hnew : r.sizes c = none)
    {size : BitVec 16} (h9 : 9 ≤ size.toNat) (h8192 : size.toNat ≤ 8192)
    {pages : Fin ncpu → ℕ × ℕ} (hpages : FreshAll r.st (calcSlabOrder size) pages) :
    SlabInv ⟨kmemCacheCreate r.st c size pages, Function.update r.sizes c (some size), r.out⟩
      (Function.update L .caches (.cacheList c :: L .caches)) := by
  have hslab {a : ℕ} (ha : ∀ j, .slabList a ∉ L j) (j : ListKey κ) :
      .slabList a ∉ Function.update L .caches (.cacheList c :: L .caches) j := by
    by_cases hj : j = .caches
    · subst hj
      simpa using ha .caches
    · rw [Function.update_of_ne hj]
      exact ha j
  obtain ⟨s', hs'⟩ : ∃ s', kmemCacheCreate r.st c size pages = s' := ⟨_, rfl⟩
  obtain ⟨hcore, hcache, hkeep, hcpu, hshape⟩ := hI.core.kmemCacheCreate
    (fun a p h => hI.created h hnew) (fun h => hI.listed.mp h hnew) h9 h8192 hpages hs'
  rw [hs']
  constructor
  case core => exact hcore
  case size =>
    intro d n hn
    dsimp only at hn ⊢
    rw [hcache]
    by_cases hd : d = c
    · subst hd
      obtain rfl : size = n := by simpa using hn
      rw [Function.update_self]
      exact ⟨h9, h8192, rfl⟩
    · rw [Function.update_of_ne hd] at hn ⊢
      exact hI.size hn
  case listed =>
    intro d
    rw [Function.update_self, List.mem_cons, hI.listed]
    by_cases hd : d = c <;> simp [hd]
  case cpu =>
    intro d hd i
    dsimp only at hd ⊢
    rw [hcache]
    by_cases hdc : d = c
    · subst hdc
      rw [Function.update_self]
      exact ⟨hcpu i, hslab (hI.core.listsInv.notMem (hpages.1 i).shape_eq_none)⟩
    · rw [Function.update_of_ne hdc] at hd ⊢
      obtain ⟨⟨p, hp⟩, hun⟩ := hI.cpu hd i
      exact ⟨⟨p, hkeep _ _ hp⟩, hslab hun⟩
  case created =>
    intro a d p ha
    dsimp only
    by_cases hdc : d = c
    · simp [hdc]
    · rw [Function.update_of_ne hdc]
      exact hI.created ((hshape a d p ha).resolve_right fun h => hdc h.1)
  case own =>
    intro d hd
    dsimp only at hd ⊢
    rw [hcache]
    by_cases hdc : d = c
    · subst hdc
      rw [Function.update_self]
      intro i j hij
      by_contra hne
      exact Set.disjoint_left.mp (hpages.2 i j hne) (mem_footprint.mpr (Or.inl rfl))
        (mem_footprint.mpr (Or.inl hij))
    · rw [Function.update_of_ne hdc] at hd ⊢
      exact hI.own hd
  case covered =>
    intro a d p ha
    dsimp only at ha ⊢
    rw [hcache]
    rcases hshape a d p ha with hold | ⟨rfl, i, rfl⟩
    · have hdc : d ≠ c := fun e => hI.created hold (e ▸ hnew)
      rw [Function.update_of_ne hdc]
      refine (hI.covered hold).imp_right fun ⟨k, hk⟩ => ⟨k, ?_⟩
      by_cases hkc : k = .caches
      · subst hkc
        simpa using hk
      · rwa [Function.update_of_ne hkc]
    · rw [Function.update_self]
      exact .inl ⟨i, rfl⟩

end Create

/-! ### Whole runs -/

/-- At boot there is no slab and nothing is listed. -/
theorem slabInv_boot (mem : ℕ → ℕ) :
    SlabInv (⟨.boot mem, fun _ => none, []⟩ : SlabRun κ) fun _ => [] := by
  have hslab {a : ℕ} {sl : Slab κ} : (SlabState.boot mem).slab a ≠ some sl := by rintro ⟨⟩
  have hshape {a : ℕ} {x : κ × ℕ} : (SlabState.boot mem).shape a ≠ some x := by rintro ⟨⟩
  have hpage {p a : ℕ} : (SlabState.boot mem : SlabState κ).pageSlab p ≠ some a := by rintro ⟨⟩
  have hnil {x : SlabNode κ} : x ∉ [] := List.not_mem_nil
  have hrings : Rings (Links.isolated : Links (SlabNode κ)) ListKey.head fun _ => [] := by
    refine ⟨fun k => ⟨by simp, rfl, rfl⟩, fun j k hjk => ?_⟩
    rcases j with - | ⟨c, - | -⟩ <;> rcases k with - | ⟨d, - | -⟩ <;> simp_all [ListKey.head]
  have hcore : CoreInv (SlabState.boot mem : SlabState κ) [] fun _ => [] :=
    ⟨⟨fun h => absurd h hshape, fun h => absurd h hshape, fun h => absurd h hshape,
        fun h => absurd h hshape, fun h => absurd h hpage⟩,
      ⟨fun h => absurd h hslab, fun h => absurd h hslab, fun h => absurd h hslab,
        fun h => absurd h List.not_mem_nil⟩,
      ⟨hrings, fun h => absurd h hnil, fun h => absurd h hnil, fun h => absurd rfl h⟩,
      fun _ _ _ _ h => absurd h hnil⟩
  exact ⟨hcore, by rintro c n ⟨⟩, by simp, fun h => absurd rfl h, fun h => absurd h hshape,
    fun h => absurd rfl h, fun h => absurd h hshape⟩

section Run

variable [DecidableEq κ] {r r' : SlabRun κ} {L : ListKey κ → List (SlabNode κ)}

/-- Every call keeps the invariant, with the lists `L'` that the slabs of the caches are on
afterwards. -/
theorem SlabInv.step (hI : SlabInv r L) {a : SlabCall κ} (hs : SlabStep r a r') :
    ∃ L', SlabInv r' L' := by
  cases hs with
  | create hnew h9 h8192 hpages => exact ⟨_, hI.create hnew h9 h8192 hpages⟩
  | @alloc c cpuid pages o s hc hpages hok =>
    obtain ⟨res, hres, hcase⟩ := hI.kmemCacheAlloc_cases hc cpuid pages
    rw [hok] at hres
    cases hres
    exact hI.alloc hc hpages hcase
  | @free o s ho hok =>
    obtain ⟨a, ha⟩ := kmemCacheFree_ok hok
    obtain rfl := hI.core.owner_eq ho ha
    obtain ⟨sl, s', hsl, hkc, hs', hcase⟩ := hI.kmemCacheFree_cases ho ha
    rw [hok] at hs'
    cases hs'
    exact hI.free ho hsl hkc hcase
  | @kfree o s ho hok =>
    obtain ⟨a, ha⟩ := kfree_ok hok
    obtain rfl := hI.core.owner_eq ho ha
    obtain ⟨sl, s', hsl, hkc, hs', hcase⟩ := hI.kmemCacheFree_cases ho ha
    rw [← hI.kfree_eq ho ha, hok] at hs'
    cases hs'
    exact hI.free ho hsl hkc hcase
  | @store o x v ho hx hxo =>
    have hcore : CoreInv { r.st with mem := Function.update r.st.mem x v } r.out L :=
      ⟨hI.core.pagesInv.congr rfl rfl rfl, hI.core.stacksInv.store hI.core.pagesInv ho hx hxo,
        hI.core.listsInv.congr rfl rfl, hI.core.filledInv⟩
    exact ⟨L, hI.of_lists hcore rfl rfl⟩

/-- The invariant holds in every run of the callers, from the boot on, whichever caches they create
and whatever they allocate, free and store. -/
theorem slabInv_of_reachable (hr : Reachable SlabStart SlabStep r) : ∃ L, SlabInv r L := by
  refine hr.invariant (P := fun r => ∃ L, SlabInv r L) ?_ fun r a r' ⟨L, hI⟩ hs => hI.step hs
  rintro r ⟨mem, rfl⟩
  exact ⟨_, slabInv_boot mem⟩

end Run

end RiscvLab.Mm
