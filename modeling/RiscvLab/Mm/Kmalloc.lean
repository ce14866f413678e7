import Mathlib.Data.Fin.VecNotation
import RiscvLab.Mm.SlabOwner

/-!
# `kmalloc`

`kmalloc` serves a request from one of ten caches, whose objects have 16, 32, … , 8192 bytes. The
cache is the entry `calculate_order(size) - 4` of the table `kmalloc_caches`. For at most 8 bytes
the logarithm is below 4 and the unsigned difference wraps, so that the table is read far behind its
end. For more than 1024 bytes the objects are in blocks of several pages, and `kfree` does not find
the slab of all of them. For all other sizes `kmalloc` and `kfree` do what they should:
`kmallocContract_iff`.

The other caches of `kmalloc_init` are used and created along with the ten, as steps of a run.

## Main definitions

* `kmalloc`, `KmallocInit` : the functions.
* `KmallocRun`, `KmallocStep` : the runs of the kernel's allocator.
* `KmallocContract` : what `kmalloc` and `kfree` promise.

Source: `mm/kmalloc.c`; `lib/math.c`, lines 17–33.
-/

namespace RiscvLab.Mm

open Library

/-- The caches of `kmalloc.c`. -/
inductive KernelCache
  | kmalloc16
  | kmalloc32
  | kmalloc64
  | kmalloc128
  | kmalloc256
  | kmalloc512
  | kmalloc1024
  | kmalloc2048
  | kmalloc4096
  | kmalloc8192
  /-- One of the caches for the objects of one type. -/
  | dedicated (k : Fin 10)
  deriving DecidableEq

open KernelCache

/-- `kmalloc_caches`. -/
def kmallocCaches : Fin 10 → KernelCache :=
  ![kmalloc16, kmalloc32, kmalloc64, kmalloc128, kmalloc256, kmalloc512, kmalloc1024, kmalloc2048,
    kmalloc4096, kmalloc8192]

/-- The caches that `kmalloc_init` creates first, with the sizes of their objects. -/
def kmallocSizes : List (KernelCache × BitVec 16) :=
  [(kmalloc16, 16), (kmalloc32, 32), (kmalloc64, 64), (kmalloc128, 128), (kmalloc256, 256),
    (kmalloc512, 512), (kmalloc1024, 1024), (kmalloc2048, 2048), (kmalloc4096, 4096),
    (kmalloc8192, 8192)]

/-- `kmem_cache_create` for one cache after the other. -/
def Creates : List (KernelCache × BitVec 16) → SlabRun KernelCache → SlabRun KernelCache → Prop
  | [], r, r' => r' = r
  | (c, size) :: l, r, r' => ∃ r₁, SlabStep r (.create c size) r₁ ∧ Creates l r₁ r'

/-- `kmalloc_init`, up to the caches for the objects of one type. -/
def KmallocInit : SlabRun KernelCache → SlabRun KernelCache → Prop := Creates kmallocSizes

/-- `kmalloc` on the CPU `cpuid`; `none` is the null pointer. -/
def kmalloc (s : SlabState KernelCache) (size : BitVec 32) (cpuid : Fin ncpu) (pages : ℕ × ℕ) :
    Except Trap (Option (Obj KernelCache) × SlabState KernelCache) :=
  if size.toInt < 1 ∨ 8192 < size.toInt then .ok (none, s)
  else
    let order := calculateOrder size - 4
    if h : order.toNat < 10 then do
      let (obj, s) ← kmemCacheAlloc s (kmallocCaches ⟨order.toNat, h⟩) cpuid pages
      .ok (some obj, s)
    else .error .outOfBounds

/-! ### Runs -/

/-- The allocator, and the size that each block has been asked for with. -/
structure KmallocRun where
  slabs : SlabRun KernelCache
  asked : Obj KernelCache → ℕ

/-- The object was returned by `kmalloc`. -/
def IsBlock (o : Obj KernelCache) : Prop := ∃ i, o.cache = kmallocCaches i

inductive KmallocEvent
  | kmalloc (size : BitVec 32) (cpuid : Fin ncpu)
  | kfree (o : Obj KernelCache)
  | other (call : SlabCall KernelCache)

/-- The call is about a cache for the objects of one type, or stores into an object. -/
def SlabCall.IsDedicated : SlabCall KernelCache → Prop
  | .create c _ | .alloc c _ => ∃ k, c = dedicated k
  | .free o | .kfree o => ∃ k, o.cache = dedicated k
  | .store _ _ _ => True

/-- A call that returns a block, a call of `kfree`, or another call. -/
def KmallocStep (r : KmallocRun) (e : KmallocEvent) (r' : KmallocRun) : Prop :=
  match e with
  | .kmalloc size cpuid => ∃ pages o s, kmalloc r.slabs.st size cpuid pages = .ok (some o, s) ∧
      Fresh r.slabs.st (r.slabs.st.cache o.cache).order pages ∧
      r' = ⟨⟨s, r.slabs.sizes, o :: r.slabs.out⟩, Function.update r.asked o size.toNat⟩
  | .kfree o => IsBlock o ∧ ∃ slabs, SlabStep r.slabs (.kfree o) slabs ∧
      r' = { r with slabs := slabs }
  | .other call => call.IsDedicated ∧ ∃ slabs, SlabStep r.slabs call slabs ∧
      r' = { r with slabs := slabs }

/-- A run starts after `kmalloc_init`. -/
def KmallocStart (r : KmallocRun) : Prop := ∃ r₀, SlabStart r₀ ∧ KmallocInit r₀ r.slabs

/-- The sizes asked for are in `S`. -/
def Asks (S : Set ℕ) (_ : KmallocRun) : KmallocEvent → Prop
  | .kmalloc size _ => size.toNat ∈ S
  | _ => True

/-- What `kmalloc` and `kfree` promise to callers who ask for sizes in `S`. -/
structure KmallocContract (S : Set ℕ) (r : KmallocRun) : Prop where
  /-- A block comes from an entry of the table, and is large enough. -/
  served : ∀ size cpuid pages, size.toNat ∈ S → ∃ i o s,
    kmalloc r.slabs.st size cpuid pages = .ok (some o, s) ∧ o.cache = kmallocCaches i ∧
      size.toNat ≤ (r.slabs.st.cache o.cache).size
  /-- An outstanding block is an object of its cache, and large enough. -/
  blocks : ∀ o ∈ r.slabs.out, IsBlock o → r.asked o ≤ (r.slabs.st.cache o.cache).size ∧
    ∃ sl, r.slabs.st.slab o.slab = some sl ∧ sl.kc = o.cache ∧ o.addr ∈ objects r.slabs.st sl
  /-- The outstanding blocks do not overlap. -/
  disjoint : r.slabs.out.Pairwise fun o o' => IsBlock o → IsBlock o' →
    Disjoint (Set.Ico o.addr (o.addr + r.asked o)) (Set.Ico o'.addr (o'.addr + r.asked o'))
  /-- `kfree` returns a block to the slab, and so to the cache, that it came from. -/
  freed : ∀ o ∈ r.slabs.out, IsBlock o → OwnerFound r.slabs o

/-! ### The table -/

/-- The index is computed in 32 bits and wraps for at most 8 bytes. -/
private theorem toNat_calculateOrder_sub {size : BitVec 32} (h1 : 1 ≤ size.toNat) :
    (calculateOrder size - 4).toNat = (2 ^ 32 - 4 + Nat.clog 2 size.toNat) % 2 ^ 32 := by
  rw [BitVec.toNat_sub, calculateOrder_toNat h1]
  rfl

theorem kmalloc_eq (s : SlabState KernelCache) {size : BitVec 32} (cpuid : Fin ncpu)
    (pages : ℕ × ℕ) (h9 : 9 ≤ size.toNat) (h8192 : size.toNat ≤ 8192) :
    ∃ i : Fin 10, i = Nat.clog 2 size.toNat - 4 ∧
      kmalloc s size cpuid pages = (do
        let (obj, s) ← kmemCacheAlloc s (kmallocCaches i) cpuid pages
        .ok (some obj, s)) := by
  have hlow : 4 ≤ Nat.clog 2 size.toNat :=
    (Nat.lt_clog_iff_pow_lt (by decide)).mpr (show 2 ^ 3 < size.toNat by omega)
  have hhigh : Nat.clog 2 size.toNat ≤ 13 :=
    Nat.clog_le_of_le_pow (show size.toNat ≤ 2 ^ 13 by omega)
  have hint : size.toInt = size.toNat := BitVec.toInt_eq_toNat_of_lt (by omega)
  have horder : (calculateOrder size - 4).toNat = Nat.clog 2 size.toNat - 4 := by
    rw [toNat_calculateOrder_sub (by omega)]
    omega
  refine ⟨⟨(calculateOrder size - 4).toNat, by omega⟩, horder, ?_⟩
  rw [kmalloc, if_neg (by omega)]
  exact dif_pos _

/-- At most 8 bytes: the index wraps. -/
theorem kmalloc_outOfBounds {s : SlabState KernelCache} {size : BitVec 32} {cpuid : Fin ncpu}
    {pages : ℕ × ℕ} (h1 : 1 ≤ size.toNat) (h8 : size.toNat ≤ 8) :
    kmalloc s size cpuid pages = .error .outOfBounds := by
  have hhigh : Nat.clog 2 size.toNat ≤ 3 :=
    Nat.clog_le_of_le_pow (show size.toNat ≤ 2 ^ 3 by omega)
  have hint : size.toInt = size.toNat := BitVec.toInt_eq_toNat_of_lt (by omega)
  have horder : 10 ≤ (calculateOrder size - 4).toNat := by
    rw [toNat_calculateOrder_sub h1]
    omega
  rw [kmalloc, if_neg (by omega)]
  exact dif_neg (by omega)

theorem mem_kmallocSizes (i : Fin 10) :
    (kmallocCaches i, BitVec.ofNat 16 (2 ^ (i + 4 : ℕ))) ∈ kmallocSizes := by
  revert i
  decide

theorem toNat_tableSize (i : Fin 10) :
    (BitVec.ofNat 16 (2 ^ (i + 4 : ℕ))).toNat = 2 ^ (i + 4 : ℕ) := by
  revert i
  decide

theorem not_isBlock {o : Obj KernelCache} {k : Fin 10} (h : o.cache = dedicated k) :
    ¬ IsBlock o := by
  rintro ⟨i, hi⟩
  have hne : ∀ k i, dedicated k ≠ kmallocCaches i := by decide
  exact hne k i (h.symm.trans hi)

/-! ### The invariant -/

section Invariant

variable {r r' : SlabRun KernelCache} {L : ListKey KernelCache → List (SlabNode KernelCache)}
  {e : SlabCall KernelCache}

theorem SlabStep.sizes_eq (hs : SlabStep r e r') {c : KernelCache} {n : BitVec 16}
    (hc : r.sizes c = some n) : r'.sizes c = some n := by
  cases hs with
  | @create d size pages hnew h9 h8192 hpages =>
    have hne : c ≠ d := by
      rintro rfl
      rw [hnew] at hc
      cases hc
    exact (Function.update_of_ne hne _ _).trans hc
  | alloc => exact hc
  | free => exact hc
  | kfree => exact hc
  | store => exact hc

theorem Creates.spec {l : List (KernelCache × BitVec 16)} (h : Creates l r r')
    (hr : Reachable SlabStart SlabStep r) :
    Reachable SlabStart SlabStep r' ∧ r'.out = r.out ∧
      (∀ c n, r.sizes c = some n → r'.sizes c = some n) ∧ ∀ x ∈ l, r'.sizes x.1 = some x.2 := by
  induction l generalizing r with
  | nil =>
    obtain rfl : r' = r := h
    exact ⟨hr, rfl, fun _ _ h => h, by simp⟩
  | cons x l ih =>
    obtain ⟨r₁, hstep, h⟩ := h
    obtain ⟨hreach, hout, hkeep, hnew⟩ := ih h (.next hr hstep)
    refine ⟨hreach, ?_, fun c n hc => hkeep c n (hstep.sizes_eq hc), fun y hy => ?_⟩
    · rw [hout]
      cases hstep
      rfl
    · rcases List.mem_cons.1 hy with rfl | hy
      · refine hkeep _ _ ?_
        cases hstep
        exact Function.update_self ..
      · exact hnew y hy

omit e r' in
/-- The objects of the caches in the table have the sizes 16 to 8192. -/
theorem SlabInv.size_eq (hI : SlabInv r L) {i : Fin 10}
    (hi : r.sizes (kmallocCaches i) = some (BitVec.ofNat 16 (2 ^ (i + 4 : ℕ)))) :
    (r.st.cache (kmallocCaches i)).size = 2 ^ (i + 4 : ℕ) := by
  obtain ⟨h9, h8192, hcache⟩ := hI.size hi
  rw [hcache, ofSize_size _ (by omega) (by omega), toNat_tableSize, Nat.clog_pow 2 _ (by decide)]

/-- What every step keeps when the sizes asked for are from 9 to `2 ^ top`. -/
structure KmallocInv (top : ℕ) (r : KmallocRun)
    (L : ListKey KernelCache → List (SlabNode KernelCache)) : Prop where
  slabs : SlabInv r.slabs L
  sizes : ∀ i, r.slabs.sizes (kmallocCaches i) = some (BitVec.ofNat 16 (2 ^ (i + 4 : ℕ)))
  asked : ∀ o ∈ r.slabs.out, IsBlock o → ∃ i : Fin 10, o.cache = kmallocCaches i ∧ i + 4 ≤ top ∧
    r.asked o ≤ 2 ^ (i + 4 : ℕ)

namespace KmallocInv

variable {r r' : KmallocRun} {S : Set ℕ} {top : ℕ}

omit L in
theorem start (h : KmallocStart r) : r.slabs.out = [] ∧ ∃ L, KmallocInv top r L := by
  obtain ⟨r₀, ⟨mem, rfl⟩, hinit⟩ := h
  obtain ⟨hreach, hout, -, hsizes⟩ := hinit.spec (.start ⟨mem, rfl⟩)
  obtain ⟨L, hI⟩ := slabInv_of_reachable hreach
  refine ⟨hout, L, hI, fun i => hsizes _ (mem_kmallocSizes i), fun o ho => ?_⟩
  rw [hout] at ho
  cases ho

/-- A call with a size from 9 to 8192 is served from the table. -/
theorem served (hI : KmallocInv top r L) {size : BitVec 32} (h9 : 9 ≤ size.toNat)
    (h8192 : size.toNat ≤ 8192) (cpuid : Fin ncpu) (pages : ℕ × ℕ) :
    ∃ (i : Fin 10) (o : Obj KernelCache) (s : SlabState KernelCache),
      kmalloc r.slabs.st size cpuid pages = .ok (some o, s) ∧
      kmemCacheAlloc r.slabs.st o.cache cpuid pages = .ok (o, s) ∧ o.cache = kmallocCaches i ∧
      (i : ℕ) = Nat.clog 2 size.toNat - 4 ∧ size.toNat ≤ 2 ^ (i + 4 : ℕ) := by
  obtain ⟨i, hi, heq⟩ := kmalloc_eq r.slabs.st cpuid pages h9 h8192
  obtain ⟨⟨o, s⟩, hok, hcase⟩ :=
    hI.slabs.kmemCacheAlloc_cases (c := kmallocCaches i) (by simp [hI.sizes]) cpuid pages
  have hcache : o.cache = kmallocCaches i := by cases hcase <;> rfl
  have hle : size.toNat ≤ 2 ^ (i + 4 : ℕ) := by
    refine (Nat.le_pow_clog (b := 2) (by decide) size.toNat).trans
      (Nat.pow_le_pow_right (by decide) ?_)
    omega
  refine ⟨i, o, s, ?_, by rw [hcache, hok], hcache, hi, hle⟩
  rw [heq, hok]
  rfl

theorem step (htop : top ≤ 13) (hS : S ⊆ Set.Icc 9 (2 ^ top)) (hI : KmallocInv top r L)
    {e : KmallocEvent} (hs : guarded (Asks S) KmallocStep r e r') : ∃ L', KmallocInv top r' L' := by
  obtain ⟨hask, hs⟩ := hs
  cases e with
  | kmalloc size cpuid =>
    obtain ⟨h9, hle₂⟩ := hS hask
    have h8192 : 2 ^ top ≤ 2 ^ 13 := Nat.pow_le_pow_right (by decide) htop
    obtain ⟨pages, o, s, hok, hfresh, rfl⟩ := hs
    obtain ⟨i, o', s', hok', halloc, hcache, hi, hle⟩ := hI.served h9 (by omega) cpuid pages
    obtain ⟨rfl, rfl⟩ : o = o' ∧ s = s' := by simpa [hok] using hok'
    have hstep : SlabStep r.slabs (.alloc o.cache cpuid) ⟨s, r.slabs.sizes, o :: r.slabs.out⟩ :=
      .alloc (by simp [hcache, hI.sizes]) hfresh halloc
    obtain ⟨L', hI'⟩ := hI.slabs.step hstep
    have hlow : 4 ≤ Nat.clog 2 size.toNat :=
      (Nat.lt_clog_iff_pow_lt (by decide)).mpr (show 2 ^ 3 < size.toNat by omega)
    have hclog : Nat.clog 2 size.toNat ≤ top := Nat.clog_le_of_le_pow hle₂
    refine ⟨L', hI', hI.sizes, fun x hx hblock => ?_⟩
    by_cases hxo : x = o
    · subst hxo
      exact ⟨i, hcache, by omega, by simpa using hle⟩
    · obtain ⟨j, hj⟩ := hI.asked x ((List.mem_cons.1 hx).resolve_left hxo) hblock
      exact ⟨j, by simpa [hxo] using hj⟩
  | kfree o =>
    obtain ⟨-, slabs, hs, rfl⟩ := hs
    obtain ⟨L', hI'⟩ := hI.slabs.step hs
    refine ⟨L', hI', fun i => hs.sizes_eq (hI.sizes i), fun x hx => hI.asked x ?_⟩
    cases hs
    exact List.mem_of_mem_erase hx
  | other call =>
    obtain ⟨hded, slabs, hs, rfl⟩ := hs
    obtain ⟨L', hI'⟩ := hI.slabs.step hs
    refine ⟨L', hI', fun i => hs.sizes_eq (hI.sizes i), fun x hx hblock => ?_⟩
    refine hI.asked x ?_ hblock
    cases hs with
    | create => exact hx
    | @alloc c cpuid pages o s hc hpages hok =>
      obtain ⟨k, rfl⟩ := hded
      obtain ⟨res, hok', hcase⟩ := hI.slabs.kmemCacheAlloc_cases hc cpuid pages
      obtain rfl : (o, s) = res := by simpa [hok] using hok'
      have hcache : o.cache = dedicated k := by cases hcase <;> rfl
      refine (List.mem_cons.1 hx).resolve_left ?_
      rintro rfl
      exact not_isBlock hcache hblock
    | free => exact List.mem_of_mem_erase hx
    | kfree => exact List.mem_of_mem_erase hx
    | store => exact hx

omit top in
theorem contract (hS : S ⊆ Set.Icc 9 1024) (hI : KmallocInv 10 r L) : KmallocContract S r where
  served size cpuid pages hsize := by
    obtain ⟨h9, h1024⟩ := hS hsize
    obtain ⟨i, o, s, hok, -, hcache, -, hle⟩ := hI.served h9 (by omega) cpuid pages
    refine ⟨i, o, s, hok, hcache, ?_⟩
    rw [hcache, hI.slabs.size_eq (hI.sizes i)]
    exact hle
  blocks o ho hblock := by
    obtain ⟨i, hcache, -, hle⟩ := hI.asked o ho hblock
    obtain ⟨p, hp⟩ := hI.slabs.core.stacksInv.issued ho
    obtain ⟨sl, hsl, hkc, -⟩ := slab_of_shape hp
    refine ⟨?_, sl, hsl, hkc, hI.slabs.core.stacksInv.mem_objects_of_mem ho hsl⟩
    rw [hcache, hI.slabs.size_eq (hI.sizes i)]
    exact hle
  disjoint := by
    refine hI.slabs.core.disjoint.imp_of_mem fun {o o'} ho ho' hdis hblock hblock' => ?_
    obtain ⟨i, hcache, -, hle⟩ := hI.asked o ho hblock
    obtain ⟨j, hcache', -, hle'⟩ := hI.asked o' ho' hblock'
    rw [hcache, hcache', hI.slabs.size_eq (hI.sizes i), hI.slabs.size_eq (hI.sizes j)] at hdis
    exact hdis.mono (Set.Ico_subset_Ico_right (by omega)) (Set.Ico_subset_Ico_right (by omega))
  freed o ho hblock := by
    obtain ⟨i, hcache, hi, -⟩ := hI.asked o ho hblock
    have hn := hI.sizes i
    rw [← hcache] at hn
    have hle : (BitVec.ofNat 16 (2 ^ (i + 4 : ℕ))).toNat ≤ 1024 := by
      rw [toNat_tableSize]
      exact Nat.pow_le_pow_right (n := 2) (by decide) (show _ ≤ 10 by omega)
    exact hI.slabs.ownerFound ho (hI.slabs.owner_of_order_zero ho (hI.slabs.order_eq_zero hn hle))

theorem of_reachable (htop : top ≤ 13) (hS : S ⊆ Set.Icc 9 (2 ^ top))
    (hr : Reachable KmallocStart (guarded (Asks S) KmallocStep) r) : ∃ L, KmallocInv top r L :=
  hr.invariant (P := fun r => ∃ L, KmallocInv top r L) (fun _ h => (start h).2)
    fun _ _ _ ⟨_, hI⟩ hs => hI.step htop hS hs

end KmallocInv

end Invariant

/-! ### A start, and runs on one CPU -/

section Concrete

variable {s : SlabState KernelCache} {m order : ℕ}

/-- The slabs and their blocks lie below the page `m`. -/
def UsesBelow (s : SlabState KernelCache) (m : ℕ) : Prop :=
  ∀ a sl, s.slab a = some sl →
    ∀ i ∈ footprint a (getPageStruct sl.objs) (s.cache sl.kc).order, i < m

theorem UsesBelow.fresh (h : UsesBelow s m) (ho : order ≤ 3) {k : ℕ} (hk : m ≤ k)
    (hk' : k + 9 ≤ allPfn) : Fresh s order (k, k + 1) := by
  have hpow : 2 ^ order ≤ 2 ^ 3 := Nat.pow_le_pow_right (by decide) ho
  refine ⟨by simp, fun i hi => ?_⟩
  rw [mem_footprint] at hi
  exact ⟨by omega, fun a sl ha hmem => absurd (h a sl ha i hmem) (by omega)⟩

theorem UsesBelow.slabCreate (h : UsesBelow s m) {c : KernelCache} {a p : ℕ}
    (hlt : ∀ i ∈ footprint a p (s.cache c).order, i < m) : UsesBelow (slabCreate s c a p) m := by
  intro b sl hb i hi
  by_cases hba : b = a
  · subst hba
    obtain rfl : newSlab c (b, p) = sl := by simpa [Mm.slabCreate, newSlab] using hb
    rw [newSlab, getPageStruct_getPageAddr] at hi
    exact hlt i hi
  · exact h b sl (by simpa [Mm.slabCreate, hba] using hb) i hi

/-- Pages for the slabs of a cache, from the page `m` on. -/
def pagesFrom (m : ℕ) (i : Fin ncpu) : ℕ × ℕ := (m + 16 * i, m + 16 * i + 1)

theorem mem_pagesFrom (ho : order ≤ 3) {i : Fin ncpu} {x : ℕ}
    (hx : x ∈ footprint (pagesFrom m i).1 (pagesFrom m i).2 order) :
    m + 16 * i ≤ x ∧ x < m + 16 * i + 16 := by
  have hpow : 2 ^ order ≤ 2 ^ 3 := Nat.pow_le_pow_right (by decide) ho
  rw [mem_footprint] at hx
  simp only [pagesFrom] at hx
  omega

theorem UsesBelow.freshAll (h : UsesBelow s m) (ho : order ≤ 3) (hm : m + 64 ≤ allPfn) :
    FreshAll s order (pagesFrom m) := by
  refine ⟨fun i => ?_, fun i j hij => ?_⟩
  · have hi : (i : ℕ) < 4 := i.isLt
    exact h.fresh ho (by omega) (by omega)
  · rw [Set.disjoint_left]
    intro x hx hx'
    have h₁ := mem_pagesFrom ho hx
    have h₂ := mem_pagesFrom ho hx'
    exact hij (Fin.ext (by omega))

/-- The record of a cache that has no slabs yet is set up. -/
theorem UsesBelow.setup (h : UsesBelow s m) {c : KernelCache} (hc : ∀ a p, s.shape a ≠ some (c, p))
    (k : KmemCache) : UsesBelow (kmemCacheSetup s c k) m := by
  intro a sl ha i hi
  have ha' : s.slab a = some sl := ha
  have hne : sl.kc ≠ c := fun e => hc a sl.objs (e ▸ shape_of_slab ha')
  have hcache : (kmemCacheSetup s c k).cache sl.kc = s.cache sl.kc := Function.update_of_ne hne _ _
  rw [hcache] at hi
  exact h a sl ha' i hi

theorem UsesBelow.cpuInit {c : KernelCache} (l : List (Fin ncpu)) (h : UsesBelow s (m + 64))
    (ho : (s.cache c).order ≤ 3) :
    UsesBelow (l.foldl (fun s i => Mm.slabCreate s c (pagesFrom m i).1 (pagesFrom m i).2) s)
      (m + 64) := by
  induction l generalizing s with
  | nil => exact h
  | cons i l ih =>
    refine ih (h.slabCreate fun x hx => ?_) ho
    have := mem_pagesFrom ho hx
    have hi : (i : ℕ) < 4 := i.isLt
    omega

theorem UsesBelow.create (h : UsesBelow s m) {c : KernelCache} {size : BitVec 16}
    (hc : ∀ a p, s.shape a ≠ some (c, p)) (ho : calcSlabOrder size ≤ 3) :
    UsesBelow (kmemCacheCreate s c size (pagesFrom m)) (m + 64) := by
  have hcache : ∀ k, (kmemCacheSetup s c k).cache c = k := fun k => Function.update_self ..
  have hsetup : UsesBelow (kmemCacheSetup s c (.ofSize size fun i => (pagesFrom m i).1)) (m + 64) :=
    fun a sl ha i hi => (h.setup hc _ a sl ha i hi).trans_le (Nat.le_add_right m 64)
  have hcpu := hsetup.cpuInit (List.finRange ncpu) (c := c) (by rw [hcache]; exact ho)
  exact fun a sl ha => hcpu a sl ha

theorem exists_creates {l : List (KernelCache × BitVec 16)} {r : SlabRun KernelCache}
    (hr : Reachable SlabStart SlabStep r) (hbelow : UsesBelow r.st m)
    (hsize : ∀ x ∈ l, 9 ≤ x.2.toNat ∧ x.2.toNat ≤ 8192) (hnew : ∀ x ∈ l, r.sizes x.1 = none)
    (hnodup : (l.map Prod.fst).Nodup) (hm : m + 64 * l.length ≤ allPfn) :
    ∃ r', Creates l r r' ∧ UsesBelow r'.st (m + 64 * l.length) := by
  induction l generalizing r m with
  | nil => exact ⟨r, rfl, by simpa using hbelow⟩
  | cons x l ih =>
    obtain ⟨c, size⟩ := x
    obtain ⟨h9, h8192⟩ := hsize _ List.mem_cons_self
    have hc := hnew _ List.mem_cons_self
    rw [List.length_cons] at hm
    rw [List.map_cons, List.nodup_cons] at hnodup
    have ho : calcSlabOrder size ≤ 3 := by
      have := Nat.clog_le_of_le_pow (show size.toNat ≤ 2 ^ 13 by omega)
      rw [calcSlabOrder_eq]
      omega
    have hstep := SlabStep.create hc h9 h8192 (hbelow.freshAll ho (by omega))
    obtain ⟨L, hI⟩ := slabInv_of_reachable hr
    have hnew' : ∀ y ∈ l, Function.update r.sizes c (some size) y.1 = none := fun y hy => by
      have hne : y.1 ≠ c := fun e => hnodup.1 (List.mem_map.2 ⟨y, hy, e⟩)
      exact (Function.update_of_ne hne _ _).trans (hnew y (List.mem_cons_of_mem _ hy))
    obtain ⟨r', hr', hbelow'⟩ := ih (.next hr hstep)
      (hbelow.create (fun a p h => hI.created h hc) ho)
      (fun y hy => hsize y (List.mem_cons_of_mem _ hy)) hnew' hnodup.2 (by omega)
    refine ⟨r', ⟨_, hstep, hr'⟩, ?_⟩
    rw [List.length_cons, Nat.mul_succ, Nat.add_comm _ 64, ← Nat.add_assoc]
    exact hbelow'

theorem exists_kmallocStart : ∃ r : KmallocRun, KmallocStart r ∧ UsesBelow r.slabs.st 640 := by
  let r₀ : SlabRun KernelCache := ⟨.boot fun _ => 0, fun _ => none, []⟩
  have hr₀ : SlabStart r₀ := ⟨fun _ => 0, rfl⟩
  obtain ⟨slabs, hinit, hbelow⟩ := exists_creates (m := 0) (l := kmallocSizes) (.start hr₀)
    (fun a sl ha => by cases ha) (by decide) (fun _ _ => rfl) (by decide) (by decide)
  exact ⟨⟨slabs, fun _ => 0⟩, ⟨r₀, hr₀, hinit⟩, hbelow⟩

theorem UsesBelow.congr (h : UsesBelow s m) {s' : SlabState KernelCache} (hc : s'.cache = s.cache)
    (hs : s'.shape = s.shape) : UsesBelow s' m := by
  intro a sl ha i hi
  have hshape := shape_of_slab ha
  rw [hs] at hshape
  obtain ⟨sl', hsl', hkc, hobjs⟩ := slab_of_shape hshape
  rw [hc, ← hkc, ← hobjs] at hi
  exact h a sl' hsl' i hi

/-- One CPU takes the objects of its slab, in blocks of one size. -/
theorem exists_kmalloc_inuse {size : BitVec 32} (h9 : 9 ≤ size.toNat) (h8192 : size.toNat ≤ 8192)
    (cpuid : Fin ncpu) {i : Fin 10} (hi : (i : ℕ) = Nat.clog 2 size.toNat - 4) {k : ℕ}
    (hk : k ≤ (KmemCache.ofSize (BitVec.ofNat 16 (2 ^ (i + 4 : ℕ))) fun _ => 0).countPerSlab) :
    ∃ r, Reachable KmallocStart (guarded (Asks {size.toNat}) KmallocStep) r ∧
      UsesBelow r.slabs.st 640 ∧
      ∃ sl, r.slabs.st.slab ((r.slabs.st.cache (kmallocCaches i)).cacheCpu cpuid) = some sl ∧
        sl.kc = kmallocCaches i ∧ sl.inuse = k := by
  induction k with
  | zero =>
    obtain ⟨r, hr, hbelow⟩ := exists_kmallocStart
    obtain ⟨hout, L, hI⟩ : r.slabs.out = [] ∧ ∃ L, KmallocInv 13 r L := KmallocInv.start hr
    obtain ⟨p, hp⟩ := (hI.slabs.cpu (c := kmallocCaches i) (by simp [hI.sizes]) cpuid).1
    obtain ⟨sl, hsl, hkc, -⟩ := slab_of_shape hp
    refine ⟨r, .start hr, hbelow, sl, hsl, hkc, ?_⟩
    rw [← hI.slabs.core.stacksInv.length_held hsl, hout]
    rfl
  | succ k ih =>
    obtain ⟨r, hr, hbelow, sl, hsl, hkc, hin⟩ := ih (Nat.le_of_succ_le hk)
    have hS : ({size.toNat} : Set ℕ) ⊆ Set.Icc 9 (2 ^ 13) :=
      Set.singleton_subset_iff.2 ⟨h9, h8192⟩
    obtain ⟨L, hI⟩ := KmallocInv.of_reachable le_rfl hS hr
    obtain ⟨-, -, hcache⟩ := hI.slabs.size (hI.sizes i)
    have hlt : sl.inuse < (r.slabs.st.cache (kmallocCaches i)).countPerSlab := by
      rw [hin, hcache]
      exact hk
    have hok := hI.slabs.kmemCacheAlloc_cpu (by simp [hI.sizes]) cpuid (640, 640 + 1) hsl hkc hlt
    obtain ⟨j, hj, heq⟩ :=
      kmalloc_eq r.slabs.st cpuid (640, 640 + 1) h9 h8192
    obtain rfl : i = j := Fin.ext (hi.trans hj.symm)
    have horder : (r.slabs.st.cache (kmallocCaches i)).order ≤ 3 := by
      have hlt := i.isLt
      rw [hcache, show ∀ n cpu, (KmemCache.ofSize n cpu).order = calcSlabOrder n from
        fun _ _ => rfl, calcSlabOrder_eq, toNat_tableSize, Nat.clog_pow 2 _ (by decide)]
      omega
    have hfresh : Fresh r.slabs.st (r.slabs.st.cache (kmallocCaches i)).order (640, 640 + 1) :=
      hbelow.fresh horder le_rfl (by decide)
    rw [hok] at heq
    refine ⟨_, .next (a := .kmalloc size cpuid) hr ⟨rfl, _, _, _, heq, hfresh, rfl⟩, ?_, ?_⟩
    · exact hbelow.congr rfl (shape_update hsl _ _)
    · exact ⟨{ sl with inuse := sl.inuse + 1, freeList := sl.freeList + 8 }, by simp [popState],
        hkc,
        by simp [hin]⟩

/-- More than 1024 bytes: there is a block that `kfree` does not return. -/
theorem exists_kfree_fails {size : BitVec 32} (h1024 : 1024 < size.toNat)
    (h8192 : size.toNat ≤ 8192) :
    ∃ r, Reachable KmallocStart (guarded (Asks {size.toNat}) KmallocStep) r ∧
      ∃ o ∈ r.slabs.out, IsBlock o ∧ ¬ OwnerFound r.slabs o := by
  have hlow : 10 < Nat.clog 2 size.toNat := (Nat.lt_clog_iff_pow_lt (by decide)).mpr h1024
  have hhigh : Nat.clog 2 size.toNat ≤ 13 :=
    Nat.clog_le_of_le_pow (show size.toNat ≤ 2 ^ 13 by omega)
  let i : Fin 10 := ⟨Nat.clog 2 size.toNat - 4, by omega⟩
  obtain ⟨r, hr, -, sl, hsl, hkc, hin⟩ :=
    exists_kmalloc_inuse (by omega) h8192 ⟨0, by decide⟩ (i := i) rfl le_rfl
  have hS : ({size.toNat} : Set ℕ) ⊆ Set.Icc 9 (2 ^ 13) :=
    Set.singleton_subset_iff.2 ⟨by omega, h8192⟩
  obtain ⟨L, hI⟩ := KmallocInv.of_reachable le_rfl hS hr
  obtain ⟨-, -, hcache⟩ := hI.slabs.size (hI.sizes i)
  have hlarge : 1024 < (BitVec.ofNat 16 (2 ^ (i + 4 : ℕ))).toNat := by
    rw [toNat_tableSize]
    exact Nat.pow_lt_pow_right (a := 2) (by decide) (show 10 < (i : ℕ) + 4 by simp only [i]; omega)
  have hfull : sl.inuse = (r.slabs.st.cache (kmallocCaches i)).countPerSlab := by
    rw [hin, hcache]
    rfl
  obtain ⟨o, ho, hoc, hnot⟩ := hI.slabs.exists_not_ownerFound (hI.sizes i) hlarge hsl hkc hfull
  exact ⟨r, hr, o, ho, ⟨i, hoc⟩, hnot⟩

end Concrete

/-! ### Every run -/

/-- The contract holds in every state of every run in which only sizes in `S` are asked for, if and
only if these are from 9 to 1024. -/
theorem kmallocContract_iff {S : Set ℕ} (hS : S ⊆ Set.Icc 1 8192) :
    (∀ r, Reachable KmallocStart (guarded (Asks S) KmallocStep) r → KmallocContract S r) ↔
      S ⊆ Set.Icc 9 1024 := by
  constructor
  · intro hall n hn
    obtain ⟨h1, h8192⟩ := hS hn
    have htoNat : (BitVec.ofNat 32 n).toNat = n := by
      rw [BitVec.toNat_ofNat, Nat.mod_eq_of_lt (by omega)]
    by_contra hout
    rw [Set.mem_Icc, not_and_or, not_le, not_le] at hout
    rcases hout with hlow | hhigh
    · -- the first call of a run fails
      obtain ⟨r, hr, -⟩ := exists_kmallocStart
      obtain ⟨i, o, s, hok, -⟩ := (hall r (.start hr)).served (BitVec.ofNat 32 n) ⟨0, by decide⟩
        (0, 0) (by rwa [htoNat])
      rw [kmalloc_outOfBounds (by omega) (by omega)] at hok
      cases hok
    · obtain ⟨r, hr, o, ho, hblock, hnot⟩ :=
        @exists_kfree_fails (BitVec.ofNat 32 n) (by omega) (by omega)
      refine hnot ((hall r (hr.mono fun r e r' hs => ⟨?_, hs.2⟩)).freed o ho hblock)
      have hask := hs.1
      cases e with
      | kmalloc size cpuid =>
        have heq : size.toNat = n := by
          rw [← htoNat]
          exact hask
        exact (heq ▸ hn : size.toNat ∈ S)
      | kfree | other => trivial
  · intro hS' r hr
    obtain ⟨L, hI⟩ : ∃ L, KmallocInv 10 r L := KmallocInv.of_reachable (by decide) hS' hr
    exact hI.contract hS'

/-- Blocks of 100 bytes. -/
theorem kmallocContract_100 : ∃ r, KmallocStart r ∧ KmallocContract {100} r := by
  obtain ⟨r, hr, -⟩ := exists_kmallocStart
  exact ⟨r, hr, (kmallocContract_iff (S := {100}) (by simp)).2 (by simp) r (.start hr)⟩

/-- One byte: the table is read outside its bounds. Blocks of 2048 bytes: one of them is not
returned to its slab. -/
theorem exists_kmalloc_fails :
    (∃ r, KmallocStart r ∧ ∀ cpuid pages, kmalloc r.slabs.st 1 cpuid pages = .error .outOfBounds) ∧
      ∃ r, Reachable KmallocStart (guarded (Asks {2048}) KmallocStep) r ∧
        ∃ o ∈ r.slabs.out, IsBlock o ∧ ¬ OwnerFound r.slabs o := by
  obtain ⟨r, hr, -⟩ := exists_kmallocStart
  exact ⟨⟨r, hr, fun _ _ => kmalloc_outOfBounds (by decide) (by decide)⟩,
    @exists_kfree_fails 2048 (by decide) (by decide)⟩

end RiscvLab.Mm
