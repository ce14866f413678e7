import RiscvLab.Mm.SlabSteps

/-!
# The contract of the slab allocator

In every state of every run the outstanding objects are disjoint parts of the blocks of their
caches, every slab accounts for its objects, and the two lists of a cache hold the slabs that have
room and those that have none: `slabContract_of_reachable`.

Source: `mm/slab.c`, lines 20–56, 96–119, 145–162, 194–275.
-/

namespace RiscvLab.Mm

open Library

variable {κ : Type}

/-- What the allocator promises between two calls. -/
structure SlabContract [DecidableEq κ] (r : SlabRun κ) : Prop where
  /-- The outstanding objects do not overlap. -/
  disjoint : r.out.Pairwise fun o o' =>
    Disjoint (Set.Ico o.addr (o.addr + (r.st.cache o.cache).size))
      (Set.Ico o'.addr (o'.addr + (r.st.cache o'.cache).size))
  /-- An outstanding object lies in the block of a slab of its cache. -/
  inside : ∀ o ∈ r.out, ∃ sl, r.st.slab o.slab = some sl ∧ sl.kc = o.cache ∧
    sl.objs ≤ o.addr ∧ o.addr + (r.st.cache o.cache).size ≤
      sl.objs + 2 ^ (r.st.cache o.cache).order * pgSize
  /-- `inuse` counts the outstanding objects of a slab. -/
  inuse : ∀ a sl, r.st.slab a = some sl → sl.inuse = (held r.out a).length
  /-- The stack from position `inuse` on holds the free objects of a slab, each one once. -/
  free : ∀ a sl, r.st.slab a = some sl → sl.freeList = entryAddr a sl.inuse ∧
    (stack r.st a sl).Nodup ∧ ∀ x, x ∈ stack r.st a sl ↔ x ∈ objects r.st sl ∧ x ∉ held r.out a
  /-- The slabs of `part_slabs` have room. -/
  part : ∀ c x, OnRing r.st.links (.partSlabs c) x → ∃ a sl, x = .slabList a ∧
    r.st.slab a = some sl ∧ sl.kc = c ∧ sl.inuse < (r.st.cache c).countPerSlab
  /-- The slabs of `full_slabs` have none. -/
  full : ∀ c x, OnRing r.st.links (.fullSlabs c) x → ∃ a sl, x = .slabList a ∧
    r.st.slab a = some sl ∧ sl.kc = c ∧ sl.inuse = (r.st.cache c).countPerSlab
  /-- No slab is on both lists. -/
  apart : ∀ c d x, ¬ (OnRing r.st.links (.partSlabs c) x ∧ OnRing r.st.links (.fullSlabs d) x)
  /-- Every allocation is served. -/
  allocs : ∀ c cpuid pages, r.sizes c ≠ none → ∃ res, kmemCacheAlloc r.st c cpuid pages = .ok res
  /-- The blocks of small objects are single pages, and every free of such an object is served. -/
  frees : ∀ c n, r.sizes c = some n → n.toNat ≤ 1024 → (r.st.cache c).order = 0 ∧
    ∀ o ∈ r.out, o.cache = c → ∃ s', kmemCacheFree r.st c o.addr = .ok s'

section Contract

variable {r : SlabRun κ} {L : ListKey κ → List (SlabNode κ)}

/-- The block of a single page: the back pointer of an object leads to its slab. -/
theorem SlabInv.owner_of_order_zero (hI : SlabInv r L) {o : Obj κ} (ho : o ∈ r.out)
    (horder : (r.st.cache o.cache).order = 0) :
    r.st.pageSlab (getPageStruct o.addr) = some o.slab := by
  obtain ⟨p, hp⟩ := hI.core.stacksInv.issued ho
  obtain ⟨sl, hsl, hkc, hobjs⟩ := slab_of_shape hp
  have hsize := (hI.core.pagesInv.geometry hp).size_pos
  have hpage := hI.core.pagesInv.object_page hsl (hI.core.stacksInv.mem_objects_of_mem ho hsl)
    le_rfl (by rw [hkc]; omega)
  rw [hkc, horder, Nat.pow_zero] at hpage
  rw [show getPageStruct o.addr = getPageStruct p by rw [← hobjs]; omega]
  exact hI.core.pagesInv.owner hp

theorem SlabInv.order_eq_zero (hI : SlabInv r L) {c : κ} {n : BitVec 16}
    (hn : r.sizes c = some n) (hle : n.toNat ≤ 1024) : (r.st.cache c).order = 0 := by
  rw [(hI.size hn).2.2]
  exact calcSlabOrder_eq_zero hle

private theorem disjoint_objects {s : SlabState κ} {sl : Slab κ} {x y : ℕ}
    (hx : x ∈ objects s sl) (hy : y ∈ objects s sl) (hxy : x ≠ y) :
    Disjoint (Set.Ico x (x + (s.cache sl.kc).size)) (Set.Ico y (y + (s.cache sl.kc).size)) := by
  obtain ⟨i, -, rfl⟩ := mem_objects.mp hx
  obtain ⟨j, -, rfl⟩ := mem_objects.mp hy
  have hij : i ≠ j := fun e => hxy (by rw [e])
  rw [Set.Ico_disjoint_Ico]
  rcases Nat.lt_or_gt_of_ne hij with h | h
  · have := Nat.mul_le_mul_right (s.cache sl.kc).size (Nat.succ_le_of_lt h)
    rw [Nat.succ_mul] at this
    omega
  · have := Nat.mul_le_mul_right (s.cache sl.kc).size (Nat.succ_le_of_lt h)
    rw [Nat.succ_mul] at this
    omega

/-- Outstanding objects of one slab have different addresses. -/
theorem CoreInv.addr_ne (hI : CoreInv r.st r.out L) :
    r.out.Pairwise fun o o' => o.slab = o'.slab → o.addr ≠ o'.addr := by
  rw [List.pairwise_iff_getElem]
  intro i j hi hj hij hs
  obtain ⟨p, hp⟩ := hI.stacksInv.issued (List.getElem_mem hi)
  obtain ⟨sl, hsl, -, -⟩ := slab_of_shape hp
  have hnd := (hI.stacksInv.perm hsl).nodup_iff.mpr
    (objects_nodup (hI.pagesInv.geometry (shape_of_slab hsl)))
  have hheld := (List.nodup_append.mp hnd).1
  rw [held, List.Nodup, List.pairwise_map, List.pairwise_filter] at hheld
  exact List.pairwise_iff_getElem.mp hheld i j hi hj hij (by simp) (by simp [hs])

theorem CoreInv.disjoint (hI : CoreInv r.st r.out L) : r.out.Pairwise fun o o' =>
    Disjoint (Set.Ico o.addr (o.addr + (r.st.cache o.cache).size))
      (Set.Ico o'.addr (o'.addr + (r.st.cache o'.cache).size)) := by
  refine hI.addr_ne.imp_of_mem fun {o o'} ho ho' hne => ?_
  obtain ⟨p, hp⟩ := hI.stacksInv.issued ho
  obtain ⟨p', hp'⟩ := hI.stacksInv.issued ho'
  obtain ⟨sl, hsl, hkc, rfl⟩ := slab_of_shape hp
  obtain ⟨sl', hsl', hkc', rfl⟩ := slab_of_shape hp'
  have hmem := hI.stacksInv.mem_objects_of_mem ho hsl
  have hmem' := hI.stacksInv.mem_objects_of_mem ho' hsl'
  by_cases hs : o.slab = o'.slab
  · rw [hs, hsl'] at hsl
    cases hsl
    rw [← hkc, ← hkc']
    exact disjoint_objects hmem hmem' (hne hs)
  · rw [Set.disjoint_left]
    rintro y ⟨hy, hyo⟩ ⟨hy', hyo'⟩
    have hpage := hI.pagesInv.object_page hsl hmem hy (hkc ▸ hyo)
    have hpage' := hI.pagesInv.object_page hsl' hmem' hy' (hkc' ▸ hyo')
    exact Set.disjoint_left.mp
      (hI.pagesInv.disjoint (shape_of_slab hsl) (shape_of_slab hsl') hs)
      (mem_footprint.mpr (Or.inr hpage)) (mem_footprint.mpr (Or.inr hpage'))

theorem CoreInv.onRing (hI : CoreInv r.st r.out L) {c : κ} {f : Bool} {x : SlabNode κ}
    (hx : OnRing r.st.links (ListKey.slabs c f).head x) : ∃ a sl, x = .slabList a ∧
      r.st.slab a = some sl ∧ sl.kc = c ∧ (f = false ↔ sl.inuse < (r.st.cache c).countPerSlab) := by
  have hmem := (hI.listsInv.rings.ring (.slabs c f)).onRing_iff.mp hx
  obtain ⟨a, p, rfl, hp⟩ := hI.listsInv.slabs hmem
  obtain ⟨sl, hsl, hkc, -⟩ := slab_of_shape hp
  exact ⟨a, sl, rfl, hsl, hkc, hI.filledInv c f a sl hmem hsl⟩

theorem SlabInv.contract [DecidableEq κ] (hI : SlabInv r L) : SlabContract r where
  disjoint := hI.core.disjoint
  inside o ho := by
    obtain ⟨p, hp⟩ := hI.core.stacksInv.issued ho
    obtain ⟨sl, hsl, hkc, -⟩ := slab_of_shape hp
    have hmem := hI.core.stacksInv.mem_objects_of_mem ho hsl
    rw [mem_objects, hkc] at hmem
    obtain ⟨i, hi, hoi⟩ := hmem
    refine ⟨sl, hsl, hkc, by omega, ?_⟩
    rw [hoi, ← (hI.core.pagesInv.geometry hp).count_mul, Nat.add_assoc, ← Nat.succ_mul]
    exact Nat.add_le_add_left (Nat.mul_le_mul_right _ hi) _
  inuse a sl hsl := (hI.core.stacksInv.length_held hsl).symm
  free a sl hsl := by
    have hperm := hI.core.stacksInv.perm hsl
    have hnd := hperm.nodup_iff.mpr (objects_nodup (hI.core.pagesInv.geometry (shape_of_slab hsl)))
    obtain ⟨-, hnds, hdis⟩ := List.nodup_append.mp hnd
    refine ⟨hI.core.stacksInv.top hsl, hnds, fun x => ⟨fun hx => ?_, fun hx => ?_⟩⟩
    · exact ⟨hperm.subset (List.mem_append_right _ hx), fun hx' => hdis x hx' x hx rfl⟩
    · exact (List.mem_append.mp (hperm.mem_iff.mpr hx.1)).resolve_left hx.2
  part c x hx := by
    obtain ⟨a, sl, rfl, hsl, hkc, hroom⟩ := hI.core.onRing (f := false) hx
    exact ⟨a, sl, rfl, hsl, hkc, hroom.1 rfl⟩
  full c x hx := by
    obtain ⟨a, sl, rfl, hsl, hkc, hroom⟩ := hI.core.onRing (f := true) hx
    have hle := hI.core.stacksInv.le hsl
    rw [hkc] at hle
    exact ⟨a, sl, rfl, hsl, hkc, hle.eq_of_not_lt fun h => by cases hroom.2 h⟩
  apart c d x := by
    rintro ⟨hp, hf⟩
    have := hI.core.listsInv.unique
      (((hI.core.listsInv.rings.ring (.slabs c false)).onRing_iff).mp hp)
      (((hI.core.listsInv.rings.ring (.slabs d true)).onRing_iff).mp hf)
    cases this
  allocs c cpuid pages hc := by
    obtain ⟨res, hres, -⟩ := hI.kmemCacheAlloc_cases hc cpuid pages
    exact ⟨res, hres⟩
  frees c n hn hle := by
    have horder := hI.order_eq_zero hn hle
    refine ⟨horder, fun o ho hoc => ?_⟩
    subst hoc
    obtain ⟨sl, s', -, -, hs', -⟩ := hI.kmemCacheFree_cases ho (hI.owner_of_order_zero ho horder)
    exact ⟨s', hs'⟩

end Contract

/-! ### A first run -/

/-- Pages for the slabs of a first cache. -/
def firstPages (i : Fin ncpu) : ℕ × ℕ := (16 * i, 16 * i + 1)

theorem fresh_boot {mem : ℕ → ℕ} {order : ℕ} {pages : ℕ × ℕ}
    (hapart : pages.1 ∉ Set.Ico pages.2 (pages.2 + 2 ^ order))
    (hmem : ∀ i ∈ footprint pages.1 pages.2 order, i < allPfn) :
    Fresh (.boot mem : SlabState κ) order pages :=
  ⟨hapart, fun i hi => ⟨hmem i hi, nofun⟩⟩

theorem Fresh.congr {s s' : SlabState κ} {order : ℕ} {q : ℕ × ℕ} (hf : Fresh s order q)
    (hc : s'.cache = s.cache) (hs : s'.shape = s.shape) : Fresh s' order q := by
  refine ⟨hf.1, fun x hx => ⟨(hf.2 x hx).1, fun a sl ha => ?_⟩⟩
  have hsh := shape_of_slab ha
  rw [hs] at hsh
  obtain ⟨sl', hsl', hkc, hobjs⟩ := slab_of_shape hsh
  rw [hc, ← hkc, ← hobjs]
  exact (hf.2 x hx).2 a sl' hsl'

theorem mem_firstPages {order : ℕ} (ho : order ≤ 3) {i : Fin ncpu} {x : ℕ}
    (hx : x ∈ footprint (firstPages i).1 (firstPages i).2 order) : x / 16 = i := by
  have hpow : 2 ^ order ≤ 2 ^ 3 := Nat.pow_le_pow_right (by decide) ho
  rw [mem_footprint] at hx
  simp only [firstPages] at hx
  omega

theorem freshAll_boot (mem : ℕ → ℕ) {order : ℕ} (ho : order ≤ 3) :
    FreshAll (.boot mem : SlabState κ) order firstPages := by
  refine ⟨fun i => fresh_boot ?_ fun x hx => ?_, fun i j hij => ?_⟩
  · simp only [firstPages, Set.mem_Ico]
    omega
  · have := mem_firstPages ho hx
    have := i.isLt
    simp only [ncpu, allPfn] at *
    omega
  · rw [Set.disjoint_left]
    intro x hx hx'
    exact hij (Fin.ext ((mem_firstPages ho hx).symm.trans (mem_firstPages ho hx')))

variable [DecidableEq κ]

/-- A run in which a cache has just been created. -/
def firstRun (c : κ) (n : BitVec 16) : SlabRun κ :=
  ⟨kmemCacheCreate (.boot fun _ => 0) c n firstPages,
    Function.update (fun _ => none) c (some n), []⟩

theorem reachable_firstRun (c : κ) {n : BitVec 16} (h9 : 9 ≤ n.toNat) (h8192 : n.toNat ≤ 8192) :
    Reachable SlabStart SlabStep (firstRun c n) := by
  have horder : calcSlabOrder n ≤ 3 := by
    have := Nat.clog_le_of_le_pow (show n.toNat ≤ 2 ^ 13 by omega)
    rw [calcSlabOrder_eq]
    omega
  exact .next (.start ⟨fun _ => 0, rfl⟩) (.create rfl h9 h8192 (freshAll_boot _ horder))

/-- Pages that are fresh after the creation of the first cache. -/
def laterPages : ℕ × ℕ := (100, 101)

private theorem disjoint_laterPages {order : ℕ} (ho : order ≤ 3) (i : Fin ncpu) :
    Disjoint (footprint (firstPages i).1 (firstPages i).2 order)
      (footprint laterPages.1 laterPages.2 order) := by
  rw [Set.disjoint_left]
  intro x hx hx'
  have := mem_firstPages ho hx
  have := i.isLt
  rw [mem_footprint] at hx'
  simp only [laterPages, ncpu] at *
  omega

theorem Fresh.cpuInit {s : SlabState κ} {c : κ} {pages : Fin ncpu → ℕ × ℕ} {q : ℕ × ℕ}
    (l : List (Fin ncpu)) (hf : Fresh s (s.cache c).order q)
    (hdis : ∀ i, Disjoint (footprint (pages i).1 (pages i).2 (s.cache c).order)
      (footprint q.1 q.2 (s.cache c).order)) :
    Fresh (l.foldl (fun s i => slabCreate s c (pages i).1 (pages i).2) s) (s.cache c).order q := by
  induction l generalizing s with
  | nil => exact hf
  | cons i l ih => exact ih (s := slabCreate s c (pages i).1 (pages i).2) (hf.create (hdis i)) hdis

theorem fresh_laterPages (c : κ) {n : BitVec 16} (ho : calcSlabOrder n ≤ 3) :
    Fresh (firstRun c n).st (calcSlabOrder n) laterPages := by
  obtain ⟨s, hs⟩ : ∃ s : SlabState κ,
      s = kmemCacheSetup (.boot fun _ => 0) c (.ofSize n fun i => (firstPages i).1) := ⟨_, rfl⟩
  have horder : (s.cache c).order = calcSlabOrder n := by
    rw [hs, show ∀ k, (kmemCacheSetup (.boot fun _ => 0 : SlabState κ) c k).cache c = k from
      fun k => Function.update_self ..]
    rfl
  have hpow : 2 ^ calcSlabOrder n ≤ 2 ^ 3 := Nat.pow_le_pow_right (by decide) ho
  have hf : Fresh s (s.cache c).order laterPages := by
    rw [horder]
    refine ⟨by simp [laterPages], fun x hx => ⟨?_, fun a sl ha => ?_⟩⟩
    · rw [mem_footprint] at hx
      simp only [laterPages, allPfn] at *
      omega
    · rw [hs] at ha
      cases ha
  have := hf.cpuInit (List.finRange ncpu) fun i => horder ▸ disjoint_laterPages ho i
  rw [horder, hs] at this
  exact this

theorem exists_cpu_inuse (c : κ) (cpuid : Fin ncpu) {n : BitVec 16} (h9 : 9 ≤ n.toNat)
    (h8192 : n.toNat ≤ 8192)
    {k : ℕ} (hk : k ≤ (KmemCache.ofSize n fun i => (firstPages i).1).countPerSlab) :
    ∃ r : SlabRun κ, Reachable SlabStart SlabStep r ∧ r.sizes c = some n ∧
      Fresh r.st (r.st.cache c).order laterPages ∧
      ∃ sl, r.st.slab ((r.st.cache c).cacheCpu cpuid) = some sl ∧ sl.kc = c ∧ sl.inuse = k := by
  induction k with
  | zero =>
    have hreach := reachable_firstRun c h9 h8192
    obtain ⟨L, hI⟩ := slabInv_of_reachable hreach
    have hsize : (firstRun c n).sizes c = some n := by simp [firstRun]
    obtain ⟨p, hp⟩ := (hI.cpu (c := c) (by simp [hsize]) cpuid).1
    obtain ⟨sl, hsl, hkc, -⟩ := slab_of_shape hp
    have horder : ((firstRun c n).st.cache c).order = calcSlabOrder n := by
      rw [(hI.size hsize).2.2]
      rfl
    have ho : calcSlabOrder n ≤ 3 := by
      have := Nat.clog_le_of_le_pow (show n.toNat ≤ 2 ^ 13 by omega)
      rw [calcSlabOrder_eq]
      omega
    exact ⟨_, hreach, hsize, horder ▸ fresh_laterPages c ho, sl, hsl, hkc,
      (hI.core.stacksInv.length_held hsl).symm⟩
  | succ k ih =>
    obtain ⟨r, hreach, hsize, hf, sl, hsl, hkc, hin⟩ := ih (Nat.le_of_succ_le hk)
    obtain ⟨L, hI⟩ := slabInv_of_reachable hreach
    have hc : r.sizes c ≠ none := by simp [hsize]
    have hlt : sl.inuse < (r.st.cache c).countPerSlab := by
      rw [hin, (hI.size hsize).2.2]
      exact hk
    have hok := hI.kmemCacheAlloc_cpu hc cpuid laterPages hsl hkc hlt
    refine ⟨_, .next hreach (.alloc hc hf hok), hsize, hf.congr rfl (shape_update hsl _ _), ?_⟩
    exact ⟨{ sl with inuse := sl.inuse + 1, freeList := sl.freeList + 8 },
      by simp [popState], hkc, by simp [hin]⟩

/-! ### All runs -/

/-- In every state of every run: the outstanding objects are disjoint and in the blocks of their
caches, each slab accounts for its objects, and the lists hold the slabs they are named after. -/
theorem slabContract_of_reachable {r : SlabRun κ} (hr : Reachable SlabStart SlabStep r) :
    SlabContract r := by
  obtain ⟨L, hI⟩ := slabInv_of_reachable hr
  exact hI.contract

/-- A run that has handed out an object of a cache for 24-byte objects. -/
theorem slabContract_size_24 :
    ∃ r : SlabRun Unit, r.sizes () = some 24 ∧ r.out ≠ [] ∧ SlabContract r := by
  obtain ⟨r, hreach, hsize, -, sl, hsl, -, hin⟩ := exists_cpu_inuse () ⟨0, by decide⟩ (n := 24)
    (by decide) (by decide) (k := 1) (by
      rw [ofSize_countPerSlab _ (by decide) (by decide)]
      exact Nat.two_pow_pos _)
  have hC := slabContract_of_reachable hreach
  refine ⟨r, hsize, fun hout => ?_, hC⟩
  have := hC.inuse _ sl hsl
  simp [hin, hout, held] at this

end RiscvLab.Mm
