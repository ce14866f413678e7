import RiscvLab.Mm.SlabContract

/-!
# Finding the slab of an object

`kmem_cache_free` and `kfree` find the slab of an object through the field `slab` of the page that
the object starts in. `slab_create` sets this field for the first page of the block only, so the
lookup works exactly for the caches whose blocks are single pages, those for objects of at most
1024 bytes: `ownerFound_iff`. For larger objects, the last object of a slab starts in a page whose
field is not set.

Source: `mm/slab.c`, lines 37–44 and 244–275; `mm/kmalloc.c`, lines 92–97.
-/

namespace RiscvLab.Mm

open Library

variable {κ : Type} [DecidableEq κ]

/-- The back pointer leads from an object to the slab that issued it, and both ways to free the
object return it to the stack of this slab. -/
def OwnerFound (r : SlabRun κ) (o : Obj κ) : Prop :=
  r.st.pageSlab (getPageStruct o.addr) = some o.slab ∧
    ∃ sl s', r.st.slab o.slab = some sl ∧ sl.kc = o.cache ∧
      kmemCacheFree r.st o.cache o.addr = .ok s' ∧ kfree r.st o.addr = .ok s' ∧
      s'.slab o.slab = some { sl with inuse := sl.inuse - 1, freeList := sl.freeList - 8 } ∧
      s'.mem (sl.freeList - 8) = o.addr

theorem SlabInv.ownerFound {r : SlabRun κ} {L : ListKey κ → List (SlabNode κ)} (hI : SlabInv r L)
    {o : Obj κ} (ho : o ∈ r.out) (hown : r.st.pageSlab (getPageStruct o.addr) = some o.slab) :
    OwnerFound r o := by
  obtain ⟨sl, s', hsl, hkc, hok, hcase⟩ := hI.kmemCacheFree_cases ho hown
  refine ⟨hown, sl, s', hsl, hkc, hok, (hI.kfree_eq ho hown).trans hok, ?_⟩
  cases hcase <;> simp [pushState]

/-- The last object of a block of several pages starts behind the first page. -/
theorem last_object_page {k : KmemCache} (hg : Geometry k) (ho : 0 < k.order) (p : ℕ) :
    p < getPageStruct (getPageAddr p + (k.countPerSlab - 1) * k.size) := by
  have h2 : 2 ≤ 2 ^ k.order := Nat.pow_le_pow_right (n := 2) (i := 1) (by decide) ho
  have hmul := hg.count_mul
  have h4 := hg.four_le
  obtain ⟨m, hm⟩ : ∃ m, k.countPerSlab = m + 1 := ⟨_, (Nat.succ_pred_eq_of_pos (by omega)).symm⟩
  have hsize : 3 * k.size ≤ m * k.size := Nat.mul_le_mul_right _ (by omega)
  rw [hm, Nat.succ_mul] at hmul
  rw [hm, Nat.add_sub_cancel]
  have hoff : pgSize ≤ m * k.size := by
    have : 2 * pgSize ≤ 2 ^ k.order * pgSize := Nat.mul_le_mul_right _ h2
    omega
  have hstruct : getPageAddr p + m * k.size - kernBase = pgSize * p + m * k.size := by
    rw [getPageAddr, Nat.mul_comm]
    omega
  rw [getPageStruct, hstruct, Nat.mul_add_div (by decide)]
  have : 0 < m * k.size / pgSize := Nat.div_pos hoff (by decide)
  omega

/-- When all objects of a slab of several pages are out, the owner of one of them is not found. -/
theorem SlabInv.exists_not_ownerFound {r : SlabRun κ} {L : ListKey κ → List (SlabNode κ)}
    (hI : SlabInv r L) {c : κ} {n : BitVec 16} (hsize : r.sizes c = some n) (h1024 : 1024 < n.toNat)
    {a : ℕ} {sl : Slab κ} (hsl : r.st.slab a = some sl) (hkc : sl.kc = c)
    (hfull : sl.inuse = (r.st.cache c).countPerSlab) :
    ∃ o ∈ r.out, o.cache = c ∧ ¬ OwnerFound r o := by
  have hcache := (hI.size hsize).2.2
  have hg := hI.geometry (c := c) (by simp [hsize])
  have horder : 0 < (r.st.cache c).order := by
    have := (Nat.lt_clog_iff_pow_lt (b := 2) (by decide)).mpr (show 2 ^ 10 < n.toNat by omega)
    rw [hcache, show ∀ cpu, (KmemCache.ofSize n cpu).order = calcSlabOrder n from fun _ => rfl,
      calcSlabOrder_eq]
    omega
  -- the stack is empty, so the last object is out
  have hperm := hI.core.stacksInv.perm hsl
  rw [stack, hkc, hfull, Nat.sub_self, List.range'_zero, List.map_nil, List.append_nil] at hperm
  have hlast : sl.objs + ((r.st.cache c).countPerSlab - 1) * (r.st.cache c).size ∈
      objects r.st sl := by
    rw [mem_objects, hkc]
    exact ⟨_, Nat.sub_lt (lt_of_lt_of_le (by decide) hg.four_le) Nat.one_pos, rfl⟩
  obtain ⟨o, ho, hslab, haddr⟩ := mem_held.mp (hperm.mem_iff.mpr hlast)
  obtain ⟨p, hp⟩ := hI.core.stacksInv.issued ho
  rw [hslab, shape_of_slab hsl] at hp
  obtain ⟨hoc, -⟩ : sl.kc = o.cache ∧ sl.objs = p := by simpa using hp
  refine ⟨o, ho, hoc ▸ hkc, fun hfound => ?_⟩
  -- only the first page of a block has a back pointer
  obtain ⟨d, hd⟩ := hI.core.pagesInv.owner_first hfound.1
  rw [hslab, shape_of_slab hsl] at hd
  obtain ⟨-, hobjs⟩ : sl.kc = d ∧ sl.objs = getPageAddr (getPageStruct o.addr) := by
    simpa using hd
  have hpage := last_object_page hg horder (getPageStruct o.addr)
  rw [← hobjs, ← haddr] at hpage
  exact lt_irrefl _ hpage

theorem exists_not_ownerFound (c : κ) {n : BitVec 16} (h1024 : 1024 < n.toNat)
    (h8192 : n.toNat ≤ 8192) :
    ∃ r : SlabRun κ, Reachable SlabStart SlabStep r ∧ r.sizes c = some n ∧
      ∃ o ∈ r.out, o.cache = c ∧ ¬ OwnerFound r o := by
  obtain ⟨r, hreach, hsize, -, sl, hsl, hkc, hin⟩ := exists_cpu_inuse c ⟨0, by decide⟩ (n := n)
    (by omega) h8192 le_rfl
  obtain ⟨L, hI⟩ := slabInv_of_reachable hreach
  have hfull : sl.inuse = (r.st.cache c).countPerSlab := by
    rw [hin, (hI.size hsize).2.2]
    rfl
  exact ⟨r, hreach, hsize, hI.exists_not_ownerFound hsize h1024 hsl hkc hfull⟩

/-- For object sizes up to 8192: in every state of every run the owner of every
outstanding object of the cache is found if and only if the objects have at most 1024 bytes. -/
theorem ownerFound_iff {c : κ} {n : BitVec 16} (h8192 : n.toNat ≤ 8192) :
    (∀ r : SlabRun κ, Reachable SlabStart SlabStep r → r.sizes c = some n →
      ∀ o ∈ r.out, o.cache = c → OwnerFound r o) ↔ n.toNat ≤ 1024 := by
  constructor
  · intro hall
    by_contra hlt
    obtain ⟨r, hreach, hsize, o, ho, hoc, hnot⟩ :=
      exists_not_ownerFound c (Nat.lt_of_not_le hlt) h8192
    exact hnot (hall r hreach hsize o ho hoc)
  · intro hle r hreach hsize o ho hoc
    obtain ⟨L, hI⟩ := slabInv_of_reachable hreach
    subst hoc
    exact hI.ownerFound ho (hI.owner_of_order_zero ho (hI.order_eq_zero hsize hle))

/-- An object of the size of `kmalloc1024`, whose owner is found. -/
theorem ownerFound_1024 : ∃ r : SlabRun Unit, Reachable SlabStart SlabStep r ∧
    r.sizes () = some 1024 ∧ ∃ o ∈ r.out, OwnerFound r o := by
  obtain ⟨r, hreach, hsize, -, sl, hsl, -, hin⟩ := exists_cpu_inuse () ⟨0, by decide⟩ (n := 1024)
    (by decide) (by decide) (k := 1) (by
      rw [ofSize_countPerSlab _ (by decide) (by decide)]
      exact Nat.two_pow_pos _)
  obtain ⟨L, hI⟩ := slabInv_of_reachable hreach
  have hout : r.out ≠ [] := by
    intro hnil
    have hlen := hI.core.stacksInv.length_held hsl
    simp [hin, hnil, held] at hlen
  obtain ⟨o, ho⟩ := List.exists_mem_of_ne_nil r.out hout
  exact ⟨r, hreach, hsize, o, ho, (ownerFound_iff (by decide)).mpr (by decide) r hreach hsize o ho
    rfl⟩

/-- Some owner is not found among the objects of the size of `kmalloc2048`. -/
theorem not_ownerFound_2048 : ∃ r : SlabRun Unit, Reachable SlabStart SlabStep r ∧
    r.sizes () = some 2048 ∧ ∃ o ∈ r.out, o.cache = () ∧ ¬ OwnerFound r o :=
  exists_not_ownerFound () (by decide) (by decide)

end RiscvLab.Mm
