import RiscvLab.Kernel.Vm
import RiscvLab.Mm.BuddyTiling
import RiscvLab.Mm.Slab

/-!
# Out of memory

`buddy_alloc` returns the null pointer if it finds no block. `alloc_pages` counts a reference of the
result before anybody looks at it, so the null pointer is accessed and none of the callers sees it.
`slab_create` and `walk` have code for the case that they get no page, which is not reached.

Here `slab_create` is followed up to the point where it has its pages, and `walk` takes its pages
from the buddy allocator. As long as the allocator has pages, this is `walk` with the list of the
pages that it hands out (`walk_some`).

## Main definitions

* `allocPagesAddr`, `allocPageAddr`, `slabCreatePages`
* `OutOfMemory`, `SlabOutOfMemory`

## Main results

* `not_reportsNull` : the failure of `buddy_alloc` is never reported as a null pointer.
* `walk_some` : the walk with an allocator and with the list of its pages.

Source: `mm/mm.c`, lines 41–78 and 150–204; `mm/slab.c`, lines 20–35; `kernel/vm.c`, lines 38–80;
`mm/page.c`, lines 18–26.
-/

namespace RiscvLab.Kernel

open Library Mm

/-! ### The callers of the allocator -/

/-- `get_page_addr`. -/
def getPageAddr (page : ℕ) : BitVec 64 := (BitVec.ofNat 64 page <<< 12) + 0x80000000

/-- The address as a word is the address that the slab allocator computes with. -/
theorem getPageAddr_eq (page : ℕ) : getPageAddr page = BitVec.ofNat 64 (Mm.getPageAddr page) := by
  apply BitVec.eq_of_toNat_eq
  rw [getPageAddr, BitVec.toNat_add, BitVec.toNat_shiftLeft, BitVec.toNat_ofNat,
    BitVec.toNat_ofNat, Nat.shiftLeft_eq, Mm.getPageAddr, pgSize, kernBase]
  change (_ + 0x80000000) % _ = _
  omega

theorem pageToIndex_eq {pa : BitVec 64} (hpa : 0x80000000 ≤ pa) :
    pageToIndex pa = getPageStruct pa.toNat := by
  rw [pageToIndex, BitVec.toNat_ushiftRight, BitVec.toNat_sub_of_le hpa, Nat.shiftRight_eq_div_pow]
  rfl

/-- `__alloc_pages`. -/
def allocPagesAddr (s : BuddyState) (order : ℤ) : Except Trap (BitVec 64 × BuddyState) := do
  let (page, s) ← allocPages s order
  return (getPageAddr page, s)

/-- `__alloc_page`; the contents of the page are not part of the state. -/
def allocPageAddr (s : BuddyState) : Except Trap (BitVec 64 × BuddyState) := do
  let (page, s) ← allocPage s
  return (getPageAddr page, s)

/-- `__free_page`. -/
def freePageAddr (s : BuddyState) (addr : BitVec 64) : BuddyState := freePage s (pageToIndex addr)

/-- The pages of `slab_create`: the null pointer, or the addresses of the slab and of its
objects. -/
def slabCreatePages (s : BuddyState) (order : ℤ) :
    Except Trap (Option (BitVec 64 × BitVec 64) × BuddyState) := do
  let (slab, s) ← allocPageAddr s
  if slab = 0 then return (none, s)
  let (objs, s) ← allocPagesAddr s order
  if objs = 0 then return (none, freePageAddr s slab)
  return (some (slab, objs), s)

instance : PageSource BuddyState := ⟨allocPageAddr⟩

/-- `buddy_alloc` finds no block. -/
def OutOfMemory (s : BuddyState) (order : ℤ) : Prop := (buddyAlloc s order).1 = none

/-- `slab_create` asks for a page or for a block that `buddy_alloc` does not find. -/
def SlabOutOfMemory (s : BuddyState) (order : ℤ) : Prop :=
  OutOfMemory s 0 ∨
    ∃ slab s₁, allocPageAddr s = .ok (slab, s₁) ∧ slab ≠ 0 ∧ OutOfMemory s₁ order

/-! ### The null pointer -/

variable {s : BuddyState} {mem : BitVec 64 → BitVec 64} {pagetable va : BitVec 64} {order : ℤ}
  {b : Bool}

theorem OutOfMemory.allocPages (h : OutOfMemory s order) :
    allocPages s order = .error .nullDeref := by
  rcases hb : buddyAlloc s order with ⟨r, s₁⟩
  obtain rfl : r = none := (congrArg Prod.fst hb).symm.trans h
  rw [Mm.allocPages, hb]

theorem OutOfMemory.allocPagesAddr (h : OutOfMemory s order) :
    allocPagesAddr s order = .error .nullDeref := by
  rw [Kernel.allocPagesAddr, h.allocPages]
  rfl

theorem OutOfMemory.allocPage (h : OutOfMemory s 0) : allocPage s = .error .nullDeref := by
  rw [allocPage_eq, h.allocPages]

theorem OutOfMemory.allocPageAddr (h : OutOfMemory s 0) :
    allocPageAddr s = .error .nullDeref := by
  rw [Kernel.allocPageAddr, h.allocPage]
  rfl

theorem SlabOutOfMemory.slabCreatePages (h : SlabOutOfMemory s order) :
    slabCreatePages s order = .error .nullDeref := by
  unfold Kernel.slabCreatePages
  rcases h with h | ⟨slab, s₁, halloc, hslab, h⟩
  · rw [h.allocPageAddr]
    rfl
  · rw [halloc]
    change (if slab = 0 then _ else (Kernel.allocPagesAddr s₁ order).bind _) = _
    rw [if_neg hslab, h.allocPagesAddr]
    rfl

/-- If a table is missing on the way, the loop of `walk` asks the allocator for it. -/
theorem OutOfMemory.walkLoop (h : OutOfMemory s 0) {level : ℕ} {s' : VmState BuddyState}
    (hmissing : walkLoop va false level ⟨mem, s, b⟩ pagetable = .ok (none, s')) :
    walkLoop va true level ⟨mem, s, b⟩ pagetable = .error .nullDeref := by
  induction level generalizing pagetable with
  | zero => cases hmissing
  | succ level ih =>
    rw [Kernel.walkLoop] at hmissing ⊢
    dsimp only at hmissing ⊢
    by_cases hv : pteValid (mem (pteAddr pagetable (px (level + 1) va))) = true
    · rw [if_pos hv] at hmissing ⊢
      exact ih hmissing
    · have hpage : PageSource.allocPageAddr s = .error .nullDeref := h.allocPageAddr
      rw [if_neg hv, if_neg (by decide), hpage]

theorem OutOfMemory.walk (h : OutOfMemory s 0) (hva : va < maxVa) {s' : VmState BuddyState}
    (hmissing : walk ⟨mem, s, b⟩ pagetable va false = .ok (none, s')) :
    walk ⟨mem, s, b⟩ pagetable va true = .error .nullDeref := by
  have hge : ¬va ≥ maxVa := BitVec.not_le.2 hva
  rw [Kernel.walk, if_neg hge] at hmissing ⊢
  rcases hloop : Kernel.walkLoop va false 2 ⟨mem, s, b⟩ pagetable with e | ⟨_ | t, s₁⟩
  · rw [hloop] at hmissing
    cases hmissing
  · rw [h.walkLoop hloop]
  · rw [hloop] at hmissing
    cases hmissing

/-- The failure of `buddy_alloc` reaches no caller as a null pointer: `alloc_pages` and the
functions that call it access the null pointer and do not return. This includes `slab_create`
whenever it gets no page or no block, and `walk` whenever a table is missing. -/
theorem not_reportsNull (s : BuddyState) :
    (∀ order, OutOfMemory s order → allocPages s order = .error .nullDeref ∧
      allocPagesAddr s order = .error .nullDeref) ∧
    (OutOfMemory s 0 → allocPage s = .error .nullDeref ∧ allocPageAddr s = .error .nullDeref) ∧
    (∀ order, SlabOutOfMemory s order → slabCreatePages s order = .error .nullDeref) ∧
    ∀ mem b pagetable va s', OutOfMemory s 0 → va < maxVa →
      walk ⟨mem, s, b⟩ pagetable va false = .ok (none, s') →
        walk ⟨mem, s, b⟩ pagetable va true = .error .nullDeref :=
  ⟨fun _ hoom => ⟨hoom.allocPages, hoom.allocPagesAddr⟩,
    fun hoom => ⟨hoom.allocPage, hoom.allocPageAddr⟩, fun _ hoom => hoom.slabCreatePages,
    fun _ _ _ _ _ hoom hva hmissing => hoom.walk hva hmissing⟩

theorem outOfMemory_eleven (s : BuddyState) : OutOfMemory s 11 := by
  rw [OutOfMemory, buddyAlloc, if_pos (.inr (by decide))]

/-- No block is larger than the order 10. -/
theorem not_reportsNull_eleven : OutOfMemory (memInit 1023) 11 ∧
    allocPagesAddr (memInit 1023) 11 = .error .nullDeref :=
  ⟨outOfMemory_eleven _, ((not_reportsNull (memInit 1023)).1 11 (outOfMemory_eleven _)).2⟩

/-- A request for more than the largest block, right after the initialisation. -/
theorem allocPages_eleven : ∃ c, Reachable (Mm.Start 1023) Mm.Step c ∧ OutOfMemory c.st 11 ∧
    allocPages c.st 11 = .error .nullDeref :=
  ⟨_, .start rfl, outOfMemory_eleven _, (outOfMemory_eleven _).allocPages⟩

/-! ### With pages -/

section Pages

variable {σ : Type} [PageSource σ] {s s' : VmState σ}

/-- The loop of `walk` takes the pages that the allocator hands out. -/
theorem walkLoop_some {level : ℕ} {t : BitVec 64}
    (h : walkLoop va true level s pagetable = .ok (some t, s')) :
    ∃ pages, ∀ rest : List (BitVec 64), walkLoop va true level ⟨s.mem, pages ++ rest, s.locked⟩
      pagetable = .ok (some t, ⟨s'.mem, rest, s'.locked⟩) := by
  induction level generalizing s pagetable with
  | zero =>
    cases h
    exact ⟨[], fun rest => rfl⟩
  | succ level ih =>
    rw [walkLoop] at h
    by_cases hv : pteValid (s.mem (pteAddr pagetable (px (level + 1) va))) = true
    · rw [if_pos hv] at h
      obtain ⟨pages, hpages⟩ := ih h
      refine ⟨pages, fun rest => ?_⟩
      rw [walkLoop]
      dsimp only
      rw [if_pos hv, hpages]
    · rw [if_neg hv, if_neg (by decide)] at h
      rcases halloc : PageSource.allocPageAddr s.pages with e | ⟨page, s₁⟩
      · rw [halloc] at h
        cases h
      · rw [halloc] at h
        dsimp only at h
        split_ifs at h with hpage
        · cases h
        obtain ⟨pages, hpages⟩ := ih h
        refine ⟨page :: pages, fun rest => ?_⟩
        rw [walkLoop]
        dsimp only
        rw [if_neg hv, if_neg (by decide)]
        dsimp only [PageSource.allocPageAddr, nextPage, List.cons_append]
        rw [if_neg hpage]
        exact hpages rest

/-- As long as it finds pages, `walk` does with any allocator what it does with the list of the
pages that the allocator hands out. -/
theorem walk_some {pte : BitVec 64} (h : walk s pagetable va true = .ok (some pte, s')) :
    ∃ pages : List (BitVec 64), walk ⟨s.mem, pages, s.locked⟩ pagetable va true =
      .ok (some pte, ⟨s'.mem, [], s'.locked⟩) := by
  unfold walk at h
  split_ifs at h with hva
  · cases h
  rcases hloop : walkLoop va true 2 s pagetable with e | ⟨_ | t, s₁⟩ <;> rw [hloop] at h
  · cases h
  · cases h
  · cases h
    obtain ⟨pages, hpages⟩ := walkLoop_some hloop
    refine ⟨pages, ?_⟩
    have hrest := hpages []
    rw [List.append_nil] at hrest
    rw [walk, if_neg hva, hrest]

end Pages

end RiscvLab.Kernel
