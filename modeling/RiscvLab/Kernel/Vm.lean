import RiscvLab.Library.RadixTree
import RiscvLab.Mm.RefCount

/-!
# Page tables

A page table has three levels of tables with 512 entries each. `walk` goes down to the entry of a
virtual address and, if it is asked to, links tables on the way. `mappages` enters a range of pages.

The memory is a memory of 64-bit words. `walk` takes its pages from any allocator (`PageSource`):
from the buddy allocator in `Kernel/OutOfMemory.lean`, and in `Kernel/Mappages.lean` from a list of
the pages that `__alloc_page` is going to hand out. `__alloc_page` does not return when there is no
page, because `page_push` accesses the null pointer, so the end of the list is a trap.
`mem_map.lock` is held through the loop of `mappages`, so the call is one step. A panic is
`Trap.panic`.

The loop of `mappages` goes on until it has reached the last page. Its model has a bound for the
number of pages, which is that of the range.

A word of a table is given by the number of the page and the index (`entries`). This makes the
memory a memory of tables in the sense of `Library/RadixTree.lean`.

## Main definitions

* `PageSource` : the allocator behind `__alloc_page`.
* `walk`, `mappages`, `translate`
* `entries`, `child` : the tables and the entries that lead to tables.

Source: `kernel/vm.c`, lines 38–124; `include/riscv.h`, lines 376–408.
-/

namespace RiscvLab.Kernel

open Library Mm

/-! ### The code -/

/-- `PTE_V`. -/
def pteV : BitVec 64 := 1

/-- `PA2PTE`. -/
def pa2pte (pa : BitVec 64) : BitVec 64 := (pa >>> 12) <<< 10

/-- `PTE_FLAGS`. -/
def pteFlags (pte : BitVec 64) : BitVec 64 := pte &&& 0x3FF

/-- `PX`. -/
def px (level : ℕ) (va : BitVec 64) : BitVec 64 := (va >>> (12 + 9 * level)) &&& 0x1FF

/-- `MAXVA`. -/
def maxVa : BitVec 64 := 1 <<< (9 + 9 + 9 + 12 - 1)

/-- The test `*pte & PTE_V`. -/
def pteValid (pte : BitVec 64) : Bool := pte &&& pteV != 0

/-- A page allocator, as `walk` sees it: `__alloc_page` on the state of the allocator. -/
class PageSource (σ : Type) where
  allocPageAddr : σ → Except Trap (BitVec 64 × σ)

/-- `__alloc_page` on the list of the pages that it is going to return. When there is no page,
`alloc_page` counts a reference of the null pointer. -/
def nextPage : List (BitVec 64) → Except Trap (BitVec 64 × List (BitVec 64))
  | [] => .error .nullDeref
  | page :: pages => .ok (page, pages)

instance : PageSource (List (BitVec 64)) := ⟨nextPage⟩

/-- The words of the memory, the state of the page allocator, and whether `mem_map.lock` is
held. -/
structure VmState (σ : Type) where
  mem : BitVec 64 → BitVec 64
  pages : σ
  locked : Bool

/-- The address of an entry, `&pagetable[i]`. -/
def pteAddr (pagetable i : BitVec 64) : BitVec 64 := pagetable + 8 * i

/-- `memset(page, 0, PGSIZE)`. -/
def clearPage (mem : BitVec 64 → BitVec 64) (page a : BitVec 64) : BitVec 64 :=
  if (a - page).toNat < 4096 then 0 else mem a

variable {σ : Type} [PageSource σ]

/-- The loop of `walk`. -/
def walkLoop (va : BitVec 64) (alloc : Bool) :
    ℕ → VmState σ → BitVec 64 → Except Trap (Option (BitVec 64) × VmState σ)
  | 0, s, pagetable => .ok (some pagetable, s)
  | level + 1, s, pagetable =>
    let pte := pteAddr pagetable (px (level + 1) va)
    if pteValid (s.mem pte) then walkLoop va alloc level s (pte2pa (s.mem pte))
    else if !alloc then .ok (none, s)
    else
      match PageSource.allocPageAddr s.pages with
      | .error e => .error e
      | .ok (page, pages) =>
        if page = 0 then .ok (none, { s with pages := pages })
        else
          walkLoop va alloc level
            { s with mem := Function.update (clearPage s.mem page) pte (pa2pte page ||| pteV),
                     pages := pages } page

/-- `walk`: the address of the entry. -/
def walk (s : VmState σ) (pagetable va : BitVec 64) (alloc : Bool) :
    Except Trap (Option (BitVec 64) × VmState σ) :=
  if va ≥ maxVa then .ok (none, s)
  else
    match walkLoop va alloc 2 s pagetable with
    | .error e => .error e
    | .ok (none, s) => .ok (none, s)
    | .ok (some pagetable, s) => .ok (some (pteAddr pagetable (px 0 va)), s)

/-- One round of the loop of `mappages`: the result is false if `walk` has returned the null
pointer. -/
def mapPage (s : VmState σ) (pagetable a pa : BitVec 64) (perm : BitVec 32) :
    Except Trap (Bool × VmState σ) :=
  match walk s pagetable a true with
  | .error e => .error e
  | .ok (none, s) => .ok (false, s)
  | .ok (some pte, s) =>
    if pteValid (s.mem pte) then .error .panic
    else .ok (true, { s with
      mem := Function.update s.mem pte (pa2pte pa ||| perm.signExtend 64 ||| pteV) })

/-- The loop of `mappages`, with a bound for the number of pages. -/
def mapLoop (pagetable last : BitVec 64) (perm : BitVec 32) :
    ℕ → VmState σ → BitVec 64 → BitVec 64 → Option (Except Trap (ℤ × VmState σ))
  | 0, _, _, _ => none
  | n + 1, s, a, pa =>
    match mapPage s pagetable a pa perm with
    | .error e => some (.error e)
    -- the lock is not released
    | .ok (false, s) => some (.ok (-1, s))
    | .ok (true, s) =>
      if a = last then some (.ok (0, { s with locked := false }))
      else mapLoop pagetable last perm n s (a + 4096) (pa + 4096)

/-- `mappages`. -/
def mappages (s : VmState σ) (pagetable va pa size : BitVec 64) (perm : BitVec 32) :
    Option (Except Trap (ℤ × VmState σ)) :=
  if va % 4096 ≠ 0 then some (.error .panic)
  else if size % 4096 ≠ 0 then some (.error .panic)
  else if size = 0 then some (.error .panic)
  else mapLoop pagetable (va + size - 4096) perm (size / 4096).toNat { s with locked := true } va pa

/-- The translation of a virtual address: the entry that `walk` finds, if it is valid. -/
def translate (s : VmState σ) (pagetable va : BitVec 64) : Option (BitVec 64) :=
  match walk s pagetable va false with
  | .ok (some pte, _) => if pteValid (s.mem pte) then some (s.mem pte) else none
  | _ => none

/-! ### Pages and indices -/

/-- The number of the page of an address. -/
def pageNumber (a : BitVec 64) : BitVec 52 := a.extractLsb' 12 52

/-- The address of a page. -/
def pageAddr (n : BitVec 52) : BitVec 64 := n.setWidth 64 <<< 12

/-- The index of an address at a level. -/
def index (level : ℕ) (va : BitVec 64) : BitVec 9 := va.extractLsb' (12 + 9 * level) 9

/-- The entries of a table. -/
def entries (mem : BitVec 64 → BitVec 64) (t : BitVec 52) (i : BitVec 9) : BitVec 64 :=
  mem (pteAddr (pageAddr t) (i.setWidth 64))

/-- The table that an entry leads to. -/
def child (pte : BitVec 64) : Option (BitVec 52) :=
  if pteValid pte then some (pageNumber (pte2pa pte)) else none

theorem toNat_pageNumber (a : BitVec 64) : (pageNumber a).toNat = a.toNat / 4096 := by
  rw [pageNumber, BitVec.extractLsb'_toNat, Nat.shiftRight_eq_div_pow]
  have := a.isLt
  omega

theorem toNat_pageAddr (n : BitVec 52) : (pageAddr n).toNat = n.toNat * 4096 := by
  rw [pageAddr, BitVec.toNat_shiftLeft, BitVec.toNat_setWidth, Nat.shiftLeft_eq]
  have := n.isLt
  omega

theorem pageNumber_pageAddr (n : BitVec 52) : pageNumber (pageAddr n) = n := by
  apply BitVec.eq_of_toNat_eq
  rw [toNat_pageNumber, toNat_pageAddr]
  omega

theorem pageAddr_pageNumber {a : BitVec 64} (ha : a % 4096 = 0) : pageAddr (pageNumber a) = a := by
  have h := congrArg BitVec.toNat ha
  rw [BitVec.toNat_umod] at h
  apply BitVec.eq_of_toNat_eq
  rw [toNat_pageAddr, toNat_pageNumber]
  simp at h
  omega

theorem pageAddr_pageNumber_pte2pa (pte : BitVec 64) :
    pageAddr (pageNumber (pte2pa pte)) = pte2pa pte := by
  apply BitVec.eq_of_toNat_eq
  rw [toNat_pageAddr, toNat_pageNumber, pte2pa, BitVec.toNat_shiftLeft, Nat.shiftLeft_eq]
  omega

theorem px_eq (level : ℕ) (va : BitVec 64) : px level va = (index level va).setWidth 64 := by
  apply BitVec.eq_of_toNat_eq
  rw [px, index, BitVec.toNat_and, BitVec.toNat_ushiftRight, BitVec.toNat_setWidth,
    BitVec.extractLsb'_toNat]
  change _ &&& 511 = _
  rw [show 511 = 2 ^ 9 - 1 from rfl, Nat.and_two_pow_sub_one_eq_mod]
  omega

theorem toNat_pteAddr (t : BitVec 52) (i : BitVec 9) :
    (pteAddr (pageAddr t) (i.setWidth 64)).toNat = t.toNat * 4096 + 8 * i.toNat := by
  rw [pteAddr, BitVec.toNat_add, toNat_pageAddr, BitVec.toNat_mul, BitVec.toNat_setWidth]
  have := t.isLt
  have := i.isLt
  change (_ + 8 * _ % _) % _ = _
  omega

theorem pteAddr_eq_iff {t u : BitVec 52} {i j : BitVec 9} :
    pteAddr (pageAddr t) (i.setWidth 64) = pteAddr (pageAddr u) (j.setWidth 64) ↔
      t = u ∧ i = j := by
  refine ⟨fun h => ?_, by rintro ⟨rfl, rfl⟩; rfl⟩
  have h := congrArg BitVec.toNat h
  rw [toNat_pteAddr, toNat_pteAddr] at h
  have := i.isLt
  have := j.isLt
  exact ⟨BitVec.eq_of_toNat_eq (by omega), BitVec.eq_of_toNat_eq (by omega)⟩

theorem entries_update (mem : BitVec 64 → BitVec 64) (t : BitVec 52) (i : BitVec 9)
    (v : BitVec 64) (u : BitVec 52) (j : BitVec 9) :
    entries (Function.update mem (pteAddr (pageAddr t) (i.setWidth 64)) v) u j =
      if (u, j) = (t, i) then v else entries mem u j := by
  simp only [entries, Function.update_apply, pteAddr_eq_iff, Prod.mk.injEq]

theorem entries_clearPage (mem : BitVec 64 → BitVec 64) (u t : BitVec 52) (j : BitVec 9) :
    entries (clearPage mem (pageAddr u)) t j = if t = u then 0 else entries mem t j := by
  simp only [entries, clearPage]
  have hiff : (pteAddr (pageAddr t) (j.setWidth 64) - pageAddr u).toNat < 4096 ↔ t = u := by
    rw [BitVec.toNat_sub, toNat_pteAddr, toNat_pageAddr]
    have := t.isLt
    have := u.isLt
    have := j.isLt
    constructor
    · intro h
      apply BitVec.eq_of_toNat_eq
      omega
    · rintro rfl
      omega
  simp only [hiff]

/-! ### Entries -/

/-- The bits of an entry that is made of an address and flags. -/
theorem toNat_pte (pa flags : BitVec 64) (hflags : flags.toNat < 1024) :
    (pa2pte pa ||| flags).toNat = pa.toNat / 4096 * 1024 + flags.toNat := by
  have hpa : (pa2pte pa).toNat = pa.toNat / 4096 * 2 ^ 10 := by
    rw [pa2pte, BitVec.toNat_shiftLeft, BitVec.toNat_ushiftRight, Nat.shiftRight_eq_div_pow,
      Nat.shiftLeft_eq]
    have := pa.isLt
    omega
  rw [BitVec.toNat_or, hpa, Nat.mul_comm, ← Nat.two_pow_add_eq_or_of_lt hflags, Nat.mul_comm]

theorem pte2pa_pte {pa flags : BitVec 64} (hpa : pa % 4096 = 0) (hflags : flags.toNat < 1024) :
    pte2pa (pa2pte pa ||| flags) = pa := by
  have h : pa.toNat % 4096 = 0 := congrArg BitVec.toNat hpa
  apply BitVec.eq_of_toNat_eq
  rw [pte2pa, BitVec.toNat_shiftLeft, BitVec.toNat_ushiftRight, toNat_pte pa flags hflags,
    Nat.shiftRight_eq_div_pow, Nat.shiftLeft_eq]
  have := pa.isLt
  omega

theorem pteFlags_pte {pa flags : BitVec 64} (hflags : flags.toNat < 1024) :
    pteFlags (pa2pte pa ||| flags) = flags := by
  apply BitVec.eq_of_toNat_eq
  rw [pteFlags, BitVec.toNat_and, toNat_pte pa flags hflags]
  change _ &&& (2 ^ 10 - 1) = _
  rw [Nat.and_two_pow_sub_one_eq_mod]
  omega

theorem pteValid_or (x : BitVec 64) : pteValid (x ||| pteV) = true := by
  have h : (x ||| pteV) &&& pteV = pteV := by
    ext i
    simp only [BitVec.getElem_and, BitVec.getElem_or]
    cases x[i] <;> simp
  rw [pteValid, h]
  rfl

end RiscvLab.Kernel
