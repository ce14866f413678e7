import RiscvLab.Lib.List
import Mathlib.Data.Nat.Bitwise

/-!
# The page allocator

The page allocator manages the array `mem_map.pages`, one `struct page` for each of the `ALL_PFN`
page frames above `KERNBASE`. A free block of `2^l` frames is represented by its first page, linked
through `page->buddy` into `buddy.free_lists[l]`. Of a page the allocator reads the `buddy` node and
the reference count, which is `PG_FREE = -1` while nobody refers to the page.

The number of page frames is a constant of the source. Here it is an argument `pages` of the
functions that depend on it, whose default is `ALL_PFN`.

The spin lock is held around the bodies of `buddy_alloc` and `buddy_free`, so a call is one step.
`page_push` on the null page, which is what `alloc_pages` executes when `buddy_alloc` finds no
block, is an access through a null pointer: `Trap.nullDeref`.

Source: `mm/mm.c`, lines 28–204; `mm/page.c`; `include/mm/page.h`; `include/mm/buddy.h`;
`include/lib/atomic.h`.
-/

namespace RiscvLab.Mm

open Library

/-- `ALL_PFN`, the number of page frames: 128 MiB of pages of 4096 bytes. -/
def allPfn : ℕ := 128 * 1024 * 1024 / 4096

/-- `MAX_LEVEL`. -/
def maxLevel : ℕ := 11

/-- `MAX_LEVEL_INDEX`. -/
def maxLevelIndex : ℕ := maxLevel - 1

/-- `MAX_LEVEL_COUNT`. -/
def maxLevelCount : ℕ := 2 ^ maxLevelIndex

/-- A list node of the allocator: the head of a free list or the `buddy` node of a page. -/
inductive Node
  | freeLists (level : ℕ)
  | page (index : ℕ)
  deriving DecidableEq

/-- The free lists and the reference counts of the pages. -/
structure BuddyState where
  links : Links Node
  count : ℕ → BitVec 32

/-- What stops the kernel. -/
inductive Trap
  | nullDeref
  | outOfBounds
  | panic
  deriving DecidableEq

/-! ### Reference counts -/

/-- `PG_FREE`. -/
def pgFree : BitVec 32 := -1

/-- `page_push`, an `atomic_inc` of the count. -/
def pagePush (s : BuddyState) (page : ℕ) : BuddyState :=
  { s with count := Function.update s.count page (s.count page + 1) }

/-- `page_pop_test`, that is `atomic_dec_and_test`: `amoadd.w` returns the old value, and the
result is the comparison `old - 1 == 0`. -/
def pagePopTest (s : BuddyState) (page : ℕ) : Bool × BuddyState :=
  let old := s.count page
  (old - 1 == 0, { s with count := Function.update s.count page (old + (-1)) })

/-- `is_page_free`. -/
def isPageFree (s : BuddyState) (page : ℕ) : Bool := s.count page == pgFree

/-! ### The buddy lists -/

/-- `find_buddy`. -/
def findBuddy (page order : ℕ) (pages : ℕ := allPfn) : Option ℕ :=
  let buddyIndex := page ^^^ 2 ^ order
  if buddyIndex ≥ pages then none else some buddyIndex

/-- The loop of `buddy_alloc` that splits the block of level `j` at `page` down to `order`. -/
def splitLoop (page order j : ℕ) (h : Links Node) (pages : ℕ := allPfn) : Links Node :=
  match j with
  | 0 => h
  | j + 1 =>
    if j + 1 > order then
      match findBuddy page j pages with
      | none => h
      | some buddyPage =>
        splitLoop page order j (listAddHead h (.page buddyPage) (.freeLists j)) pages
    else h

/-- The search loop of `buddy_alloc` over the levels from `i` on; `n` counts the levels left. -/
def buddyAllocLoop (order : ℕ) (s : BuddyState) (n i : ℕ) (pages : ℕ := allPfn) :
    Option ℕ × BuddyState :=
  match n with
  | 0 => (none, s)
  | n + 1 =>
    if listEmpty s.links (.freeLists i) then buddyAllocLoop order s n (i + 1) pages
    else
      match listPop s.links (.freeLists i) with
      | (some (.page page), h) => (some page, { s with links := splitLoop page order i h pages })
      -- a list holds pages only, so `list_entry` never sees another node
      | (_, h) => (none, { s with links := h })

/-- `buddy_alloc`. -/
def buddyAlloc (s : BuddyState) (order : ℤ) (pages : ℕ := allPfn) : Option ℕ × BuddyState :=
  if order < 0 ∨ order > maxLevelIndex then (none, s)
  else buddyAllocLoop order.toNat s (maxLevel - order.toNat) order.toNat pages

/-- The merging loop of `buddy_free`; `n` counts the levels left below `MAX_LEVEL_INDEX`. -/
def buddyFreeLoop (s : BuddyState) (n : ℕ) (h : Links Node) (page level : ℕ)
    (pages : ℕ := allPfn) : Links Node × ℕ × ℕ :=
  match n with
  | 0 => (h, page, level)
  | n + 1 =>
    if listEmpty h (.freeLists level) then (h, page, level)
    else
      match findBuddy page level pages with
      | none => (h, page, level)
      | some buddyPage =>
        if !isPageFree s buddyPage then (h, page, level)
        else
          buddyFreeLoop s n (listDelInit (listDelInit h (.page buddyPage)) (.page page))
            (if page < buddyPage then page else buddyPage) (level + 1) pages

/-- `buddy_free`. -/
def buddyFree (s : BuddyState) (pg order : ℕ) (pages : ℕ := allPfn) : BuddyState :=
  let (h, page, level) := buddyFreeLoop s (maxLevelIndex - order) s.links pg order pages
  { s with links := listAddHead h (.page page) (.freeLists level) }

/-! ### The interface -/

/-- `alloc_pages`: `page_push` is called on the result of `buddy_alloc` whatever it is. -/
def allocPages (s : BuddyState) (order : ℤ) (pages : ℕ := allPfn) :
    Except Trap (ℕ × BuddyState) :=
  match buddyAlloc s order pages with
  | (none, _) => .error .nullDeref
  | (some page, s') => .ok (page, pagePush s' page)

/-- `alloc_page`. -/
def allocPage (s : BuddyState) (pages : ℕ := allPfn) : Except Trap (ℕ × BuddyState) :=
  match buddyAlloc s 0 pages with
  | (none, _) => .error .nullDeref
  | (some page, s') => .ok (page, pagePush s' page)

/-- `free_pages`. -/
def freePages (s : BuddyState) (page order : ℕ) (pages : ℕ := allPfn) : BuddyState :=
  match pagePopTest s page with
  | (true, s') => buddyFree s' page order pages
  | (false, s') => s'

/-- `free_page`. -/
def freePage (s : BuddyState) (page : ℕ) (pages : ℕ := allPfn) : BuddyState :=
  match pagePopTest s page with
  | (true, s') => buddyFree s' page 0 pages
  | (false, s') => s'

/-! ### Initialisation -/

/-- `all_page_init`, with the free-list heads of `buddy_init` already linked to themselves: the
counts of the frames below `kernel_pfn_end` are raised from `PG_FREE`. -/
def allPageInit (kernelPfnEnd : ℕ) : BuddyState where
  links := Links.isolated
  count i := if i < kernelPfnEnd then pgFree + 1 else pgFree

/-- The loop of `buddy_init` that lists a block at every stride of `MAX_LEVEL_COUNT` pages. -/
def buddyInitBlocks (h : Links Node) (i : ℕ) (pages : ℕ := allPfn) : Links Node :=
  if i < pages then
    buddyInitBlocks (listAddHead h (.page i) (.freeLists maxLevelIndex)) (i + maxLevelCount) pages
  else h
  termination_by pages - i
  decreasing_by simp only [maxLevelCount, maxLevelIndex, maxLevel]; omega

/-- The loop of `buddy_init` that pretends to allocate the last pages. -/
def buddyInitPush (s : BuddyState) (i : ℕ) (pages : ℕ := allPfn) : BuddyState :=
  if i < pages then buddyInitPush (pagePush s i) (i + 1) pages else s
  termination_by pages - i

/-- The loop of `buddy_init` that frees the last pages one by one. -/
def buddyInitFree (s : BuddyState) (i : ℕ) (pages : ℕ := allPfn) : BuddyState :=
  if i < pages then buddyInitFree (freePage s i pages) (i + 1) pages else s
  termination_by pages - i

/-- `buddy_init`. -/
def buddyInit (kernelPfnEnd : ℕ) (s : BuddyState) (pages : ℕ := allPfn) : BuddyState :=
  let h := buddyInitBlocks s.links (kernelPfnEnd + 1) pages
  let h := (listPop h (.freeLists maxLevelIndex)).2
  let endFreeCount := (pages - kernelPfnEnd) % maxLevelCount
  let s := buddyInitPush { s with links := h } (pages - endFreeCount) pages
  buddyInitFree s (pages - endFreeCount) pages

/-- The allocator in `mem_init`, after `all_page_init` and `buddy_init`. The calls that follow,
`kmem_cache_init` and `kmalloc_init`, are clients of it. -/
def memInit (kernelPfnEnd : ℕ) (pages : ℕ := allPfn) : BuddyState :=
  buddyInit kernelPfnEnd (allPageInit kernelPfnEnd) pages

end RiscvLab.Mm
