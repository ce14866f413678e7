import RiscvLab.Mm.BuddyLists
import Mathlib.Data.List.Basic

/-!
# What the page allocator starts from

`buddy_init` lists a block of level `MAX_LEVEL_INDEX` at every stride of `MAX_LEVEL_COUNT` pages
from `kernel_pfn_end + 1` on and pops the last one again, because it may reach past the end of
memory. The pages from the popped block on are then raised to a count of zero and freed one by
one. A free of a page with count zero only takes the count back to `PG_FREE` and never reaches
`buddy_free` (`freePages_of_count_zero`), so these pages stay outside the allocator:
`memInit_freeLists` and `memInit_count` give the resulting state.
-/

namespace RiscvLab.Mm

open Library

/-! ### Freeing a page with count zero -/

theorem pagePopTest_of_count_zero {s : BuddyState} {p : ℕ} (h : s.count p = 0) :
    pagePopTest s p = (false, { s with count := Function.update s.count p pgFree }) := by
  simp [pagePopTest, h, pgFree]

/-- A free of a block whose count is zero does not reach `buddy_free`. -/
theorem freePages_of_count_zero {s : BuddyState} {p : ℕ} (h : s.count p = 0)
    (order pages : ℕ) :
    freePages s p order pages = { s with count := Function.update s.count p pgFree } := by
  simp [freePages, pagePopTest_of_count_zero h]

theorem freePage_eq (s : BuddyState) (p pages : ℕ) :
    freePage s p pages = freePages s p 0 pages := rfl

theorem allocPage_eq (s : BuddyState) : allocPage s = allocPages s 0 := rfl

/-! ### The blocks that are listed first -/

/-- The free lists with `l` on the highest level and nothing below. -/
def topList (l : List ℕ) (level : ℕ) : List ℕ := if level = maxLevelIndex then l else []

theorem update_topList (l l' : List ℕ) :
    Function.update (topList l) maxLevelIndex l' = topList l' := by
  funext j
  by_cases hj : j = maxLevelIndex <;> simp [topList, hj]

theorem mem_topList {l : List ℕ} {i j : ℕ} : i ∈ topList l j ↔ j = maxLevelIndex ∧ i ∈ l := by
  unfold topList
  split_ifs with hj <;> simp [hj]

/-- The first `n` block heads from `i` on, the last one listed first. -/
def initList (i n : ℕ) : List ℕ := (List.range n).reverse.map fun m => i + maxLevelCount * m

theorem initList_succ (i n : ℕ) :
    initList i (n + 1) = (i + maxLevelCount * n) :: initList i n := by
  simp [initList, List.range_succ]

private theorem initList_succ_shift (i n : ℕ) :
    initList i (n + 1) = initList (i + maxLevelCount) n ++ [i] := by
  induction n with
  | zero => simp [initList]
  | succ n ih =>
    rw [initList_succ, ih, initList_succ, List.cons_append]
    congr 1
    rw [Nat.mul_succ]
    omega

theorem mem_initList {i n q : ℕ} : q ∈ initList i n ↔ ∃ m < n, q = i + maxLevelCount * m := by
  simp [initList, eq_comm]

private theorem buddyInitBlocks_freeLists (pages n : ℕ) :
    ∀ {h : Links Node} {i : ℕ} {acc : List ℕ}, FreeLists h (topList acc) → (∀ q ∈ acc, q < i) →
      pages ≤ i + maxLevelCount * n → (∀ m < n, i + maxLevelCount * m < pages) →
      FreeLists (buddyInitBlocks h i pages) (topList (initList i n ++ acc)) := by
  induction n with
  | zero =>
    intro h i acc hL _ hge _
    have : ¬ i < pages := by simpa using hge
    rw [buddyInitBlocks, if_neg this]
    simpa [initList] using hL
  | succ n ih =>
    intro h i acc hL hacc hge hlt
    have hi : i < pages := by simpa using hlt 0 (Nat.succ_pos n)
    have hstep : FreeLists (listAddHead h (.page i) (.freeLists maxLevelIndex))
        (topList (i :: acc)) := by
      have := FreeLists.addHead (j := maxLevelIndex) (i := i) hL fun l hmem =>
        (hacc i (mem_topList.mp hmem).2).false
      simpa [update_topList, topList] using this
    have hpos : 0 < maxLevelCount := by decide
    have hrest := ih hstep (i := i + maxLevelCount) (fun q hq => ?_) (by rw [mul_add] at hge; omega)
      fun m hm => ?_
    · rw [buddyInitBlocks, if_pos hi, initList_succ_shift, List.append_assoc]
      exact hrest
    · rcases List.mem_cons.mp hq with rfl | hq
      · omega
      · have := hacc q hq
        omega
    · have := hlt (m + 1) (by omega)
      rw [mul_add] at this
      omega

/-! ### The tail pages -/

/-- The page `i` and those after it are the pages from `i` on. -/
private theorem ite_update_eq {i pages : ℕ} {f F G : ℕ → BitVec 32} (hi : i < pages)
    (hF : ∀ x, i < x → G x = F x) :
    (fun x => if i + 1 ≤ x ∧ x < pages then G x else Function.update f i (F i) x) =
      fun x => if i ≤ x ∧ x < pages then F x else f x := by
  funext x
  rcases Nat.lt_trichotomy x i with hx | rfl | hx
  · have h₁ : ¬ (i + 1 ≤ x ∧ x < pages) := by omega
    have h₂ : ¬ (i ≤ x ∧ x < pages) := by omega
    rw [if_neg h₁, if_neg h₂, Function.update_of_ne hx.ne]
  · have h₁ : ¬ (x + 1 ≤ x ∧ x < pages) := by omega
    rw [if_neg h₁, if_pos ⟨le_rfl, hi⟩, Function.update_self]
  · have hiff : i + 1 ≤ x ∧ x < pages ↔ i ≤ x ∧ x < pages := by omega
    simp only [hiff, Function.update_of_ne hx.ne', hF x hx]

private theorem buddyInitPush_eq (s : BuddyState) (i pages : ℕ) :
    buddyInitPush s i pages =
      { s with count := fun x => if i ≤ x ∧ x < pages then s.count x + 1 else s.count x } := by
  fun_induction buddyInitPush s i pages with
  | case1 s i hi ih =>
    rw [ih]
    simp only [pagePush, BuddyState.mk.injEq, true_and]
    refine ite_update_eq (F := fun x => s.count x + 1)
      (G := fun x => Function.update s.count i (s.count i + 1) x + 1) hi fun x hx => ?_
    rw [Function.update_of_ne hx.ne']
  | case2 s i hi =>
    have (x : ℕ) : ¬ (i ≤ x ∧ x < pages) := by omega
    simp [this]

private theorem buddyInitFree_eq (s : BuddyState) (i pages : ℕ)
    (h0 : ∀ x, i ≤ x → x < pages → s.count x = 0) :
    buddyInitFree s i pages =
      { s with count := fun x => if i ≤ x ∧ x < pages then pgFree else s.count x } := by
  fun_induction buddyInitFree s i pages with
  | case1 s i hi ih =>
    have hfree := freePages_of_count_zero (h0 i le_rfl hi) 0 pages
    rw [ih ?_, freePage_eq, hfree]
    · simp only [BuddyState.mk.injEq, true_and]
      exact ite_update_eq (F := fun _ => pgFree) hi fun _ _ => rfl
    · intro x hx hx'
      have hne : x ≠ i := by omega
      rw [freePage_eq, hfree]
      simpa [hne] using h0 x (by omega) hx'
  | case2 s i hi =>
    have (x : ℕ) : ¬ (i ≤ x ∧ x < pages) := by omega
    simp [this]

/-! ### The state after initialisation -/

/-- The number of blocks that `buddy_init` leaves on the highest free list. -/
def initBlocks (kernelPfnEnd : ℕ) (pages : ℕ := allPfn) : ℕ :=
  (pages - (kernelPfnEnd + 1) - 1) / maxLevelCount

private theorem memInit_eq {k pages : ℕ} (hk : k < pages) :
    memInit k pages =
      ⟨(listPop (buddyInitBlocks Links.isolated (k + 1) pages) (.freeLists maxLevelIndex)).2,
        (allPageInit k).count⟩ := by
  have htail : k ≤ pages - (pages - k) % maxLevelCount := by
    have := Nat.mod_le (pages - k) maxLevelCount
    omega
  have hcount (x : ℕ) (hx : pages - (pages - k) % maxLevelCount ≤ x) :
      (allPageInit k).count x = pgFree := by
    have : ¬ x < k := by omega
    simp [allPageInit, this]
  rw [memInit, buddyInit, buddyInitPush_eq, buddyInitFree_eq]
  · simp only [BuddyState.mk.injEq]
    refine ⟨rfl, ?_⟩
    funext x
    split_ifs with hx
    · exact (hcount x hx.1).symm
    · rfl
  · intro x hx hx'
    have : pages - (pages - k) % maxLevelCount ≤ x ∧ x < pages := ⟨hx, hx'⟩
    simp only [this, and_self, ↓reduceIte, hcount x hx]
    decide

/-- The counts after initialisation: zero below `kernel_pfn_end`, `PG_FREE` from there on. -/
theorem memInit_count {k pages : ℕ} (hk : k < pages) (x : ℕ) :
    (memInit k pages).count x = if x < k then 0 else pgFree := by
  rw [memInit_eq hk]
  rfl

/-- The free lists after initialisation: every block that `buddy_init` listed but the last. -/
theorem memInit_freeLists {k pages : ℕ} (hk : k < pages) :
    FreeLists (memInit k pages).links (topList (initList (k + 1) (initBlocks k pages))) := by
  have hpos : 0 < maxLevelCount := by decide
  have hiso : FreeLists Links.isolated (topList []) := by
    have : topList [] = fun _ => [] := by funext l; simp [topList]
    rw [this]
    exact FreeLists.isolated
  rw [memInit_eq hk]
  rcases Nat.eq_or_lt_of_le (Nat.succ_le_of_lt hk) with hlast | hlt
  · -- no page above the kernel: nothing was listed, nothing is popped
    have hz : pages - (k + 1) - 1 = 0 := by omega
    have hb : initBlocks k pages = 0 := by simp [initBlocks, hz]
    have hL := buddyInitBlocks_freeLists pages 0 hiso (i := k + 1) (by simp) (by omega) (by simp)
    have hempty : listEmpty (buddyInitBlocks Links.isolated (k + 1) pages)
        (.freeLists maxLevelIndex) = true :=
      (Rings.empty_iff hL _).mpr (by simp [initList, topList])
    simpa [listPop, hempty, hb, initList] using hL
  · have hdiv := Nat.div_add_mod (pages - (k + 1) - 1) maxLevelCount
    have hmod := Nat.mod_lt (pages - (k + 1) - 1) hpos
    have hL := buddyInitBlocks_freeLists pages (initBlocks k pages + 1) hiso (i := k + 1) (by simp)
      (by simp only [initBlocks, mul_add]; omega) fun m hm => by
        have := Nat.mul_le_mul_left maxLevelCount (Nat.lt_succ_iff.mp hm)
        simp only [initBlocks] at this
        omega
    rw [List.append_nil, initList_succ] at hL
    obtain ⟨hpop, hrest⟩ := FreeLists.pop_cons (j := maxLevelIndex) hL
      (p := k + 1 + maxLevelCount * initBlocks k pages) (t := initList (k + 1) (initBlocks k pages))
      (by simp [topList])
    rw [hpop]
    rwa [update_topList] at hrest

end RiscvLab.Mm
