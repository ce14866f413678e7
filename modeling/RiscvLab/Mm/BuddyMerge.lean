import RiscvLab.Mm.BuddyTiling
import Mathlib.Data.Finset.Insert

/-!
# Merging free blocks

`buddy_free` joins a block with its buddy while the list of the level is not empty and the first
page of the buddy has the count `PG_FREE`. This is also the count of the first page if the buddy has
been split and only its first part is free. `buddy_free` then takes this part off the list of its
own level and joins the block with pages that are allocated (`exists_merge_with_allocated`).

In this file the free lists are sets. A page that is allocated has the count zero, and the count is
set back just before `buddy_free`. As long as `buddy_free` meets no buddy that is split, the free
and the allocated blocks are a tiling of the memory that the allocator has started with, and each
merge finds its buddy on the list of the level.

## Main definitions

* `SetState`, `SetStep` : the allocator with sets as free lists.
* `MergeAll` : a property of the merges of a call of `buddy_free`.
* `Partition` : the free and the allocated blocks are a tiling.

## Main results

* `partition_of_reachable`.

Source: `mm/mm.c`, lines 28–107; `mm/page.c`, lines 29–32.
-/

namespace RiscvLab.Mm

open Library

/-! ### The allocator -/

/-- The free lists as sets, the counts, and the blocks that have been handed out. -/
structure SetState where
  free : ℕ → Finset ℕ
  count : ℕ → BitVec 32
  out : Finset (ℕ × ℕ)

/-- A page is taken off the list that it is on. -/
def unlist (F : ℕ → Finset ℕ) (page l : ℕ) : Finset ℕ := (F l).erase page

/-- A page is put on a list. -/
def enlist (F : ℕ → Finset ℕ) (page level : ℕ) : ℕ → Finset ℕ :=
  Function.update F level (insert page (F level))

/-- The loop of `buddy_alloc` that splits a block. -/
def splitSets (pages page order : ℕ) : ℕ → (ℕ → Finset ℕ) → ℕ → Finset ℕ
  | 0, F => F
  | j + 1, F =>
    if j + 1 > order then
      match findBuddy page j pages with
      | none => F
      | some buddyPage => splitSets pages page order j (enlist F buddyPage j)
    else F

/-- The merging loop of `buddy_free`. -/
def mergeSets (pages : ℕ) (count : ℕ → BitVec 32) :
    ℕ → (ℕ → Finset ℕ) → ℕ → ℕ → (ℕ → Finset ℕ) × ℕ × ℕ
  | 0, F, page, level => (F, page, level)
  | n + 1, F, page, level =>
    if F level = ∅ then (F, page, level)
    else
      match findBuddy page level pages with
      | none => (F, page, level)
      | some buddyPage =>
        if count buddyPage ≠ pgFree then (F, page, level)
        else
          mergeSets pages count n (unlist (unlist F buddyPage) page)
            (if page < buddyPage then page else buddyPage) (level + 1)

/-- All merges of the loop have the property `P` of the lists, the buddy and the level. -/
def MergeAll (P : (ℕ → Finset ℕ) → ℕ → ℕ → Prop) (pages : ℕ) (count : ℕ → BitVec 32) :
    ℕ → (ℕ → Finset ℕ) → ℕ → ℕ → Prop
  | 0, _, _, _ => True
  | n + 1, F, page, level =>
    if F level = ∅ then True
    else
      match findBuddy page level pages with
      | none => True
      | some buddyPage =>
        if count buddyPage ≠ pgFree then True
        else
          P F buddyPage level ∧ MergeAll P pages count n (unlist (unlist F buddyPage) page)
            (if page < buddyPage then page else buddyPage) (level + 1)

instance MergeAll.decidable {P : (ℕ → Finset ℕ) → ℕ → ℕ → Prop} [∀ F b l, Decidable (P F b l)]
    (pages : ℕ) (count : ℕ → BitVec 32) :
    ∀ n F page level, Decidable (MergeAll P pages count n F page level)
  | 0, _, _, _ => .isTrue trivial
  | n + 1, F, page, level =>
    if hempty : F level = ∅ then .isTrue (by rw [MergeAll, if_pos hempty]; trivial)
    else
      match hbuddy : findBuddy page level pages with
      | none => .isTrue (by rw [MergeAll, if_neg hempty, hbuddy]; trivial)
      | some b =>
        if hcount : count b ≠ pgFree then
          .isTrue (by rw [MergeAll, if_neg hempty, hbuddy]; exact (if_pos hcount).mpr trivial)
        else
          have := MergeAll.decidable (P := P) pages count n (unlist (unlist F b) page)
            (if page < b then page else b) (level + 1)
          decidable_of_iff (P F b level ∧ MergeAll P pages count n (unlist (unlist F b) page)
            (if page < b then page else b) (level + 1))
            (by rw [MergeAll, if_neg hempty, hbuddy]; exact iff_of_eq (if_neg hcount).symm)

inductive SetEvent
  | alloc (order page : ℕ)
  | free (page order : ℕ)

/-- `buddy_alloc` takes the page `p` off the list of the level `lv`. The count of the page becomes
zero. -/
def SetState.alloc (pages : ℕ) (s : SetState) (order lv p : ℕ) : SetState :=
  ⟨splitSets pages p order lv (Function.update s.free lv ((s.free lv).erase p)),
    Function.update s.count p 0, insert (p, order) s.out⟩

/-- The count is set back, and then `buddy_free` is called. -/
def SetState.release (pages : ℕ) (s : SetState) (p order : ℕ) : SetState :=
  let count := Function.update s.count p pgFree
  let (F, page, level) := mergeSets pages count (maxLevelIndex - order) s.free p order
  ⟨enlist F page level, count, s.out.erase (p, order)⟩

/-- `buddy_alloc` takes any block of the lowest level that is not empty. -/
def SetStep (pages : ℕ) (s : SetState) (e : SetEvent) (s' : SetState) : Prop :=
  match e with
  | .alloc order p => ∃ lv, order ≤ lv ∧ lv < maxLevel ∧
      (∀ l < lv, order ≤ l → s.free l = ∅) ∧ p ∈ s.free lv ∧ s' = s.alloc pages order lv p
  | .free p order => (p, order) ∈ s.out ∧ s' = s.release pages p order

/-- The free blocks. -/
def freeBlocks (F : ℕ → Finset ℕ) : Set (ℕ × ℕ) := {b | b.1 ∈ F b.2}

/-- The allocator starts with aligned blocks of the highest level, which cover `X`. -/
def SetState.Start (pages : ℕ) (X : Set ℕ) (s : SetState) : Prop :=
  (∀ l ≠ maxLevelIndex, s.free l = ∅) ∧
    (∀ i ∈ s.free maxLevelIndex, maxLevelCount ∣ i ∧ i + maxLevelCount ≤ pages) ∧
    X = ⋃ i ∈ s.free maxLevelIndex, span (i, maxLevelIndex) ∧
    (∀ x ∈ X, s.count x = pgFree) ∧ s.out = ∅

/-- The free and the allocated blocks are pairwise disjoint and cover `X`. -/
structure Partition (X : Set ℕ) (s : SetState) : Prop where
  tiling : Tiling (freeBlocks s.free ∪ s.out) X
  apart : Disjoint (freeBlocks s.free) s.out

/-- Each merge of `buddy_free` is with a member of the list of the level. -/
def MergesListed (pages : ℕ) (s : SetState) (p order : ℕ) : Prop :=
  MergeAll (fun F b level => b ∈ F level) pages (Function.update s.count p pgFree)
    (maxLevelIndex - order) s.free p order

/-- No merge of `buddy_free` is with a buddy whose first part is a free block of its own. -/
def NoSplitBuddy (pages : ℕ) (s : SetState) (p order : ℕ) : Prop :=
  MergeAll (fun F b level => ∀ m < level, b ∉ F m) pages (Function.update s.count p pgFree)
    (maxLevelIndex - order) s.free p order

/-- The calls of `buddy_free` that meet no buddy that is split. -/
def Whole (pages : ℕ) (s : SetState) (e : SetEvent) : Prop :=
  match e with
  | .alloc _ _ => True
  | .free p order => NoSplitBuddy pages s p order

/-! ### A block in hand -/

/-- The buddy of an aligned block is the other half of an aligned block. -/
theorem buddy_cases {p l : ℕ} (h : 2 ^ l ∣ p) : (2 ^ (l + 1) ∣ p ∧ p ^^^ 2 ^ l = p + 2 ^ l) ∨
    ∃ q, p = q + 2 ^ l ∧ 2 ^ (l + 1) ∣ q ∧ p ^^^ 2 ^ l = q := by
  obtain ⟨a, rfl⟩ := h
  have hxor := xor_two_pow_mul_add a (Nat.two_pow_pos l)
  rw [Nat.add_zero, Nat.add_zero] at hxor
  obtain ⟨c, rfl | rfl⟩ := Nat.even_or_odd' a
  · refine .inl ⟨⟨c, by rw [Nat.pow_succ, Nat.mul_assoc]⟩, ?_⟩
    rw [hxor, Nat.xor_one_of_even (even_two_mul c), Nat.mul_succ]
  · refine .inr ⟨2 ^ l * (2 * c), by rw [Nat.mul_succ],
      ⟨c, by rw [Nat.pow_succ, Nat.mul_assoc]⟩, ?_⟩
    rw [hxor, Nat.xor_one_of_odd ⟨c, rfl⟩, Nat.add_sub_cancel]

theorem findBuddy_eq_some {p l b pages : ℕ} (h : findBuddy p l pages = some b) :
    b = p ^^^ 2 ^ l := by
  simp only [findBuddy] at h
  split_ifs at h
  exact (Option.some_inj.1 h).symm

/-- With a page, all of its block of the highest level is in `X`. -/
def WholeBlocks (X : Set ℕ) : Prop :=
  ∀ x ∈ X, ∀ y, y / maxLevelCount = x / maxLevelCount → y ∈ X

/-- A block that is neither free nor handed out, beside the others. -/
structure Hand (X : Set ℕ) (O : Set (ℕ × ℕ)) (F : ℕ → Finset ℕ) (page level : ℕ) : Prop where
  tiling : Tiling (insert (page, level) (freeBlocks F ∪ O)) X
  notMem : (page, level) ∉ freeBlocks F ∪ O
  apart : Disjoint (freeBlocks F) O

namespace Hand

variable {pages : ℕ} {X : Set ℕ} {count : ℕ → BitVec 32} {O : Set (ℕ × ℕ)} {F : ℕ → Finset ℕ}
  {page level b : ℕ}

variable (h : Hand X O F page level)

include h

theorem aligned : 2 ^ level ∣ page :=
  h.tiling.aligned _ (Set.mem_insert _ _)

theorem notMem_free (l : ℕ) : page ∉ F l := by
  intro hmem
  have hmem' : (page, l) ∈ freeBlocks F ∪ O := .inl hmem
  exact h.tiling.notMem_of_insert h.notMem hmem' (mem_span_self (page, level))
    (mem_span_self (page, l))

theorem level_eq {l m : ℕ} (hl : b ∈ F l) (hm : b ∈ F m) : l = m := by
  have hl' : (b, l) ∈ insert (page, level) (freeBlocks F ∪ O) := .inr (.inl hl)
  have hm' : (b, m) ∈ insert (page, level) (freeBlocks F ∪ O) := .inr (.inl hm)
  exact (Prod.ext_iff.1 (h.tiling.eq_of_mem hl' hm' (mem_span_self (b, l))
    (mem_span_self (b, m)))).2

theorem freeBlocks_unlist {l : ℕ} (hb : b ∈ F l) :
    freeBlocks F = insert (b, l) (freeBlocks (unlist (unlist F b) page)) := by
  ext ⟨i, m⟩
  simp only [freeBlocks, unlist, Set.mem_ofPred_eq, Set.mem_insert_iff, Prod.mk.injEq,
    Finset.mem_erase]
  constructor
  · intro hi
    by_cases hib : i = b
    · subst hib
      exact .inl ⟨rfl, h.level_eq hi hb⟩
    · exact .inr ⟨fun e => h.notMem_free m (e ▸ hi), hib, hi⟩
  · rintro (⟨rfl, rfl⟩ | ⟨-, -, hi⟩)
    · exact hb
    · exact hi

theorem merge (hb : page ^^^ 2 ^ level ∈ F level) :
    Hand X O (unlist (unlist F (page ^^^ 2 ^ level)) page)
      (if page < page ^^^ 2 ^ level then page else page ^^^ 2 ^ level) (level + 1) := by
  have hfree := h.freeBlocks_unlist hb
  have hmem : (page ^^^ 2 ^ level, level) ∈ freeBlocks F := hb
  have hnotO : (page ^^^ 2 ^ level, level) ∉ O := Set.disjoint_left.1 h.apart hmem
  have hsub : freeBlocks (unlist (unlist F (page ^^^ 2 ^ level)) page) ⊆ freeBlocks F := by
    rw [hfree]
    exact Set.subset_insert _ _
  have hlow : (page, level) ∉ freeBlocks (unlist (unlist F (page ^^^ 2 ^ level)) page) ∪ O :=
    fun hmem => h.notMem (Set.union_subset_union_left O hsub hmem)
  have hhigh : (page ^^^ 2 ^ level, level) ∉
      freeBlocks (unlist (unlist F (page ^^^ 2 ^ level)) page) ∪ O := by
    rintro (hmem | hmem)
    · simp [freeBlocks, unlist] at hmem
    · exact hnotO hmem
  have htile := h.tiling
  rw [hfree, Set.insert_union] at htile
  have hpos := Nat.two_pow_pos level
  rcases buddy_cases h.aligned with ⟨hdvd, hbuddy⟩ | ⟨q, hq, hdvd, hbuddy⟩
  · rw [hbuddy] at htile hlow hhigh hsub ⊢
    rw [if_pos (by omega)]
    obtain ⟨htile', hnot⟩ := htile.merge hdvd hlow hhigh
    exact ⟨htile', hnot, h.apart.mono_left hsub⟩
  · rw [hbuddy] at htile hlow hhigh hsub ⊢
    rw [if_neg (by omega)]
    rw [Set.insert_comm] at htile
    obtain ⟨htile', hnot⟩ := Tiling.merge (by rwa [← hq]) hdvd hhigh (by rwa [← hq])
    exact ⟨htile', hnot, h.apart.mono_left hsub⟩

/-- The block and its buddy are the halves of an aligned block. -/
theorem exists_whole : ∃ low, 2 ^ (level + 1) ∣ low ∧
    2 ^ level ∣ page ^^^ 2 ^ level ∧ page ∈ span (low, level + 1) ∧
      page ^^^ 2 ^ level ∈ span (low, level + 1) ∧
      page ^^^ 2 ^ level ∉ span (page, level) := by
  have hpow : 2 ^ level ∣ 2 ^ (level + 1) := pow_dvd_pow 2 (Nat.le_succ level)
  have hpos := Nat.two_pow_pos level
  simp only [span, Set.mem_Ico, Nat.pow_succ]
  rcases buddy_cases h.aligned with ⟨hdvd, hbuddy⟩ | ⟨q, hq, hdvd, hbuddy⟩
  · refine ⟨page, hdvd, ?_, by omega, by omega, by omega⟩
    rw [hbuddy]
    exact Nat.dvd_add (dvd_trans hpow hdvd) dvd_rfl
  · refine ⟨q, hdvd, ?_, by omega, by omega, by omega⟩
    rw [hbuddy]
    exact dvd_trans hpow hdvd

/-- If the first page of the buddy is not the first one of an allocated block, it is the first one
of a free block, which may be smaller. -/
theorem exists_free (hlevel : level < maxLevelIndex) (hpool : WholeBlocks X)
    (hO : ∀ b ∈ O, count b.1 = 0) (hcount : count (page ^^^ 2 ^ level) = pgFree) :
    ∃ m ≤ level, page ^^^ 2 ^ level ∈ F m := by
  obtain ⟨low, hlow, hdvd, hpage, hbuddy, hnot⟩ := h.exists_whole
  generalize page ^^^ 2 ^ level = b at hdvd hbuddy hnot hcount ⊢
  have hX : page ∈ X := by
    rw [← h.tiling.cover]
    exact Set.mem_biUnion (Set.mem_insert _ _) (mem_span_self (page, level))
  -- both halves are in the same block of the highest level
  have hsame : b / maxLevelCount = page / maxLevelCount := by
    have hsub := span_subset_of_mem (b := (low, level + 1))
      (c := (maxLevelCount * (low / maxLevelCount), maxLevelIndex)) hlow (dvd_mul_right _ _) hlevel
      (mem_span_self _) ⟨Nat.mul_div_le _ _, Nat.lt_mul_div_succ _ (by decide)⟩
    have hdiv : ∀ x ∈ span (low, level + 1), x / maxLevelCount = low / maxLevelCount := by
      intro x hx
      obtain ⟨hge, hlt⟩ := hsub hx
      refine Nat.div_eq_of_lt_le ?_ ?_
      · rwa [Nat.mul_comm]
      · rwa [Nat.succ_mul, Nat.mul_comm]
    rw [hdiv b hbuddy, hdiv page hpage]
  have hbX := hpool page hX b hsame
  rw [← h.tiling.cover] at hbX
  obtain ⟨c, hc, hbc⟩ := Set.mem_iUnion₂.1 hbX
  have halign := h.tiling.aligned c hc
  rcases hc with rfl | hc
  · exact absurd hbc hnot
  · have hle : c.2 ≤ level := by
      by_contra hlt
      have hsub := span_subset_of_mem (b := (low, level + 1)) hlow halign
        (Nat.succ_le_of_lt (Nat.lt_of_not_le hlt)) hbuddy hbc
      exact h.tiling.notMem_of_insert h.notMem hc (mem_span_self (page, level)) (hsub hpage)
    have hsub := span_subset_of_mem (c := (b, level)) halign hdvd hle hbc (mem_span_self _)
    obtain rfl : c.1 = b := le_antisymm hbc.1 (hsub (mem_span_self c)).1
    rcases hc with hc | hc
    · exact ⟨c.2, hle, hc⟩
    · rw [hO c hc] at hcount
      exact absurd hcount (by decide)

/-- The buddy is on the list of the level unless it has been split. -/
theorem mem_iff (hlevel : level < maxLevelIndex) (hpool : WholeBlocks X)
    (hO : ∀ b ∈ O, count b.1 = 0) (hcount : count (page ^^^ 2 ^ level) = pgFree) :
    page ^^^ 2 ^ level ∈ F level ↔ ∀ m < level, page ^^^ 2 ^ level ∉ F m := by
  constructor
  · intro hmem m hm hmem'
    exact hm.ne (h.level_eq hmem' hmem)
  · intro hno
    obtain ⟨m, hle, hmem⟩ := h.exists_free hlevel hpool hO hcount
    rcases hle.lt_or_eq with hlt | rfl
    · exact absurd hmem (hno m hlt)
    · exact hmem

/-! ### The loop -/

/-- The merges are with members of the lists exactly if they are with no buddy that is split. -/
theorem mergeAll_iff {n : ℕ} (hn : level + n = maxLevelIndex) (hpool : WholeBlocks X)
    (hO : ∀ b ∈ O, count b.1 = 0) :
    MergeAll (fun F b level => b ∈ F level) pages count n F page level ↔
      MergeAll (fun F b level => ∀ m < level, b ∉ F m) pages count n F page level := by
  induction n generalizing F page level with
  | zero => exact Iff.rfl
  | succ n ih =>
    unfold MergeAll
    split_ifs
    · exact Iff.rfl
    cases hbuddy : findBuddy page level pages with
    | none => exact Iff.rfl
    | some b =>
      obtain rfl := findBuddy_eq_some hbuddy
      dsimp only
      by_cases hcount : count (page ^^^ 2 ^ level) = pgFree
      · rw [if_neg (not_not.2 hcount), if_neg (not_not.2 hcount),
          ← h.mem_iff (by omega) hpool hO hcount]
        exact and_congr_right fun hmem => ih (h.merge hmem) (by omega)
      · rw [if_pos hcount, if_pos hcount]

/-- What the loop leaves, if it merges with members of the lists only. -/
theorem mergeSets {n : ℕ}
    (hall : MergeAll (fun F b level => b ∈ F level) pages count n F page level) :
    Hand X O (mergeSets pages count n F page level).1
      (mergeSets pages count n F page level).2.1 (mergeSets pages count n F page level).2.2 := by
  induction n generalizing F page level with
  | zero => exact h
  | succ n ih =>
    unfold MergeAll at hall
    unfold Mm.mergeSets
    split_ifs at hall ⊢ with hempty
    · exact h
    cases hbuddy : findBuddy page level pages with
    | none => exact h
    | some b =>
      obtain rfl := findBuddy_eq_some hbuddy
      rw [hbuddy] at hall
      dsimp only at hall ⊢
      by_cases hcount : count (page ^^^ 2 ^ level) = pgFree
      · rw [if_neg (not_not.2 hcount)] at hall ⊢
        exact ih (h.merge hall.1) hall.2
      · rw [if_pos hcount]
        exact h

end Hand

/-! ### The lists as sets -/

theorem freeBlocks_enlist (F : ℕ → Finset ℕ) (page level : ℕ) :
    freeBlocks (enlist F page level) = insert (page, level) (freeBlocks F) := by
  ext ⟨i, m⟩
  by_cases hm : m = level
  · subst hm
    simp [freeBlocks, enlist]
  · simp [freeBlocks, enlist, hm]

theorem freeBlocks_pop {F : ℕ → Finset ℕ} {page level : ℕ} (h : page ∈ F level) :
    freeBlocks F =
        insert (page, level) (freeBlocks (Function.update F level ((F level).erase page))) ∧
      (page, level) ∉ freeBlocks (Function.update F level ((F level).erase page)) := by
  refine ⟨?_, by simp [freeBlocks]⟩
  ext ⟨i, m⟩
  by_cases hm : m = level
  · subst hm
    by_cases hi : i = page
    · subst hi
      simpa [freeBlocks] using h
    · simp [freeBlocks, hi]
  · simp [freeBlocks, hm]

theorem splitSets_self (pages page order : ℕ) (F : ℕ → Finset ℕ) :
    splitSets pages page order order F = F := by
  cases order with
  | zero => rfl
  | succ j => rw [splitSets, if_neg (by omega)]

namespace Hand

variable {pages : ℕ} {X : Set ℕ} {O : Set (ℕ × ℕ)} {F : ℕ → Finset ℕ} {page level order : ℕ}

/-- The upper half of the block is put on its list. -/
theorem split (h : Hand X O F page (level + 1)) :
    Hand X O (enlist F (page + 2 ^ level) level) page level := by
  obtain ⟨htile, hhigh, hlow⟩ := h.tiling.split h.notMem
  rw [← Set.insert_union, ← freeBlocks_enlist] at htile hlow
  refine ⟨htile, hlow, ?_⟩
  rw [freeBlocks_enlist, Set.disjoint_insert_left]
  exact ⟨fun hmem => hhigh (.inr hmem), h.apart⟩

theorem splitSets (h : Hand X O F page level) (hX : ∀ x ∈ X, x < pages)
    (ho : order ≤ level) : Hand X O (splitSets pages page order level F) page order := by
  induction level, ho using Nat.le_induction generalizing F with
  | base => rwa [splitSets_self]
  | succ level ho ih =>
    have hxor : page ^^^ 2 ^ level = page + 2 ^ level := xor_two_pow_of_dvd h.aligned
    have hmem : page + 2 ^ level ∈ X := by
      rw [← h.tiling.cover]
      refine Set.mem_biUnion (Set.mem_insert _ _) ?_
      rw [span_succ]
      exact .inr (mem_span_self _)
    have hbuddy : findBuddy page level pages = some (page ^^^ 2 ^ level) :=
      findBuddy_of_lt (hxor ▸ hX _ hmem)
    rw [Mm.splitSets, if_pos (by omega), hbuddy, hxor]
    exact ih h.split

end Hand

/-! ### Runs -/

namespace Partition

variable {pages : ℕ} {X : Set ℕ} {s : SetState} {p order : ℕ}

theorem hand (h : Partition X s) (hmem : (p, order) ∈ s.out) :
    Hand X (s.out.erase (p, order)) s.free p order := by
  have hinsert : insert (p, order) (freeBlocks s.free ∪ ↑(s.out.erase (p, order))) =
      freeBlocks s.free ∪ ↑s.out := by
    rw [← Set.union_insert, ← Finset.coe_insert, Finset.insert_erase hmem]
  refine ⟨?_, ?_, ?_⟩
  · rw [hinsert]
    exact h.tiling
  · rintro (hfree | hout)
    · exact Set.disjoint_left.1 h.apart hfree hmem
    · exact Finset.notMem_erase _ _ hout
  · exact h.apart.mono_right (Finset.coe_subset.2 (Finset.erase_subset _ _))

theorem pop (h : Partition X s) {lv : ℕ} (hp : p ∈ s.free lv) :
    Hand X s.out (Function.update s.free lv ((s.free lv).erase p)) p lv := by
  obtain ⟨hfree, hnot⟩ := freeBlocks_pop hp
  have htile := h.tiling
  have hapart := h.apart
  rw [hfree] at htile hapart
  rw [Set.insert_union] at htile
  rw [Set.disjoint_insert_left] at hapart
  refine ⟨htile, ?_, hapart.2⟩
  rintro (hmem | hmem)
  · exact hnot hmem
  · exact hapart.1 hmem

/-- Blocks that are handed out have different first pages. -/
theorem eq_of_fst_eq (h : Partition X s) {b c : ℕ × ℕ} (hb : b ∈ s.out) (hc : c ∈ s.out)
    (heq : b.1 = c.1) : b = c :=
  h.tiling.eq_of_mem (.inr hb) (.inr hc) (mem_span_self b) (heq ▸ mem_span_self c)

end Partition

theorem Hand.partition_out {X : Set ℕ} {O : Finset (ℕ × ℕ)} {F : ℕ → Finset ℕ} {page level : ℕ}
    (h : Hand X O F page level) (count : ℕ → BitVec 32) :
    Partition X ⟨F, count, insert (page, level) O⟩ := by
  constructor
  · rw [Finset.coe_insert, Set.union_insert]
    exact h.tiling
  · rw [Finset.coe_insert, Set.disjoint_insert_right]
    exact ⟨fun hmem => h.notMem (.inl hmem), h.apart⟩

theorem Hand.partition_free {X : Set ℕ} {O : Finset (ℕ × ℕ)} {F : ℕ → Finset ℕ} {page level : ℕ}
    (h : Hand X O F page level) (count : ℕ → BitVec 32) :
    Partition X ⟨enlist F page level, count, O⟩ := by
  constructor
  · dsimp only
    rw [freeBlocks_enlist, Set.insert_union]
    exact h.tiling
  · dsimp only
    rw [freeBlocks_enlist, Set.disjoint_insert_left]
    exact ⟨fun hmem => h.notMem (.inr hmem), h.apart⟩

/-- What every state of a run has besides the partition. -/
structure SetInv (X : Set ℕ) (s : SetState) : Prop where
  partition : Partition X s
  count : ∀ b ∈ s.out, s.count b.1 = 0
  order_le : ∀ b ∈ s.out, b.2 ≤ maxLevelIndex

namespace SetInv

variable {pages : ℕ} {X : Set ℕ} {s s' : SetState} {p order : ℕ}

theorem count_erase (h : SetInv X s) (hmem : (p, order) ∈ s.out) :
    ∀ b ∈ s.out.erase (p, order), Function.update s.count p pgFree b.1 = 0 := by
  intro b hb
  obtain ⟨hne, hout⟩ := Finset.mem_erase.1 hb
  have hp : b.1 ≠ p := fun heq => hne (h.partition.eq_of_fst_eq hout hmem heq)
  rw [Function.update_of_ne hp]
  exact h.count b hout

theorem mergesListed_iff (h : SetInv X s) (hmem : (p, order) ∈ s.out) (hpool : WholeBlocks X) :
    MergesListed pages s p order ↔ NoSplitBuddy pages s p order :=
  (h.partition.hand hmem).mergeAll_iff (Nat.add_sub_of_le (h.order_le _ hmem)) hpool
    (h.count_erase hmem)

theorem alloc (h : SetInv X s) (hX : ∀ x ∈ X, x < pages)
    (hstep : SetStep pages s (.alloc order p) s') : SetInv X s' := by
  obtain ⟨lv, ho, hlv, -, hp, rfl⟩ := hstep
  have hhand := (h.partition.pop hp).splitSets hX ho
  refine ⟨hhand.partition_out _, ?_, ?_⟩
  · intro b hb
    change Function.update s.count p 0 b.1 = 0
    by_cases hbp : b.1 = p
    · rw [hbp, Function.update_self]
    · rw [Function.update_of_ne hbp]
      rcases Finset.mem_insert.1 hb with rfl | hb
      · exact absurd rfl hbp
      · exact h.count b hb
  · intro b hb
    rcases Finset.mem_insert.1 hb with rfl | hb
    · exact ho.trans (Nat.le_of_lt_succ hlv)
    · exact h.order_le b hb

theorem free (h : SetInv X s) (hpool : WholeBlocks X)
    (hstep : SetStep pages s (.free p order) s') (hwhole : NoSplitBuddy pages s p order) :
    SetInv X s' := by
  obtain ⟨hmem, rfl⟩ := hstep
  have hmerge := (h.partition.hand hmem).mergeSets ((h.mergesListed_iff hmem hpool).2 hwhole)
  exact ⟨hmerge.partition_free _, h.count_erase hmem,
    fun b hb => h.order_le b (Finset.mem_of_mem_erase hb)⟩

end SetInv

namespace SetState.Start

variable {pages : ℕ} {X : Set ℕ} {s : SetState}

theorem mem_pool (h : s.Start pages X) {x : ℕ} (hx : x ∈ X) :
    ∃ i ∈ s.free maxLevelIndex, maxLevelCount ∣ i ∧ i + maxLevelCount ≤ pages ∧
      x ∈ span (i, maxLevelIndex) := by
  obtain ⟨-, hblocks, hX, -⟩ := h
  rw [hX] at hx
  obtain ⟨i, hi, hx⟩ := Set.mem_iUnion₂.1 hx
  exact ⟨i, hi, (hblocks i hi).1, (hblocks i hi).2, hx⟩

theorem lt (h : s.Start pages X) (x : ℕ) (hx : x ∈ X) : x < pages := by
  obtain ⟨i, -, -, hle, hspan⟩ := h.mem_pool hx
  exact lt_of_lt_of_le hspan.2 hle

theorem wholeBlocks (h : s.Start pages X) : WholeBlocks X := by
  intro x hx y hy
  obtain ⟨i, hi, hdvd, -, hspan⟩ := h.mem_pool hx
  obtain ⟨-, -, hX, -⟩ := h
  rw [hX]
  refine Set.mem_biUnion hi ?_
  obtain ⟨q, rfl⟩ := hdvd
  obtain ⟨hle, hlt⟩ := hspan
  have hq : x / maxLevelCount = q := by
    refine Nat.div_eq_of_lt_le ?_ ?_
    · rwa [Nat.mul_comm]
    · rwa [Nat.succ_mul, Nat.mul_comm]
  rw [← hq, ← hy]
  exact ⟨Nat.mul_div_le _ _, Nat.lt_mul_div_succ _ (by decide)⟩

theorem setInv (h : s.Start pages X) : SetInv X s := by
  obtain ⟨hlists, hblocks, hX, hcount, hout⟩ := h
  have hlevel : ∀ b ∈ freeBlocks s.free, b.2 = maxLevelIndex := by
    intro b hb
    by_contra hne
    have hmem : b.1 ∈ s.free b.2 := hb
    rw [hlists _ hne] at hmem
    exact Finset.notMem_empty _ hmem
  have halign : ∀ b ∈ freeBlocks s.free, 2 ^ b.2 ∣ b.1 := by
    rintro ⟨i, m⟩ hb
    obtain rfl : m = maxLevelIndex := hlevel _ hb
    exact (hblocks i hb).1
  have hunion : freeBlocks s.free ∪ (↑s.out : Set (ℕ × ℕ)) = freeBlocks s.free := by
    rw [hout, Finset.coe_empty, Set.union_empty]
  refine ⟨⟨?_, ?_⟩, ?_, ?_⟩
  · rw [hunion]
    refine ⟨halign, ?_, ?_⟩
    · intro b hb c hc hne
      refine Set.disjoint_left.2 fun x hxb hxc => hne ?_
      have hbc : b.2 = c.2 := (hlevel b hb).trans (hlevel c hc).symm
      have h₁ := span_subset_of_mem (halign b hb) (halign c hc) hbc.le hxb hxc
      have h₂ := span_subset_of_mem (halign c hc) (halign b hb) hbc.ge hxc hxb
      exact Prod.ext (le_antisymm (h₂ (mem_span_self c)).1 (h₁ (mem_span_self b)).1) hbc
    · rw [hX]
      ext x
      simp only [Set.mem_iUnion, exists_prop]
      constructor
      · rintro ⟨⟨i, m⟩, hb, hx⟩
        obtain rfl : m = maxLevelIndex := hlevel _ hb
        exact ⟨i, hb, hx⟩
      · rintro ⟨i, hi, hx⟩
        exact ⟨(i, maxLevelIndex), hi, hx⟩
  · rw [hout, Finset.coe_empty]
    exact Set.disjoint_empty _
  · rw [hout]
    exact fun b hb => absurd hb (Finset.notMem_empty b)
  · rw [hout]
    exact fun b hb => absurd hb (Finset.notMem_empty b)

end SetState.Start

/-- In a run in which `buddy_free` meets no buddy that is split, the free and the allocated blocks
are pairwise disjoint and cover the pool. A call that keeps to this merges with members of the lists
only. -/
theorem partition_of_reachable {pages : ℕ} {X : Set ℕ} {s : SetState}
    (hs : Reachable (SetState.Start pages X) (guarded (Whole pages) (SetStep pages)) s) :
    Partition X s ∧ ∀ p order, (p, order) ∈ s.out →
      (MergesListed pages s p order ↔ NoSplitBuddy pages s p order) := by
  obtain ⟨-, hclosed, hinv⟩ := hs.invariant
    (P := fun s => (∀ x ∈ X, x < pages) ∧ WholeBlocks X ∧ SetInv X s)
    (fun s hs => ⟨hs.lt, hs.wholeBlocks, hs.setInv⟩) (by
      rintro s e s' ⟨hlt, hclosed, hinv⟩ ⟨hwhole, hstep⟩
      refine ⟨hlt, hclosed, ?_⟩
      cases e with
      | alloc order p => exact hinv.alloc hlt hstep
      | free p order => exact hinv.free hclosed hstep hwhole)
  exact ⟨hinv.partition, fun p order hmem => hinv.mergesListed_iff hmem hclosed⟩

/-- One free block of the highest level. -/
def setOneBlock : SetState :=
  ⟨fun l => if l = maxLevelIndex then {0} else ∅, fun _ => pgFree, ∅⟩

theorem start_setOneBlock : setOneBlock.Start maxLevelCount (span (0, maxLevelIndex)) := by
  refine ⟨fun l hl => if_neg hl, ?_, ?_, fun _ _ => rfl, rfl⟩
  · intro i hi
    obtain rfl : i = 0 := Finset.mem_singleton.1 hi
    decide
  · simp [setOneBlock]

/-- A page is handed out and handed back. -/
theorem partition_alloc_free :
    Partition (span (0, maxLevelIndex))
      ((setOneBlock.alloc maxLevelCount 0 10 0).release maxLevelCount 0 0) := by
  have halloc : SetStep maxLevelCount setOneBlock (.alloc 0 0)
      (setOneBlock.alloc maxLevelCount 0 10 0) :=
    ⟨10, by decide, by decide, by decide, by decide, rfl⟩
  have hwhole : NoSplitBuddy maxLevelCount (setOneBlock.alloc maxLevelCount 0 10 0) 0 0 := by
    unfold NoSplitBuddy
    decide +kernel
  have hfree : SetStep maxLevelCount (setOneBlock.alloc maxLevelCount 0 10 0) (.free 0 0)
      ((setOneBlock.alloc maxLevelCount 0 10 0).release maxLevelCount 0 0) :=
    ⟨by decide, rfl⟩
  exact (partition_of_reachable (.next (a := SetEvent.free 0 0)
    (.next (a := SetEvent.alloc 0 0) (.start start_setOneBlock) ⟨trivial, halloc⟩)
    ⟨hwhole, hfree⟩)).1

/-- The pages 0 to 5 are handed out as blocks of the orders 0, 1, 1 and 0. Page 0 is handed back and
stays alone, since its list is empty. The block of the pages 2 and 3 is merged with it, although
page 1 is still in use. -/
theorem exists_merge_with_allocated : ∃ s s',
    Reachable (SetState.Start maxLevelCount (span (0, maxLevelIndex))) (SetStep maxLevelCount) s ∧
      SetStep maxLevelCount s (.free 2 1) s' ∧ ¬MergesListed maxLevelCount s 2 1 ∧
      ¬Partition (span (0, maxLevelIndex)) s' := by
  let s₁ := setOneBlock.alloc maxLevelCount 0 10 0
  let s₂ := s₁.alloc maxLevelCount 1 1 2
  let s₃ := s₂.alloc maxLevelCount 1 2 4
  let s₄ := s₃.alloc maxLevelCount 0 0 1
  let s₅ := s₄.release maxLevelCount 0 0
  have h₁ : SetStep maxLevelCount setOneBlock (.alloc 0 0) s₁ :=
    ⟨10, by decide, by decide, by decide, by decide, rfl⟩
  have h₂ : SetStep maxLevelCount s₁ (.alloc 1 2) s₂ :=
    ⟨1, by decide, by decide, by decide +kernel, by decide +kernel, rfl⟩
  have h₃ : SetStep maxLevelCount s₂ (.alloc 1 4) s₃ :=
    ⟨2, by decide, by decide, by decide +kernel, by decide +kernel, rfl⟩
  have h₄ : SetStep maxLevelCount s₃ (.alloc 0 1) s₄ :=
    ⟨0, by decide, by decide, by decide +kernel, by decide +kernel, rfl⟩
  have h₅ : SetStep maxLevelCount s₄ (.free 0 0) s₅ := ⟨by decide +kernel, rfl⟩
  refine ⟨s₅, s₅.release maxLevelCount 2 1,
    .next (.next (.next (.next (.next (.start start_setOneBlock) h₁) h₂) h₃) h₄) h₅,
    ⟨by decide +kernel, rfl⟩, ?_, ?_⟩
  · unfold MergesListed
    decide +kernel
  · intro h
    have hfree : (0, 2) ∈ freeBlocks (s₅.release maxLevelCount 2 1).free := by
      change 0 ∈ (s₅.release maxLevelCount 2 1).free 2
      decide +kernel
    have hout : (1, 0) ∈ (s₅.release maxLevelCount 2 1).out := by decide +kernel
    have := h.tiling.eq_of_mem (.inl hfree) (.inr hout) (x := 1) (Set.mem_Ico.2 (by decide))
      (Set.mem_Ico.2 (by decide))
    exact absurd this (by decide)

end RiscvLab.Mm
