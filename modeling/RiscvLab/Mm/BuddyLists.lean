import RiscvLab.Mm.Buddy
import Mathlib.Data.Nat.Find

/-!
# The free lists as sequences of page numbers

While the free lists are disjoint rings of pages, the pointer operations of `buddy_alloc` act on
the sequences of page numbers: the first block of the lowest nonempty level is popped, and at each
level below it, down to the requested order, the buddy of the popped page is pushed to the front
(`splitLoop_freeLists`, `buddyAlloc_cases`). Nothing here depends on the alignment of the blocks:
the buddy is whatever the exclusive or makes of the page number.
-/

namespace RiscvLab.Mm

open Library

/-- `buddy.free_lists[l]` links the pages `L l`, in this order. -/
abbrev FreeLists (h : Links Node) (L : ℕ → List ℕ) : Prop :=
  Rings h Node.freeLists fun l => (L l).map Node.page

variable {h : Links Node} {L : ℕ → List ℕ} {i j p order pages : ℕ}

theorem FreeLists.addHead (hL : FreeLists h L) (hi : ∀ l, i ∉ L l) :
    FreeLists (listAddHead h (.page i) (.freeLists j)) (Function.update L j (i :: L j)) :=
  Rings.addHead_map hL j fun l => by simpa using hi l

theorem FreeLists.pop_cons {t : List ℕ} (hL : FreeLists h L) (hj : L j = p :: t) :
    listPop h (.freeLists j) = (some (.page p), listDel h (.page p)) ∧
      FreeLists (listDel h (.page p)) (Function.update L j t) :=
  Rings.pop_map hL hj

theorem FreeLists.isolated : FreeLists Links.isolated fun _ => [] where
  ring l := ⟨by simp, rfl, rfl⟩
  disjoint j k hjk := by simpa using hjk

/-- A walk along `free_lists[l]` meets the listed pages. -/
theorem FreeLists.onRing_iff (hL : FreeLists h L) (l : ℕ) :
    OnRing h (.freeLists l) (.page i) ↔ i ∈ L l := by
  rw [(hL.ring l).onRing_iff]
  simp

/-! ### Splitting a block -/

/-- The free lists after `buddy_alloc` has split the block `p` of level `i` down to `order`. -/
def splitLists (L : ℕ → List ℕ) (p order i : ℕ) (j : ℕ) : List ℕ :=
  if order ≤ j ∧ j < i then (p ^^^ 2 ^ j) :: L j else L j

theorem mem_splitLists {q : ℕ} : q ∈ splitLists L p order i j ↔
    (order ≤ j ∧ j < i ∧ q = p ^^^ 2 ^ j) ∨ q ∈ L j := by
  unfold splitLists
  split_ifs with hj
  · simp [hj]
  · tauto

/-- Different levels give a page different buddies. -/
theorem buddy_injective (p : ℕ) : Function.Injective fun j => p ^^^ 2 ^ j := by
  intro i j hij
  have hpow : 2 ^ i = 2 ^ j := by simpa using congrArg (p ^^^ ·) hij
  exact Nat.pow_right_injective (le_refl 2) hpow

/-- The exclusive or with `2^j` flips the lowest bit of the quotient by `2^j`. -/
theorem xor_two_pow_mul_add {j b : ℕ} (a : ℕ) (hb : b < 2 ^ j) :
    (2 ^ j * a + b) ^^^ 2 ^ j = 2 ^ j * (a ^^^ 1) + b := by
  apply Nat.eq_of_testBit_eq
  intro i
  rw [Nat.testBit_xor, Nat.testBit_two_pow_mul_add _ hb, Nat.testBit_two_pow_mul_add _ hb,
    Nat.testBit_two_pow]
  by_cases hi : i < j
  · simp [hi, hi.ne']
  · have h1 : (1 : ℕ).testBit (i - j) = decide (j = i) := by
      rw [show (1 : ℕ) = 2 ^ 0 from rfl, Nat.testBit_two_pow, decide_eq_decide]
      omega
    simp [hi, Nat.testBit_xor, h1]

theorem findBuddy_of_lt (hp : p ^^^ 2 ^ j < pages) :
    findBuddy p j pages = some (p ^^^ 2 ^ j) := by
  simp [findBuddy, Nat.not_le.mpr hp]

/-- The splitting loop pushes one buddy onto each level between `order` and `i`. -/
theorem splitLoop_freeLists (hL : FreeLists h L)
    (hlt : ∀ j, order ≤ j → j < i → p ^^^ 2 ^ j < pages)
    (hfresh : ∀ j, order ≤ j → j < i → ∀ l, p ^^^ 2 ^ j ∉ L l) :
    FreeLists (splitLoop p order i h pages) (splitLists L p order i) := by
  induction i generalizing h L with
  | zero =>
    have : splitLists L p order 0 = L := by funext j; simp [splitLists]
    rwa [this]
  | succ i ih =>
    by_cases hi : order ≤ i
    · have hb := hfresh i hi (Nat.lt_succ_self i)
      have hstep := FreeLists.addHead (j := i) hL hb
      have hrest := ih hstep (fun j hj hji => hlt j hj (by omega)) fun j hj hji l hmem => by
        have hne : p ^^^ 2 ^ j ≠ p ^^^ 2 ^ i := fun e => by
          have := buddy_injective p e
          omega
        by_cases hl : l = i
        · subst hl
          simp only [Function.update_self, List.mem_cons] at hmem
          exact hmem.elim hne (hfresh j hj (by omega) l)
        · rw [Function.update_of_ne hl] at hmem
          exact hfresh j hj (by omega) l hmem
      have hlists : splitLists (Function.update L i ((p ^^^ 2 ^ i) :: L i)) p order i =
          splitLists L p order (i + 1) := by
        funext j
        rcases Nat.lt_trichotomy j i with hj | rfl | hj
        · have : j < i + 1 := by omega
          simp [splitLists, hj, this, hj.ne]
        · simp [splitLists, hi]
        · have hj₁ : ¬ j < i := by omega
          have hj₂ : ¬ j < i + 1 := by omega
          simp [splitLists, hj₁, hj₂, hj.ne']
      rw [hlists] at hrest
      simpa [splitLoop, Nat.lt_succ_iff, hi, findBuddy_of_lt (hlt i hi (Nat.lt_succ_self i))]
        using hrest
    · have : splitLists L p order (i + 1) = L := by
        funext j
        have : ¬ (order ≤ j ∧ j < i + 1) := by omega
        simp only [splitLists, if_neg this]
      have hi' : ¬ order < i + 1 := by omega
      rw [this]
      simpa [splitLoop, hi'] using hL

/-! ### Searching the levels -/

private theorem buddyAllocLoop_none {s : BuddyState} (hL : FreeLists s.links L) (n : ℕ)
    (he : ∀ l, i ≤ l → l < i + n → L l = []) : buddyAllocLoop order s n i pages = (none, s) := by
  induction n generalizing i with
  | zero => rfl
  | succ n ih =>
    have hempty : listEmpty s.links (.freeLists i) = true :=
      (Rings.empty_iff hL i).mpr (by simp [he i le_rfl (by omega)])
    simp only [buddyAllocLoop, hempty, ↓reduceIte]
    exact ih fun l hl hl' => he l (by omega) (by omega)

private theorem buddyAllocLoop_some {s : BuddyState} (hL : FreeLists s.links L) (n : ℕ) {lv : ℕ}
    {t : List ℕ} (hlv : i ≤ lv) (hlv' : lv < i + n) (he : ∀ l, i ≤ l → l < lv → L l = [])
    (hp : L lv = p :: t) : buddyAllocLoop order s n i pages =
      (some p, { s with links := splitLoop p order lv (listDel s.links (.page p)) pages }) := by
  induction n generalizing i with
  | zero => omega
  | succ n ih =>
    rcases Nat.eq_or_lt_of_le hlv with rfl | hlt
    · have hne : listEmpty s.links (.freeLists i) = false := by
        simpa [hp] using (Rings.empty_iff hL i).not
      simp [buddyAllocLoop, hne, (FreeLists.pop_cons hL hp).1]
    · have hempty : listEmpty s.links (.freeLists i) = true :=
        (Rings.empty_iff hL i).mpr (by simp [he i le_rfl hlt])
      simp only [buddyAllocLoop, hempty, ↓reduceIte]
      exact ih (by omega) (by omega) fun l hl hl' => he l (by omega) hl'

/-- `buddy_alloc` of an admissible order fails without any effect when the levels from `order` on
are empty, and otherwise takes the first block of the lowest nonempty one and splits it. -/
theorem buddyAlloc_cases {s : BuddyState} (hL : FreeLists s.links L) (ho : order < maxLevel)
    (pages : ℕ) :
    ((∀ l, order ≤ l → l < maxLevel → L l = []) ∧ buddyAlloc s order pages = (none, s)) ∨
    ∃ lv p t, order ≤ lv ∧ lv < maxLevel ∧ (∀ l, order ≤ l → l < lv → L l = []) ∧
      L lv = p :: t ∧ buddyAlloc s order pages =
        (some p, { s with links := splitLoop p order lv (listDel s.links (.page p)) pages }) := by
  have hadm : ¬ ((order : ℤ) < 0 ∨ (order : ℤ) > maxLevelIndex) := by
    simp only [maxLevelIndex, maxLevel] at ho ⊢
    omega
  simp only [buddyAlloc, if_neg hadm, Int.toNat_natCast]
  by_cases hall : ∀ l, order ≤ l → l < maxLevel → L l = []
  · refine Or.inl ⟨hall, buddyAllocLoop_none hL _ fun l hl hl' => hall l hl (by omega)⟩
  · right
    push Not at hall
    have hex : ∃ l, order ≤ l ∧ l < maxLevel ∧ L l ≠ [] := hall
    classical
    obtain ⟨hlo, hlt, hne⟩ := Nat.find_spec hex
    obtain ⟨p, t, hp⟩ := List.exists_cons_of_ne_nil hne
    have hmin : ∀ l, order ≤ l → l < Nat.find hex → L l = [] := by
      intro l hl hlf
      by_contra hc
      exact Nat.find_min hex hlf ⟨hl, by omega, hc⟩
    exact ⟨_, p, t, hlo, hlt, hmin, hp,
      buddyAllocLoop_some hL _ hlo (by omega) hmin hp⟩

end RiscvLab.Mm
