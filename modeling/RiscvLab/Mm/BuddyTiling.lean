import RiscvLab.Mm.BuddySafety
import Mathlib.Data.Set.Pairwise.Lattice

/-!
# The free blocks as a tiling

The blocks of the page allocator are aligned to their size. A set of pairwise disjoint blocks is a
*tiling* of the page frames that it covers. Cutting a block into its halves and joining two halves
keep a tiling (`Tiling.split`, `Tiling.merge`). `buddy_alloc` cuts the block that it has taken off
the lists until it has the requested order.

`buddy_init` does not hand over all the memory. It takes the last block off the list again, and the
pages of this block are only counted up and down (`freePages_of_count_zero`).

## Main definitions

* `Tiling`, `listed`

## Main results

* `buddyAlloc_tiling` : the block that is handed out and the blocks on the lists tile what the lists
  have covered before.
* `memInit_covers_iff` : the pages that `buddy_init` hands over.

Source: `mm/mm.c`, lines 28–78 and 110–138; `mm/page.c`, lines 43–58.
-/

namespace RiscvLab.Mm

open Library

/-! ### Tilings -/

/-- The blocks are aligned, pairwise disjoint, and cover `X`. -/
structure Tiling (B : Set (ℕ × ℕ)) (X : Set ℕ) : Prop where
  aligned : ∀ b ∈ B, 2 ^ b.2 ∣ b.1
  disjoint : B.PairwiseDisjoint span
  cover : ⋃ b ∈ B, span b = X

theorem span_succ (p l : ℕ) : span (p, l + 1) = span (p, l) ∪ span (p + 2 ^ l, l) := by
  ext x
  simp only [span, Nat.pow_succ, Set.mem_union, Set.mem_Ico]
  omega

theorem mem_span_self (b : ℕ × ℕ) : b.1 ∈ span b :=
  ⟨le_rfl, Nat.lt_add_of_pos_right (Nat.two_pow_pos _)⟩

theorem disjoint_halves (p l : ℕ) : Disjoint (span (p, l)) (span (p + 2 ^ l, l)) :=
  disjoint_span_iff.2 (.inl le_rfl)

/-- Aligned blocks with a page in common are nested. -/
theorem span_subset_of_mem {b c : ℕ × ℕ} (hb : 2 ^ b.2 ∣ b.1) (hc : 2 ^ c.2 ∣ c.1) (hle : b.2 ≤ c.2)
    {x : ℕ} (hxb : x ∈ span b) (hxc : x ∈ span c) : span b ⊆ span c := by
  have hpow : 2 ^ b.2 ∣ 2 ^ c.2 := pow_dvd_pow 2 hle
  have hc' : 2 ^ b.2 ∣ c.1 := dvd_trans hpow hc
  have hlow : c.1 ≤ b.1 :=
    Nat.le_of_lt_add_of_dvd (lt_of_le_of_lt hxc.1 hxb.2) hc' hb
  have hend : b.1 + 2 ^ b.2 ≤ c.1 + 2 ^ c.2 := by
    refine Nat.le_of_lt_add_of_dvd (Nat.add_lt_add_right (lt_of_le_of_lt hxb.1 hxc.2) _)
      (Nat.dvd_add hb dvd_rfl) (Nat.dvd_add hc' hpow)
  exact span_subset_span_iff.2 ⟨hlow, hend⟩

namespace Tiling

variable {B : Set (ℕ × ℕ)} {X : Set ℕ} {p l : ℕ} {b c : ℕ × ℕ}

/-- Blocks that have a page in common are the same. -/
theorem eq_of_mem (h : Tiling B X) (hb : b ∈ B) (hc : c ∈ B) {x : ℕ} (hxb : x ∈ span b)
    (hxc : x ∈ span c) : b = c :=
  h.disjoint.elim_set hb hc x hxb hxc

theorem notMem_of_insert (h : Tiling (insert b B) X) (hb : b ∉ B) (hc : c ∈ B) {x : ℕ}
    (hx : x ∈ span b) : x ∉ span c := by
  intro hxc
  have := h.eq_of_mem (Set.mem_insert b B) (Set.mem_insert_of_mem b hc) hx hxc
  exact hb (this ▸ hc)

theorem split (h : Tiling (insert (p, l + 1) B) X) (hp : (p, l + 1) ∉ B) :
    Tiling (insert (p, l) (insert (p + 2 ^ l, l) B)) X ∧ (p + 2 ^ l, l) ∉ B ∧
      (p, l) ∉ insert (p + 2 ^ l, l) B := by
  have hdvd : 2 ^ (l + 1) ∣ p := h.aligned _ (Set.mem_insert _ _)
  have hdvd' : 2 ^ l ∣ p := dvd_trans (pow_dvd_pow 2 (Nat.le_succ l)) hdvd
  have happ : ∀ c ∈ B, Disjoint (span (p, l + 1)) (span c) := by
    intro c hc
    exact Set.disjoint_left.2 fun x hx => h.notMem_of_insert hp hc hx
  have hlow : (p, l) ∉ B := fun hmem => Set.disjoint_left.1 (happ _ hmem)
    (by rw [span_succ]; exact .inl (mem_span_self (p, l))) (mem_span_self (p, l))
  have hhigh : (p + 2 ^ l, l) ∉ B := fun hmem => Set.disjoint_left.1 (happ _ hmem)
    (by rw [span_succ]; exact .inr (mem_span_self (p + 2 ^ l, l))) (mem_span_self (p + 2 ^ l, l))
  have hlow' : (p, l) ∉ insert (p + 2 ^ l, l) B := by
    rintro (heq | hmem)
    · have := Nat.two_pow_pos l
      have := (Prod.ext_iff.1 heq).1
      dsimp only at this
      omega
    · exact hlow hmem
  refine ⟨⟨?_, ?_, ?_⟩, hhigh, hlow'⟩
  · rintro c (rfl | rfl | hc)
    · exact hdvd'
    · exact Nat.dvd_add hdvd' dvd_rfl
    · exact h.aligned c (Set.mem_insert_of_mem _ hc)
  · rw [Set.pairwiseDisjoint_insert_of_notMem hlow', Set.pairwiseDisjoint_insert_of_notMem hhigh]
    have hsub := span_succ p l
    refine ⟨⟨h.disjoint.subset (Set.subset_insert _ _), fun c hc => ?_⟩, ?_⟩
    · exact (happ c hc).mono_left (hsub ▸ Set.subset_union_right)
    · rintro c (rfl | hc)
      · exact disjoint_halves p l
      · exact (happ c hc).mono_left (hsub ▸ Set.subset_union_left)
  · rw [← h.cover, Set.biUnion_insert, Set.biUnion_insert, Set.biUnion_insert, span_succ,
      Set.union_assoc]

theorem merge (h : Tiling (insert (p, l) (insert (p + 2 ^ l, l) B)) X) (hdvd : 2 ^ (l + 1) ∣ p)
    (hlow : (p, l) ∉ B) (hhigh : (p + 2 ^ l, l) ∉ B) :
    Tiling (insert (p, l + 1) B) X ∧ (p, l + 1) ∉ B := by
  have happ : ∀ c ∈ B, Disjoint (span (p, l + 1)) (span c) := by
    intro c hc
    have hmem : c ∈ insert (p, l) (insert (p + 2 ^ l, l) B) := .inr (.inr hc)
    rw [span_succ, Set.disjoint_union_left]
    refine ⟨h.disjoint (.inl rfl) hmem ?_, h.disjoint (.inr (.inl rfl)) hmem ?_⟩
    · rintro rfl
      exact hlow hc
    · rintro rfl
      exact hhigh hc
  have hnot : (p, l + 1) ∉ B := fun hmem =>
    Set.disjoint_left.1 (happ _ hmem) (mem_span_self _) (mem_span_self _)
  refine ⟨⟨?_, ?_, ?_⟩, hnot⟩
  · rintro c (rfl | hc)
    · exact hdvd
    · exact h.aligned c (.inr (.inr hc))
  · rw [Set.pairwiseDisjoint_insert_of_notMem hnot]
    exact ⟨h.disjoint.subset fun c hc => .inr (.inr hc), happ⟩
  · rw [← h.cover, Set.biUnion_insert, Set.biUnion_insert, Set.biUnion_insert, span_succ,
      Set.union_assoc]

end Tiling

/-! ### Splitting on the lists -/

/-- The blocks on the lists. -/
def listed (L : ℕ → List ℕ) : Set (ℕ × ℕ) := {b | b.1 ∈ L b.2}

section Listed

variable {L : ℕ → List ℕ} {X : Set ℕ} {p q l lv order : ℕ} {t : List ℕ}

theorem listed_push : listed (Function.update L l (q :: L l)) = insert (q, l) (listed L) := by
  ext ⟨i, j⟩
  by_cases hj : j = l
  · subst hj
    simp [listed]
  · simp [listed, hj]

theorem listed_pop (hp : L lv = p :: t) (hnot : p ∉ t) :
    listed L = insert (p, lv) (listed (Function.update L lv t)) ∧
      (p, lv) ∉ listed (Function.update L lv t) := by
  refine ⟨?_, by simpa [listed] using hnot⟩
  ext ⟨i, j⟩
  by_cases hj : j = lv
  · subst hj
    simp [listed, hp]
  · simp [listed, hj]

theorem splitLists_self : splitLists L p order order = L := by
  funext j
  simp only [splitLists]
  rw [if_neg (by omega)]

theorem splitLists_succ (ho : order ≤ lv) : splitLists L p order (lv + 1) =
    splitLists (Function.update L lv ((p ^^^ 2 ^ lv) :: L lv)) p order lv := by
  funext j
  rcases Nat.lt_trichotomy j lv with hj | rfl | hj
  · have h : j < lv + 1 := by omega
    simp [splitLists, hj, h, hj.ne]
  · simp [splitLists, ho]
  · have h₁ : ¬j < lv := by omega
    have h₂ : ¬j < lv + 1 := by omega
    simp [splitLists, h₁, h₂, hj.ne']

/-- A block is cut until it has the requested order. -/
theorem Tiling.splitLists (h : Tiling (insert (p, lv) (listed L)) X) (hp : (p, lv) ∉ listed L)
    (ho : order ≤ lv) : Tiling (insert (p, order) (listed (splitLists L p order lv))) X ∧
      (p, order) ∉ listed (Mm.splitLists L p order lv) := by
  induction lv, ho using Nat.le_induction generalizing L with
  | base => rw [splitLists_self]; exact ⟨h, hp⟩
  | succ lv ho ih =>
    have hdvd : 2 ^ (lv + 1) ∣ p := h.aligned _ (Set.mem_insert _ _)
    obtain ⟨htile, -, hnot⟩ := h.split hp
    rw [← xor_two_pow_of_dvd hdvd, ← listed_push] at htile hnot
    rw [splitLists_succ ho]
    exact ih htile hnot

end Listed

/-- `buddy_alloc` fails without any effect exactly if the lists from the order on are empty.
Otherwise the block that it returns and the blocks on the lists tile what the lists have covered
before. -/
theorem buddyAlloc_tiling {s : BuddyState} {L : ℕ → List ℕ} {pages order : ℕ} {X : Set ℕ}
    (hpages : maxLevelCount ∣ pages) (hL : FreeLists s.links L)
    (hlevel : ∀ l, maxLevel ≤ l → L l = []) (hrange : ∀ l, ∀ i ∈ L l, i < pages)
    (htile : Tiling (listed L) X) (ho : order < maxLevel) :
    ((buddyAlloc s order pages).1 = none ↔ ∀ l, order ≤ l → l < maxLevel → L l = []) ∧
      ((buddyAlloc s order pages).1 = none → (buddyAlloc s order pages).2 = s) ∧
      ∀ p, (buddyAlloc s order pages).1 = some p → 2 ^ order ∣ p ∧
        ∃ L', FreeLists (buddyAlloc s order pages).2.links L' ∧ (p, order) ∉ listed L' ∧
          Tiling (insert (p, order) (listed L')) X := by
  have hlt : ∀ l, ∀ i ∈ L l, l < maxLevel := by
    intro l i hi
    by_contra hle
    rw [hlevel l (by omega)] at hi
    cases hi
  have hpool : Pool 0 s.links L pages := by
    refine ⟨hL, hlt, fun l i hi => htile.aligned (i, l) hi, fun l i hi => ⟨Nat.zero_le i, ?_⟩,
      fun l i hi m j hj hne => htile.disjoint hi hj hne⟩
    -- the end of the block is aligned as the end of memory is
    have hl : 2 ^ l ∣ pages := dvd_trans (pow_dvd_pow 2 (by
      have := hlt l i hi
      simp only [maxLevel, maxLevelIndex] at this ⊢
      omega)) hpages
    have hi' : 2 ^ l ∣ i := htile.aligned (i, l) hi
    obtain ⟨a, rfl⟩ := hi'
    obtain ⟨n, rfl⟩ := hl
    have hlt := lt_of_mul_lt_mul_left (hrange l _ hi) (Nat.zero_le _)
    calc 2 ^ l * a + 2 ^ l = 2 ^ l * (a + 1) := by rw [Nat.mul_succ]
      _ ≤ 2 ^ l * n := Nat.mul_le_mul_left _ hlt
  rcases buddyAlloc_cases hL ho pages with ⟨hempty, hnone⟩ | ⟨lv, p, t, hlo, hlv, -, hp, hsome⟩
  · rw [hnone]
    exact ⟨iff_of_true rfl hempty, fun _ => rfl, fun p hp => by cases hp⟩
  · rw [hsome]
    obtain ⟨hpop, hhand⟩ := hpool.pop hp
    obtain ⟨hsplit, hhand'⟩ := hpop.split hhand hlo hlv
    refine ⟨iff_of_false (by simp) fun hempty => ?_, fun h => (by cases h), fun q hq => ?_⟩
    · rw [hempty lv hlo hlv] at hp
      cases hp
    · obtain rfl := Option.some_inj.1 hq
      have hnot : p ∉ t := by
        have hnd := (hL.ring lv).nodup
        rw [hp] at hnd
        have := (List.nodup_cons.1 (List.nodup_cons.1 hnd).2).1
        exact fun hmem => this (List.mem_map_of_mem hmem)
      obtain ⟨heq, hmem⟩ := listed_pop hp hnot
      rw [heq] at htile
      obtain ⟨htile', hnotMem⟩ := htile.splitLists hmem hlo
      exact ⟨hhand'.aligned, _, hsplit.lists, hnotMem, htile'⟩

/-- The allocator with one block of the highest level. -/
def oneBlock : BuddyState := ⟨listAddHead Links.isolated (.page 0) (.freeLists 10), fun _ => pgFree⟩

theorem freeLists_oneBlock : FreeLists oneBlock.links (Function.update (fun _ => []) 10 [0]) :=
  FreeLists.addHead FreeLists.isolated (by simp)

/-- A single page is cut out of the block. -/
theorem buddyAlloc_oneBlock : (buddyAlloc oneBlock 0 1024).1 = some 0 ∧
    ∃ L', FreeLists (buddyAlloc oneBlock 0 1024).2.links L' ∧ (0, 0) ∉ listed L' ∧
      Tiling (insert (0, 0) (listed L')) (span (0, 10)) := by
  have hblock : listed (Function.update (fun _ => []) 10 [0]) = {(0, 10)} := by
    rw [listed_push (L := fun _ => []) (l := 10) (q := 0)]
    simp [listed]
  obtain ⟨-, -, hsome⟩ := @buddyAlloc_tiling oneBlock _ 1024 0 (span (0, 10))
    (show maxLevelCount ∣ 1024 by decide) freeLists_oneBlock
    (fun l hl => by
      have : l ≠ 10 := by simp only [maxLevel] at hl; omega
      simp [this])
    (fun l i hi => by
      by_cases h : l = 10
      · subst h
        simp at hi
        omega
      · simp [h] at hi)
    (by
      rw [hblock]
      exact ⟨by simp, Set.pairwiseDisjoint_singleton _ _, by simp⟩)
    (by decide)
  have hzero : (buddyAlloc oneBlock 0 1024).1 = some 0 := by decide
  exact ⟨hzero, (hsome 0 hzero).2⟩

/-! ### What `buddy_init` hands over -/

/-- The blocks on the free lists. -/
def onLists (s : BuddyState) : Set (ℕ × ℕ) :=
  {b | b.2 < maxLevel ∧ OnRing s.links (.freeLists b.2) (.page b.1)}

theorem mem_onLists_memInit {k pages : ℕ} (hk : k < pages) {b : ℕ × ℕ} :
    b ∈ onLists (memInit k pages) ↔
      b.2 = maxLevelIndex ∧ ∃ m < initBlocks k pages, b.1 = k + 1 + maxLevelCount * m := by
  have hlists := (memInit_freeLists hk).onRing_iff (i := b.1) b.2
  rw [onLists, Set.mem_ofPred_eq, hlists, mem_topList, mem_initList]
  refine ⟨fun h => h.2, fun h => ⟨?_, h⟩⟩
  rw [h.1]
  decide

/-- A page above the kernel is in exactly one block on the free lists if it is below the last block
that `buddy_init` has listed. The blocks contain no other pages. -/
theorem memInit_covers_iff {k pages : ℕ} (hk : k + 1 < pages) :
    (∀ x, k + 1 ≤ x → x < pages → ((∃! b, b ∈ onLists (memInit k pages) ∧ x ∈ span b) ↔
      x < k + 1 + maxLevelCount * ((pages - k - 2) / maxLevelCount))) ∧
    ∀ b ∈ onLists (memInit k pages), span b ⊆ Set.Ico (k + 1) pages := by
  have hcount : maxLevelCount = 1024 := rfl
  have hblocks : initBlocks k pages = (pages - k - 2) / maxLevelCount := by
    rw [initBlocks, show pages - (k + 1) - 1 = pages - k - 2 by omega]
  have hspan : ∀ m x, x ∈ span (k + 1 + maxLevelCount * m, maxLevelIndex) ↔
      k + 1 + maxLevelCount * m ≤ x ∧ x < k + 1 + maxLevelCount * m + maxLevelCount :=
    fun m x => Iff.rfl
  have hmem : ∀ b, b ∈ onLists (memInit k pages) ↔
      ∃ m < (pages - k - 2) / maxLevelCount, b = (k + 1 + maxLevelCount * m, maxLevelIndex) := by
    intro b
    rw [mem_onLists_memInit (by omega), hblocks]
    constructor
    · rintro ⟨hl, m, hm, hb⟩
      exact ⟨m, hm, Prod.ext hb hl⟩
    · rintro ⟨m, hm, rfl⟩
      exact ⟨rfl, m, hm, rfl⟩
  refine ⟨fun x hx hlt => ⟨fun h => ?_, fun h => ?_⟩, fun b hb x hxb => ?_⟩
  · obtain ⟨b, ⟨hb, hxb⟩, -⟩ := h
    obtain ⟨m, hm, rfl⟩ := (hmem b).1 hb
    rw [hspan, hcount] at hxb
    rw [hcount] at hm ⊢
    omega
  · obtain ⟨m, hm⟩ : ∃ m, (x - (k + 1)) / maxLevelCount = m := ⟨_, rfl⟩
    rw [hcount] at hm h
    refine ⟨(k + 1 + maxLevelCount * m, maxLevelIndex), ⟨(hmem _).2 ⟨m, ?_, rfl⟩, ?_⟩, ?_⟩
    · rw [hcount]
      omega
    · rw [hspan, hcount]
      omega
    · rintro c ⟨hc, hxc⟩
      obtain ⟨n, -, rfl⟩ := (hmem c).1 hc
      rw [hspan, hcount] at hxc
      have : n = m := by omega
      rw [this]
  · obtain ⟨m, hm, rfl⟩ := (hmem b).1 hb
    rw [hspan, hcount] at hxb
    rw [hcount] at hm
    exact ⟨by omega, by omega⟩

/-- Above a kernel that ends in page 1023, the first pages are handed over. -/
theorem memInit_covers_1024 :
    ∃! b, b ∈ onLists (memInit 1023 allPfn) ∧ 1024 ∈ span b :=
  ((memInit_covers_iff (show 1023 + 1 < allPfn by decide)).1 1024 (by decide) (by decide)).2
    (by decide)

/-- The last page is in no block. -/
theorem memInit_last_page : 1023 + 1 ≤ allPfn - 1 ∧ allPfn - 1 < allPfn ∧
    ¬∃ b, b ∈ onLists (memInit 1023 allPfn) ∧ allPfn - 1 ∈ span b := by
  refine ⟨by decide, by decide, ?_⟩
  rintro ⟨b, hb, hx⟩
  obtain ⟨hl, m, hm, hb⟩ := (mem_onLists_memInit (by decide)).1 hb
  rw [show b = (1023 + 1 + maxLevelCount * m, maxLevelIndex) from Prod.ext hb hl] at hx
  have hlt : allPfn - 1 < 1023 + 1 + 1024 * m + 1024 := hx.2
  have hm : m < 30 := hm
  simp only [allPfn] at hlt
  omega

end RiscvLab.Mm
