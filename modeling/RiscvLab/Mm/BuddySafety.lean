import RiscvLab.Library.Reachable
import RiscvLab.Mm.BuddyInit
import Mathlib.Order.CompletePartialOrder
import Mathlib.Order.Interval.Set.Disjoint
import Mathlib.Data.Nat.Factorization.Basic

/-!
# Which blocks the page allocator hands out

A client of the page allocator holds blocks `[i, i + 2^order)` of page frames. This file settles for
which positions of the kernel's end the blocks held by a client are always safe: pairwise disjoint,
inside `[kernel_pfn_end + 1, ALL_PFN)`, and apart from every block on a free list.

`buddy_init` lists blocks from `kernel_pfn_end + 1` on at strides of 1024 pages, while `find_buddy`
computes the buddy by an exclusive or on the page number. The two agree when `kernel_pfn_end + 1` is
a multiple of 1024: a block of level `l` is then aligned to `2^l` and its upper half is the buddy of
its lower half, so splitting a block partitions it (`Pool.buddyAlloc`). Otherwise the first block
that is split has its buddy of some level below itself, in the kernel or inside the next block of
the free list (`exists_unsafe`). The only other safe case is that `buddy_init` leaves no block at
all.

## Main definitions

* `Client`, `Step` : a client with the blocks it holds, and its calls.
* `Safe` : the property of the blocks held.
* `Pool` : aligned, disjoint free blocks in a range of page frames.

## Main results

* `Pool.buddyAlloc` : `buddy_alloc` takes a block out of a pool and keeps the rest a pool.
* `outstanding_safe_iff` : the positions of the kernel's end for which every run is safe.
-/

namespace RiscvLab.Mm

open Library

/-- The page frames of a block, given by its first page and its order. -/
def span (b : ℕ × ℕ) : Set ℕ := Set.Ico b.1 (b.1 + 2 ^ b.2)

theorem disjoint_span_iff {a b : ℕ × ℕ} :
    Disjoint (span a) (span b) ↔ a.1 + 2 ^ a.2 ≤ b.1 ∨ b.1 + 2 ^ b.2 ≤ a.1 := by
  have ha := Nat.two_pow_pos a.2
  have hb := Nat.two_pow_pos b.2
  rw [span, span, Set.Ico_disjoint_Ico]
  simp only [min_le_iff, le_max_iff]
  omega

theorem span_subset_span_iff {a b : ℕ × ℕ} :
    span a ⊆ span b ↔ b.1 ≤ a.1 ∧ a.1 + 2 ^ a.2 ≤ b.1 + 2 ^ b.2 :=
  Set.Ico_subset_Ico_iff (by have := Nat.two_pow_pos a.2; omega)

/-! ### Clients -/

/-- The allocator and the blocks handed out and not yet freed. -/
structure Client where
  st : BuddyState
  out : List (ℕ × ℕ)

/-- The calls of a client. -/
inductive Call
  | allocPages (order : ℤ)
  | allocPage
  | freePages (page order : ℕ)
  | freePage (page : ℕ)

/-- A client allocates blocks of any order and frees blocks it holds, with their order. A call
that traps stops the kernel and has no successor. -/
inductive Step : Client → Call → Client → Prop
  | allocPages {c : Client} {order : ℤ} {page : ℕ} {s : BuddyState}
      (h : allocPages c.st order = .ok (page, s)) :
      Step c (.allocPages order) ⟨s, (page, order.toNat) :: c.out⟩
  | allocPage {c : Client} {page : ℕ} {s : BuddyState} (h : allocPage c.st = .ok (page, s)) :
      Step c .allocPage ⟨s, (page, 0) :: c.out⟩
  | freePages {c : Client} {page order : ℕ} (h : (page, order) ∈ c.out) :
      Step c (.freePages page order) ⟨freePages c.st page order, c.out.erase (page, order)⟩
  | freePage {c : Client} {page : ℕ} (h : (page, 0) ∈ c.out) :
      Step c (.freePage page) ⟨freePage c.st page, c.out.erase (page, 0)⟩

/-- A client of the allocator initialised above a kernel that ends at `kernelPfnEnd`. -/
def Start (kernelPfnEnd : ℕ) (c : Client) : Prop := c = ⟨memInit kernelPfnEnd, []⟩

/-- The blocks held are pairwise disjoint, lie between the kernel and the end of memory, and
overlap no block on a free list. -/
structure Safe (kernelPfnEnd : ℕ) (c : Client) : Prop where
  disjoint : c.out.Pairwise fun a b => Disjoint (span a) (span b)
  range : ∀ b ∈ c.out, kernelPfnEnd + 1 ≤ b.1 ∧ b.1 + 2 ^ b.2 ≤ allPfn
  unlisted : ∀ b ∈ c.out, ∀ l < maxLevel, ∀ i, OnRing c.st.links (.freeLists l) (.page i) →
    Disjoint (span b) (span (i, l))

/-! ### Pools of aligned blocks -/

/-- The free lists hold aligned, pairwise disjoint blocks of the frames `[lo, ALL_PFN)`. -/
structure Pool (lo : ℕ) (h : Links Node) (L : ℕ → List ℕ) (pages : ℕ := allPfn) : Prop where
  lists : FreeLists h L
  level_lt : ∀ l, ∀ i ∈ L l, l < maxLevel
  aligned : ∀ l, ∀ i ∈ L l, 2 ^ l ∣ i
  range : ∀ l, ∀ i ∈ L l, lo ≤ i ∧ i + 2 ^ l ≤ pages
  disjoint : ∀ l, ∀ i ∈ L l, ∀ m, ∀ j ∈ L m, (i, l) ≠ (j, m) →
    Disjoint (span (i, l)) (span (j, m))

/-- The buddy of the lower half of an aligned block is its upper half. -/
theorem xor_two_pow_of_dvd {p j : ℕ} (h : 2 ^ (j + 1) ∣ p) : p ^^^ 2 ^ j = p + 2 ^ j := by
  obtain ⟨q, rfl⟩ := h
  have heven : 2 ^ (j + 1) * q = 2 ^ j * (2 * q) := by rw [Nat.pow_succ, Nat.mul_assoc]
  have hxor := xor_two_pow_mul_add (2 * q) (Nat.two_pow_pos j)
  rw [Nat.xor_one_of_even (even_two_mul q), Nat.mul_succ] at hxor
  simpa [heven] using hxor

/-- A block that is on no list, aligned, inside the frames `[lo, ALL_PFN)` and apart from every
listed block. -/
structure InHand (lo : ℕ) (L : ℕ → List ℕ) (b : ℕ × ℕ) (pages : ℕ := allPfn) : Prop where
  aligned : 2 ^ b.2 ∣ b.1
  range : lo ≤ b.1 ∧ b.1 + 2 ^ b.2 ≤ pages
  apart : ∀ l, ∀ i ∈ L l, Disjoint (span b) (span (i, l))

section Split

variable {lo p lv order pages : ℕ} {h : Links Node} {L : ℕ → List ℕ} {t : List ℕ}

/-- Popping the first block of a level takes it out of the pool. -/
theorem Pool.pop (hP : Pool lo h L pages) (hp : L lv = p :: t) :
    Pool lo (listDel h (.page p)) (Function.update L lv t) pages ∧
      InHand lo (Function.update L lv t) (p, lv) pages := by
  have hpmem : p ∈ L lv := by simp [hp]
  have hrest (l i : ℕ) (hi : i ∈ Function.update L lv t l) : i ∈ L l ∧ (p, lv) ≠ (i, l) := by
    by_cases hl : l = lv
    · subst hl
      rw [Function.update_self] at hi
      have hnd := (hP.lists.ring l).nodup
      rw [hp] at hnd
      simp only [List.map_cons, List.nodup_cons, List.mem_map] at hnd
      refine ⟨by simp [hp, hi], fun e => hnd.2.1 ⟨i, hi, ?_⟩⟩
      exact congrArg Node.page (Prod.ext_iff.mp e).1.symm
    · rw [Function.update_of_ne hl] at hi
      exact ⟨hi, fun e => hl (Prod.ext_iff.mp e).2.symm⟩
  refine ⟨⟨(FreeLists.pop_cons hP.lists hp).2, ?_, ?_, ?_, ?_⟩,
    hP.aligned lv p hpmem, hP.range lv p hpmem, ?_⟩
  · exact fun l i hi => hP.level_lt l i (hrest l i hi).1
  · exact fun l i hi => hP.aligned l i (hrest l i hi).1
  · exact fun l i hi => hP.range l i (hrest l i hi).1
  · exact fun l i hi m j hj => hP.disjoint l i (hrest l i hi).1 m j (hrest m j hj).1
  · exact fun l i hi => hP.disjoint lv p hpmem l i (hrest l i hi).1 (hrest l i hi).2

private theorem two_pow_add_le {j lv : ℕ} (hj : j < lv) : 0 < 2 ^ j ∧ 2 ^ j + 2 ^ j ≤ 2 ^ lv := by
  have := Nat.pow_le_pow_right (n := 2) (by decide) (Nat.succ_le_of_lt hj)
  rw [Nat.pow_succ] at this
  exact ⟨Nat.two_pow_pos j, by omega⟩

/-- The buddies of a block in hand, at the levels below its own, are its upper halves. -/
theorem InHand.buddy (hb : InHand lo L (p, lv) pages) {j : ℕ} (hj : j < lv) :
    p ^^^ 2 ^ j = p + 2 ^ j :=
  xor_two_pow_of_dvd (dvd_trans (pow_dvd_pow 2 hj) hb.aligned)

/-- The lists after a block in hand has been split down to `order`. -/
theorem InHand.mem_splitLists (hb : InHand lo L (p, lv) pages) {l i : ℕ} :
    i ∈ splitLists L p order lv l ↔ (order ≤ l ∧ l < lv ∧ i = p + 2 ^ l) ∨ i ∈ L l := by
  rw [Mm.mem_splitLists]
  constructor <;> rintro (⟨h₁, h₂, h₃⟩ | h)
  · exact Or.inl ⟨h₁, h₂, h₃.trans (hb.buddy h₂)⟩
  · exact Or.inr h
  · exact Or.inl ⟨h₁, h₂, h₃.trans (hb.buddy h₂).symm⟩
  · exact Or.inr h

/-- The upper half of level `l` of a block in hand is apart from the blocks that were listed. -/
private theorem InHand.half_apart (hb : InHand lo L (p, lv) pages) {l m j : ℕ} (hl : l < lv)
    (hj : j ∈ L m) : Disjoint (span (p + 2 ^ l, l)) (span (j, m)) := by
  have hapart := disjoint_span_iff.mp (hb.apart m j hj)
  have := two_pow_add_le hl
  rw [disjoint_span_iff]
  dsimp only at hapart ⊢
  omega

/-- Two upper halves of different levels of one block are disjoint. -/
private theorem halves_disjoint {l m : ℕ} (hlm : l < m) :
    Disjoint (span (p + 2 ^ l, l)) (span (p + 2 ^ m, m)) := by
  have := two_pow_add_le hlm
  rw [disjoint_span_iff]
  left
  dsimp only
  omega

/-- Splitting a block in hand puts its upper halves into the pool and keeps the lowest part in
hand. -/
theorem Pool.split (hP : Pool lo h L pages) (hb : InHand lo L (p, lv) pages) (ho : order ≤ lv)
    (hlv : lv < maxLevel) :
    Pool lo (splitLoop p order lv h pages) (splitLists L p order lv) pages ∧
      InHand lo (splitLists L p order lv) (p, order) pages := by
  obtain ⟨hlo, hend⟩ := hb.range
  dsimp only at hlo hend
  have hple : 2 ^ order ≤ 2 ^ lv := Nat.pow_le_pow_right (by decide) ho
  refine ⟨⟨?_, ?_, ?_, ?_, ?_⟩, dvd_trans (pow_dvd_pow 2 ho) hb.aligned, ⟨hlo, ?_⟩, ?_⟩
  · refine splitLoop_freeLists hP.lists (fun j _ hj => ?_) fun j _ hj l hmem => ?_
    · have := two_pow_add_le hj
      rw [hb.buddy hj]
      omega
    · rw [hb.buddy hj] at hmem
      have hself := disjoint_span_iff.mp (hb.half_apart hj hmem)
      have := Nat.two_pow_pos l
      have := Nat.two_pow_pos j
      dsimp only at hself
      omega
  · intro l i hi
    rcases hb.mem_splitLists.mp hi with ⟨-, hl, -⟩ | hi
    · omega
    · exact hP.level_lt l i hi
  · intro l i hi
    rcases hb.mem_splitLists.mp hi with ⟨-, hl, rfl⟩ | hi
    · exact Nat.dvd_add (dvd_trans (pow_dvd_pow 2 hl.le) hb.aligned) dvd_rfl
    · exact hP.aligned l i hi
  · intro l i hi
    rcases hb.mem_splitLists.mp hi with ⟨-, hl, rfl⟩ | hi
    · have := two_pow_add_le hl
      omega
    · exact hP.range l i hi
  · intro l i hi m j hj hne
    rcases hb.mem_splitLists.mp hi with ⟨-, hl, rfl⟩ | hi <;>
      rcases hb.mem_splitLists.mp hj with ⟨-, hm, rfl⟩ | hj
    · have hlm : l ≠ m := fun e => hne (by rw [e])
      rcases Nat.lt_or_gt_of_ne hlm with h | h
      · exact halves_disjoint h
      · exact (halves_disjoint h).symm
    · exact hb.half_apart hl hj
    · exact (hb.half_apart hm hi).symm
    · exact hP.disjoint l i hi m j hj hne
  · dsimp only
    omega
  · intro l i hi
    rw [disjoint_span_iff]
    rcases hb.mem_splitLists.mp hi with ⟨hol, -, rfl⟩ | hi
    · have := Nat.pow_le_pow_right (n := 2) (by decide) hol
      dsimp only
      omega
    · have hapart := disjoint_span_iff.mp (hb.apart l i hi)
      dsimp only at hapart ⊢
      omega

/-- The parts that a block in hand is split into lie inside it. -/
theorem InHand.span_subset (hb : InHand lo L (p, lv) pages) (ho : order ≤ lv) {l i : ℕ}
    (hi : (i, l) = (p, order) ∨ i ∈ splitLists L p order lv l) :
    span (i, l) ⊆ span (p, lv) ∨ i ∈ L l := by
  rcases hi with hi | hi
  · rw [hi]
    have : 2 ^ order ≤ 2 ^ lv := Nat.pow_le_pow_right (by decide) ho
    exact Or.inl (span_subset_span_iff.mpr ⟨le_rfl, by dsimp only; omega⟩)
  · rcases hb.mem_splitLists.mp hi with ⟨-, hl, rfl⟩ | hi
    · have := two_pow_add_le hl
      exact Or.inl (span_subset_span_iff.mpr ⟨by dsimp only; omega, by dsimp only; omega⟩)
    · exact Or.inr hi

end Split

/-- `buddy_alloc` on a pool: either it fails and changes nothing, or it returns a block of the
requested order and leaves a pool that this block is apart from. The block and every block then
listed lie inside blocks that were listed before. -/
theorem Pool.buddyAlloc {lo pages : ℕ} {s : BuddyState} {L : ℕ → List ℕ}
    (hP : Pool lo s.links L pages) {order : ℕ} (ho : order < maxLevel) :
    buddyAlloc s order pages = (none, s) ∨
      ∃ p h L', buddyAlloc s order pages = (some p, { s with links := h }) ∧
      Pool lo h L' pages ∧ InHand lo L' (p, order) pages ∧
      ∀ l i, (i, l) = (p, order) ∨ i ∈ L' l → ∃ m, ∃ j ∈ L m, span (i, l) ⊆ span (j, m) := by
  rcases buddyAlloc_cases hP.lists ho pages with ⟨-, hnone⟩ | ⟨lv, p, t, hlo, hlt, -, hp, hsome⟩
  · exact Or.inl hnone
  obtain ⟨hpool, hhand⟩ := hP.pop hp
  obtain ⟨hpool', hhand'⟩ := hpool.split hhand hlo hlt
  refine Or.inr ⟨p, _, _, hsome, hpool', hhand', fun l i hi => ?_⟩
  rcases hhand.span_subset hlo hi with hsub | hi
  · exact ⟨lv, p, by simp [hp], hsub⟩
  · refine ⟨l, i, ?_, le_rfl⟩
    by_cases hl : l = lv
    · subst hl
      rw [Function.update_self] at hi
      simp [hp, hi]
    · rwa [Function.update_of_ne hl] at hi

/-! ### Runs over a pool -/

theorem allocPages_ok {s s' : BuddyState} {order : ℤ} {p : ℕ}
    (h : allocPages s order = .ok (p, s')) : ∃ n < maxLevel, order = (n : ℤ) ∧
      ∃ s₁, buddyAlloc s n = (some p, s₁) ∧ s' = pagePush s₁ p := by
  have hadm : ¬ (order < 0 ∨ order > maxLevelIndex) := by
    intro hbad
    simp [allocPages, buddyAlloc, hbad] at h
  obtain ⟨n, rfl⟩ := Int.eq_ofNat_of_zero_le (show 0 ≤ order by omega)
  refine ⟨n, by simp only [maxLevelIndex, maxLevel] at hadm ⊢; omega, rfl, ?_⟩
  unfold allocPages at h
  split at h
  · cases h
  · rename_i q s₁ hs
    obtain ⟨rfl, rfl⟩ : q = p ∧ pagePush s₁ q = s' := by simpa using h
    exact ⟨s₁, hs, rfl⟩

/-- The free lists are a pool above the kernel, the blocks held are disjoint parts of memory apart
from it, and of the pages above the kernel only the first pages of blocks held have count zero. -/
structure ClientInv (k : ℕ) (c : Client) (L : ℕ → List ℕ) : Prop where
  pool : Pool (k + 1) c.st.links L
  disjoint : c.out.Pairwise fun a b => Disjoint (span a) (span b)
  range : ∀ b ∈ c.out, k + 1 ≤ b.1 ∧ b.1 + 2 ^ b.2 ≤ allPfn
  unlisted : ∀ b ∈ c.out, ∀ l, ∀ i ∈ L l, Disjoint (span b) (span (i, l))
  count : ∀ x, k < x → c.st.count x = if x ∈ c.out.map Prod.fst then 0 else pgFree

namespace ClientInv

variable {k : ℕ} {c c' : Client} {L : ℕ → List ℕ}

theorem safe (hI : ClientInv k c L) : Safe k c :=
  ⟨hI.disjoint, hI.range, fun b hb l _ i hi =>
    hI.unlisted b hb l i ((hI.pool.lists.onRing_iff l).mp hi)⟩

/-- Allocating a block hands out a part of the pool whose first page was free. -/
theorem alloc (hI : ClientInv k c L) {order p : ℕ} (ho : order < maxLevel) {s₁ : BuddyState}
    (ha : Mm.buddyAlloc c.st order = (some p, s₁)) :
    ∃ L', ClientInv k ⟨pagePush s₁ p, (p, order) :: c.out⟩ L' := by
  rcases hI.pool.buddyAlloc ho with hnone | ⟨q, h, L', hsome, hpool, hhand, hparts⟩
  · rw [hnone] at ha
    cases ha
  obtain ⟨rfl, rfl⟩ : q = p ∧ { c.st with links := h } = s₁ := by
    simpa [hsome] using ha
  have hold (b : ℕ × ℕ) (hb : b ∈ c.out) (l i : ℕ) (hi : (i, l) = (q, order) ∨ i ∈ L' l) :
      Disjoint (span b) (span (i, l)) := by
    obtain ⟨m, j, hj, hsub⟩ := hparts l i hi
    exact (hI.unlisted b hb m j hj).mono_right hsub
  have hfree : q ∉ c.out.map Prod.fst := by
    rintro hq
    obtain ⟨b, hb, rfl⟩ := List.mem_map.mp hq
    have hapart := disjoint_span_iff.mp (hold b hb order b.1 (Or.inl rfl))
    have := Nat.two_pow_pos order
    have := Nat.two_pow_pos b.2
    dsimp only at hapart
    omega
  refine ⟨L', hpool, ?_, ?_, ?_, ?_⟩
  · exact List.pairwise_cons.mpr
      ⟨fun b hb => (hold b hb order q (Or.inl rfl)).symm, hI.disjoint⟩
  · intro b hb
    rcases List.mem_cons.mp hb with rfl | hb
    · exact hhand.range
    · exact hI.range b hb
  · intro b hb l i hi
    rcases List.mem_cons.mp hb with rfl | hb
    · exact hhand.apart l i hi
    · exact hold b hb l i (Or.inr hi)
  · intro x hx
    by_cases hxq : x = q
    · subst hxq
      simp only [pagePush, Function.update_self, hI.count x hx, if_neg hfree, List.map_cons,
        List.mem_cons, true_or, ↓reduceIte]
      decide
    · simp only [pagePush, Function.update_of_ne hxq, hI.count x hx, List.map_cons, List.mem_cons,
        hxq, false_or]

/-- Freeing a block takes its count back to `PG_FREE` and leaves the free lists alone. -/
theorem free (hI : ClientInv k c L) {p order : ℕ} (hb : (p, order) ∈ c.out) :
    ClientInv k ⟨Mm.freePages c.st p order, c.out.erase (p, order)⟩ L := by
  have hperm := List.perm_cons_erase hb
  have hpw := (hperm.pairwise_iff fun h => h.symm).mp hI.disjoint
  obtain ⟨hapart, hrest⟩ := List.pairwise_cons.mp hpw
  have hsub := List.erase_subset (a := (p, order)) (l := c.out)
  have hkp : k < p := (hI.range _ hb).1
  have hzero : c.st.count p = 0 := by
    rw [hI.count p hkp, if_pos (List.mem_map.mpr ⟨_, hb, rfl⟩)]
  have hgone : p ∉ (c.out.erase (p, order)).map Prod.fst := by
    intro hp
    obtain ⟨b, hb', rfl⟩ := List.mem_map.mp hp
    have hdis := disjoint_span_iff.mp (hapart b hb')
    have := Nat.two_pow_pos order
    have := Nat.two_pow_pos b.2
    dsimp only at hdis
    omega
  rw [freePages_of_count_zero hzero]
  refine ⟨hI.pool, hrest, fun b hb => hI.range b (hsub hb),
    fun b hb => hI.unlisted b (hsub hb), fun x hx => ?_⟩
  by_cases hxp : x = p
  · subst hxp
    simp [hgone]
  · have : x ∈ c.out.map Prod.fst ↔ x ∈ (c.out.erase (p, order)).map Prod.fst := by
      rw [(hperm.map Prod.fst).mem_iff, List.map_cons, List.mem_cons]
      exact or_iff_right hxp
    simp only [Function.update_of_ne hxp, hI.count x hx, this]

/-- Every call of a client keeps the invariant. -/
theorem step (hI : ClientInv k c L) {a : Call} (hs : Step c a c') : ∃ L', ClientInv k c' L' := by
  cases hs with
  | allocPages h =>
    obtain ⟨n, hn, rfl, s₁, ha, rfl⟩ := allocPages_ok h
    exact hI.alloc hn ha
  | allocPage h =>
    obtain ⟨n, hn, hz, s₁, ha, rfl⟩ := allocPages_ok ((allocPage_eq _).symm.trans h)
    obtain rfl : n = 0 := by omega
    exact hI.alloc hn ha
  | freePages h => exact ⟨L, hI.free h⟩
  | freePage h => exact ⟨L, hI.free h⟩

end ClientInv

/-- Above a kernel whose end is aligned, or that leaves room for no whole block, the allocator
starts with a pool. -/
theorem clientInv_memInit {k : ℕ} (hk : k < allPfn)
    (hal : (k + 1) % maxLevelCount = 0 ∨ allPfn ≤ k + 1 + maxLevelCount) :
    ClientInv k ⟨memInit k, []⟩ (topList (initList (k + 1) (initBlocks k))) := by
  have hcount : maxLevelCount = 2 ^ maxLevelIndex := rfl
  have hblocks (m : ℕ) (hm : m < initBlocks k) :
      2 ^ maxLevelIndex ∣ k + 1 ∧ k + 1 + maxLevelCount * (m + 1) ≤ allPfn := by
    have hle : (m + 1) * maxLevelCount ≤ allPfn - (k + 1) - 1 :=
      (Nat.le_div_iff_mul_le (by decide)).mp hm
    rw [Nat.mul_comm] at hle
    have hpos : 0 < maxLevelCount * (m + 1) := Nat.mul_pos (by decide) (by omega)
    refine ⟨?_, by omega⟩
    rcases hal with hal | hal
    · exact Nat.dvd_of_mod_eq_zero hal
    · have : maxLevelCount ≤ maxLevelCount * (m + 1) := Nat.le_mul_of_pos_right _ (by omega)
      omega
  refine ⟨⟨memInit_freeLists hk, ?_, ?_, ?_, ?_⟩, .nil, by simp, by simp, fun x hx => ?_⟩
  · intro l i hi
    rw [(mem_topList.mp hi).1]
    decide
  · intro l i hi
    obtain ⟨rfl, hi⟩ := mem_topList.mp hi
    obtain ⟨m, hm, rfl⟩ := mem_initList.mp hi
    exact Nat.dvd_add (hblocks m hm).1 (Dvd.intro m rfl)
  · intro l i hi
    obtain ⟨rfl, hi⟩ := mem_topList.mp hi
    obtain ⟨m, hm, rfl⟩ := mem_initList.mp hi
    have := (hblocks m hm).2
    rw [Nat.mul_succ] at this
    omega
  · intro l i hi l' j hj hne
    obtain ⟨rfl, hi⟩ := mem_topList.mp hi
    obtain ⟨rfl, hj⟩ := mem_topList.mp hj
    obtain ⟨m, -, rfl⟩ := mem_initList.mp hi
    obtain ⟨m', -, rfl⟩ := mem_initList.mp hj
    have hmm : m ≠ m' := fun e => hne (by rw [e])
    rw [disjoint_span_iff, ← hcount]
    dsimp only
    rcases Nat.lt_or_gt_of_ne hmm with h | h
    · have := Nat.mul_le_mul_left maxLevelCount (Nat.succ_le_of_lt h)
      rw [Nat.mul_succ] at this
      omega
    · have := Nat.mul_le_mul_left maxLevelCount (Nat.succ_le_of_lt h)
      rw [Nat.mul_succ] at this
      omega
  · have : ¬ x < k := by omega
    simp [memInit_count hk, this]

/-! ### Splitting an unaligned block -/

/-- The lowest set bit of a number, and its buddy at that level: the block just below. -/
private theorem exists_lower_buddy {b : ℕ} (hb : b % maxLevelCount ≠ 0) :
    ∃ t < maxLevelIndex, (b ^^^ 2 ^ t) + 2 ^ t = b := by
  have hb0 : b ≠ 0 := fun e => hb (by simp [e])
  obtain ⟨t, m, hm, rfl⟩ := Nat.exists_eq_two_pow_mul_odd hb0
  obtain ⟨q, rfl⟩ := hm
  have ht : t < maxLevelIndex := by
    by_contra hge
    exact hb (Nat.mod_eq_zero_of_dvd
      (dvd_trans (pow_dvd_pow 2 (Nat.le_of_not_lt hge)) (Dvd.intro _ rfl)))
  have hsum : 2 ^ t * (2 * q + 1) = 2 ^ (t + 1) * q + 2 ^ t := by
    rw [Nat.pow_succ, Nat.mul_add, Nat.mul_one, Nat.mul_assoc]
  have hxor := xor_two_pow_of_dvd (p := 2 ^ (t + 1) * q) (Dvd.intro q rfl)
  refine ⟨t, ht, ?_⟩
  have hlow : (2 ^ (t + 1) * q + 2 ^ t) ^^^ 2 ^ t = 2 ^ (t + 1) * q := by
    rw [← hxor, Nat.xor_assoc, Nat.xor_self, Nat.xor_zero]
  rw [hsum, hlow]

/-- The first page allocated from the largest blocks: the block `b` is split, and one buddy of it
is listed at every lower level, wherever the exclusive or puts it. -/
theorem allocPages_zero {s : BuddyState} {b : ℕ} {r : List ℕ}
    (hL : FreeLists s.links (topList (b :: r))) (hb : b < 2 ^ 15)
    (hr : ∀ q ∈ r, q % maxLevelCount = b % maxLevelCount) :
    ∃ h, allocPages s 0 = .ok (b, pagePush { s with links := h } b) ∧
      FreeLists h (splitLists (topList r) b 0 maxLevelIndex) := by
  have hzero : 0 < maxLevel := by decide
  rcases buddyAlloc_cases hL hzero allPfn with ⟨hempty, -⟩ | ⟨lv, p, r', -, -, -, hp, ha⟩
  · have := hempty maxLevelIndex (Nat.zero_le _) (by decide)
    simp [topList] at this
  obtain rfl : lv = maxLevelIndex :=
    (mem_topList.mp (by rw [hp]; exact List.mem_cons_self)).1
  have hp' : b :: r = p :: r' := by simpa [topList] using hp
  cases hp'
  have hpop := (FreeLists.pop_cons (j := maxLevelIndex) hL hp).2
  rw [update_topList] at hpop
  refine ⟨_, by rw [allocPages, show (0 : ℤ) = ((0 : ℕ) : ℤ) from rfl, ha],
    splitLoop_freeLists hpop (fun j _ hj => ?_) fun j _ hj l hmem => ?_⟩
  · exact Nat.xor_lt_two_pow hb (Nat.pow_lt_pow_right (by decide) (lt_trans hj (by decide)))
  · -- the listed blocks agree with `b` in the low bits, the buddy differs in bit `j`
    have hmod : (b ^^^ 2 ^ j) % 2 ^ maxLevelIndex = b % 2 ^ maxLevelIndex :=
      hr _ (mem_topList.mp hmem).2
    rw [Nat.xor_mod_two_pow, Nat.mod_eq_of_lt (Nat.pow_lt_pow_right (by decide) hj)] at hmod
    have hzero := congrArg (b % 2 ^ maxLevelIndex ^^^ ·) hmod
    simp at hzero

/-- An allocation of an order at which exactly one block is listed. -/
private theorem allocPages_singleton {s : BuddyState} {L : ℕ → List ℕ} (hL : FreeLists s.links L)
    {t c : ℕ} (ht : t < maxLevel) (hc : L t = [c]) :
    ∃ h, allocPages s t = .ok (c, pagePush { s with links := h } c) ∧
      FreeLists h (Function.update L t []) := by
  rcases buddyAlloc_cases hL ht allPfn with ⟨hempty, -⟩ | ⟨lv, p, r, hle, -, hmin, hp, ha⟩
  · simpa [hc] using hempty t le_rfl ht
  obtain rfl : lv = t := by
    by_contra hne
    simpa [hc] using hmin t le_rfl (by omega)
  have hp' : [c] = p :: r := hc.symm.trans hp
  cases hp'
  have hsplit : FreeLists (splitLoop c lv lv (listDel s.links (.page c)))
      (splitLists (Function.update L lv []) c lv lv) :=
    splitLoop_freeLists (FreeLists.pop_cons hL hc).2 (fun j hj hj' => by omega)
      fun j hj hj' => by omega
  have hsame : splitLists (Function.update L lv []) c lv lv = Function.update L lv [] := by
    funext j
    have : ¬ (lv ≤ j ∧ j < lv) := by omega
    simp only [splitLists, if_neg this]
  exact ⟨_, by rw [allocPages, ha], hsame ▸ hsplit⟩

/-- Above a kernel whose end is not aligned, one allocation of a page splits a block with a part of
it listed below the block, and the next allocation of that order hands this part out. -/
theorem exists_unsafe {k : ℕ} (hk : k < allPfn) (hal : (k + 1) % maxLevelCount ≠ 0)
    (hroom : k + 1 + maxLevelCount < allPfn) :
    ∃ c, Reachable (Start k) Step c ∧ ¬ Safe k c := by
  have hmlc : maxLevelCount = 1024 := rfl
  have hap : allPfn = 2 ^ 15 := rfl
  obtain ⟨n, hn⟩ : ∃ n, initBlocks k = n + 1 := by
    refine Nat.exists_eq_succ_of_ne_zero (Nat.ne_of_gt (Nat.div_pos ?_ (by decide)))
    omega
  have hL := memInit_freeLists hk
  rw [hn, initList_succ] at hL
  have hbt : (k + 1 + maxLevelCount * n) % maxLevelCount ≠ 0 := by
    rwa [Nat.add_mul_mod_self_left]
  have hblt : k + 1 + maxLevelCount * n < 2 ^ 15 := by
    have : (n + 1) * maxLevelCount ≤ allPfn - (k + 1) - 1 :=
      (Nat.le_div_iff_mul_le (by decide)).mp hn.ge
    rw [Nat.mul_comm, Nat.mul_succ] at this
    omega
  -- `b` is the block that is split, `c` the part of it that lands below
  obtain ⟨b, hb⟩ : ∃ b, b = k + 1 + maxLevelCount * n := ⟨_, rfl⟩
  rw [← hb] at hL hbt hblt
  obtain ⟨t, ht, hc⟩ := exists_lower_buddy hbt
  have ht2 : 2 ^ t < maxLevelCount := Nat.pow_lt_pow_right (by decide) ht
  have htpos := Nat.two_pow_pos t
  obtain ⟨h₁, ha₁, hL₁⟩ := allocPages_zero hL hblt fun q hq => by
    obtain ⟨m, -, rfl⟩ := mem_initList.mp hq
    rw [hb, Nat.add_mul_mod_self_left, Nat.add_mul_mod_self_left]
  obtain ⟨h₂, ha₂, hL₂⟩ := allocPages_singleton (s := pagePush { memInit k with links := h₁ } b)
    hL₁ (t := t) (c := b ^^^ 2 ^ t) (lt_trans ht (by decide))
    (by simp [splitLists, ht, topList, ht.ne])
  refine ⟨_, .next (.next (.start rfl) (.allocPages ha₁)) (.allocPages ha₂), fun hsafe => ?_⟩
  have hrange := (hsafe.range (b ^^^ 2 ^ t, t) (by simp)).1
  dsimp only at hrange
  cases n with
  | zero => omega
  | succ n =>
    -- the block below `b` is still listed and contains `c`
    have hbge : b = k + 1 + maxLevelCount * n + maxLevelCount := by
      rw [hb, Nat.mul_succ]
      omega
    have hlisted : k + 1 + maxLevelCount * n ∈ Function.update (splitLists
        (topList (initList (k + 1) (n + 1))) b 0 maxLevelIndex) t [] maxLevelIndex := by
      rw [Function.update_of_ne ht.ne', mem_splitLists, mem_topList, mem_initList]
      exact Or.inr ⟨rfl, n, by omega, rfl⟩
    have hdis := disjoint_span_iff.mp (hsafe.unlisted (b ^^^ 2 ^ t, t) (by simp) maxLevelIndex
      (by decide) _ ((FreeLists.onRing_iff hL₂ _).mpr hlisted))
    have h10 : 2 ^ maxLevelIndex = maxLevelCount := rfl
    dsimp only at hdis
    omega

/-! ### The safe positions of the kernel's end -/

/-- The blocks that clients of the page allocator hold are safe in every run exactly when the
first page above the kernel is aligned to the largest blocks, or fewer pages than make a second
block are left, so that `buddy_init` keeps none. -/
theorem outstanding_safe_iff (kernelPfnEnd : Fin allPfn) :
    (∀ c, Reachable (Start kernelPfnEnd) Step c → Safe kernelPfnEnd c) ↔
      (kernelPfnEnd.val + 1) % maxLevelCount = 0 ∨
        allPfn ≤ kernelPfnEnd.val + 1 + maxLevelCount := by
  obtain ⟨k, hk⟩ := kernelPfnEnd
  constructor
  · intro hsafe
    by_contra hbad
    obtain ⟨hal, hroom⟩ := not_or.mp hbad
    obtain ⟨c, hc, hns⟩ := exists_unsafe hk hal (Nat.lt_of_not_le hroom)
    exact hns (hsafe c hc)
  · intro hal c hc
    have hinv : ∃ L, ClientInv k c L :=
      hc.invariant (P := fun c => ∃ L, ClientInv k c L)
        (fun c h => ⟨_, h ▸ clientInv_memInit hk hal⟩) fun c a c' ⟨L, hI⟩ hs => hI.step hs
    obtain ⟨L, hI⟩ := hinv
    exact hI.safe

/-- With the kernel's end in page 400 a client can be handed an unsafe block. -/
theorem not_safe_kernelPfnEnd_400 :
    ¬ ∀ c, Reachable (Start 400) Step c → Safe 400 c := by
  obtain ⟨c, hc, hns⟩ := exists_unsafe (k := 400) (by decide) (by decide) (by decide)
  exact fun h => hns (h c hc)

end RiscvLab.Mm
