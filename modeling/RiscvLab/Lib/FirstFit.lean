import RiscvLab.Lib.Bitmap
import RiscvLab.Library.Reachable
import Mathlib.Data.Finset.Card
import Mathlib.Data.Finset.Max
import Mathlib.Tactic.IntervalCases

/-!
# Bitmaps as first-fit allocators

From `bitmap_init` on, `unused` is the number of clear bits below the size and the hint is at or
below all of them. `bitmap_alloc` then finds the smallest clear bit, whatever the bits beyond the
size are: there is a clear bit below the size whenever it starts to scan, and the scan meets this
one first.

A bitmap that is read from a device has no such invariant, since the map and the counts come from
different places. If all bits from the hint up to the size are set and the bit with the index `size`
is clear, `bitmap_alloc` hands this one out, and `bitmap_reset_allo` does not give it back.

All of the map is in memory, which has `2^30` bits. The arithmetic on sizes does not overflow.

## Main definitions

* `bitmapInit`, `BitmapStep` : a bitmap and its users.
* `FirstFit` : what the functions do with a bitmap.
* `AllocSafe`, `ResetNeutral` : what they do with one from a device.

## Main results

* `firstFit_of_reachable`, `allocSafe_iff`.

Source: `lib/bitmap.c`, lines 5–111; `fs/easyfs/super.c`, lines 16–36.
-/

namespace RiscvLab

open Library

/-- `memset(map, 0, n)`. The bytes of a word are those of its bits in order. -/
def clearBytes (map : ℕ → BitVec 64) (n i : ℕ) : BitVec 64 :=
  (map i >>> (8 * (n - 8 * i))) <<< (8 * (n - 8 * i))

/-- `bitmap_init`. -/
def bitmapInit (map : ℕ → BitVec 64) (sizeBits : ℤ) : Bitmap where
  map := clearBytes map ((sizeBits + 7).tdiv 8).toNat
  size := sizeBits
  unused := sizeBits
  allocation := 0

inductive BitmapEvent
  | alloc
  | free (index : ℤ)

def BitmapStep (b : Bitmap) (e : BitmapEvent) (b' : Bitmap) : Prop :=
  match e with
  | .alloc => b' = (bitmapAlloc b).2
  | .free index => b' = bitmapFree b index

/-- A bitmap after `bitmap_init`, with any bits beyond the size. -/
def BitmapStart (b : Bitmap) : Prop :=
  1 ≤ b.size ∧ ∃ map, b.unused = (bitmapInit map b.size).unused ∧
    b.allocation = (bitmapInit map b.size).allocation ∧
    ∀ k : ℕ, (k : ℤ) < b.size → b.test k = (bitmapInit map b.size).test k

/-- The indices of the clear bits below the size. -/
def Bitmap.clear (b : Bitmap) : Finset ℕ := (Finset.range b.size.toNat).filter (b.test · = false)

/-- The bitmap is a first-fit allocator. -/
structure FirstFit (b : Bitmap) : Prop where
  least : ∀ k : ℕ, IsLeast (b.clear : Set ℕ) k →
    (bitmapAlloc b).1 = k ∧ ∀ j, (bitmapAlloc b).2.test j = (decide (j = k) || b.test j)
  full : (bitmapAlloc b).1 = -1 ↔ ∀ k : ℕ, (k : ℤ) < b.size → b.test k = true
  free : ∀ k : ℕ, (k : ℤ) < b.size → b.test k = true → (bitmapFree b k).unused = b.unused + 1 ∧
    ∀ j, (bitmapFree b k).test j = (!decide (j = k) && b.test j)
  refuse : ∀ index : ℤ, (∀ k : ℕ, index = k → (k : ℤ) < b.size → b.test k = false) →
    (bitmapFree b index).unused = b.unused ∧ ∀ j, (bitmapFree b index).test j = b.test j
  unused : b.unused = b.clear.card
  isFree : ∀ index : ℤ, bitmapIsFree b index =
    if 0 ≤ index ∧ index < b.size then if index.toNat ∈ b.clear then 1 else 0 else -1

/-- The invariant of `FirstFit`. -/
structure FitInv (b : Bitmap) : Prop where
  unused : b.unused = b.clear.card
  hint : ∀ k ∈ b.clear, b.allocation ≤ k

section

variable {b : Bitmap} {k : ℕ}

theorem mem_clear : k ∈ b.clear ↔ (k : ℤ) < b.size ∧ b.test k = false := by
  rw [Bitmap.clear, Finset.mem_filter, Finset.mem_range, Int.lt_toNat]

theorem clear_congr {b' : Bitmap} (hs : b'.size = b.size)
    (ht : ∀ j : ℕ, (j : ℤ) < b.size → b'.test j = b.test j) : b'.clear = b.clear := by
  ext j
  rw [mem_clear, mem_clear, hs]
  exact and_congr_right fun hj => by rw [ht j hj]

/-! ### The state after initialisation -/

theorem test_bitmapInit {map : ℕ → BitVec 64} {size : ℤ} (hk : (k : ℤ) < size) :
    (bitmapInit map size).test k = false := by
  have hbytes : k < 8 * ((size + 7).tdiv 8).toNat := by
    rw [Int.tdiv_eq_ediv_of_nonneg (by omega)]
    omega
  have hlt : k % 64 < 8 * (((size + 7).tdiv 8).toNat - 8 * (k / 64)) := by omega
  simp [Bitmap.test, bitmapInit, clearBytes, BitVec.getLsbD_shiftLeft, hlt]

theorem BitmapStart.inv (h : BitmapStart b) : FitInv b := by
  obtain ⟨hsize, map, hunused, halloc, htest⟩ := h
  have hclear : b.clear = Finset.range b.size.toNat := by
    refine Finset.filter_true_of_mem fun k hk => ?_
    have hk : (k : ℤ) < b.size := Int.lt_toNat.1 (Finset.mem_range.1 hk)
    rw [htest k hk, test_bitmapInit hk]
  refine ⟨?_, fun k _ => ?_⟩
  · rw [hclear, Finset.card_range, hunused, Int.toNat_of_nonneg (by omega)]
    rfl
  · rw [halloc]
    exact Nat.zero_le k

/-! ### Allocation -/

/-- The first clear bit below the size is the one that `bitmap_alloc` takes. -/
theorem FitInv.alloc_of_isLeast (hI : FitInv b) (hk : IsLeast (b.clear : Set ℕ) k) :
    bitmapAlloc b = ((k : ℤ), b.grab k) := by
  have hmem : k ∈ b.clear := hk.1
  obtain ⟨hsize, htest⟩ := mem_clear.1 hmem
  have hcard : b.unused ≠ 0 := by
    have : 0 < b.clear.card := Finset.card_pos.2 ⟨k, hmem⟩
    rw [hI.unused]
    omega
  refine bitmapAlloc_of_firstClear hcard ⟨hI.hint k hmem, Bitmap.lt_words hsize, htest, ?_⟩ hsize.le
  intro j _ hj
  by_contra hclear
  have hjmem : j ∈ b.clear := mem_clear.2 ⟨by omega, by simpa using hclear⟩
  exact absurd (hk.2 hjmem) (by omega)

theorem FitInv.alloc_of_empty (hI : FitInv b) (hempty : b.clear = ∅) : bitmapAlloc b = (-1, b) := by
  refine bitmapAlloc_eq_neg_one (.inl ?_)
  rw [hI.unused, hempty]
  rfl

/-- There is no clear bit, or a smallest one. -/
theorem clear_cases (b : Bitmap) : b.clear = ∅ ∨ ∃ k, IsLeast (b.clear : Set ℕ) k := by
  rcases b.clear.eq_empty_or_nonempty with h | h
  · exact .inl h
  · exact .inr ⟨b.clear.min' h, Finset.isLeast_min' _ h⟩

theorem FitInv.alloc (hI : FitInv b) : FitInv (bitmapAlloc b).2 := by
  rcases clear_cases b with hempty | ⟨k, hk⟩
  · rw [hI.alloc_of_empty hempty]
    exact hI
  · have hmem : k ∈ b.clear := hk.1
    have hclear : (b.grab k).clear = b.clear.erase k := by
      ext j
      by_cases hj : j = k <;> simp [mem_clear, hj]
    rw [hI.alloc_of_isLeast hk]
    refine ⟨?_, fun j hj => ?_⟩
    · have : 0 < b.clear.card := Finset.card_pos.2 ⟨k, hmem⟩
      rw [hclear, Finset.card_erase_of_mem hmem, Bitmap.grab_unused, hI.unused]
      omega
    · rw [hclear, Finset.mem_erase] at hj
      have := hk.2 hj.2
      rw [Bitmap.grab_allocation]
      omega

/-! ### Giving back -/

/-- `bitmap_free` of an index out of range, or of a clear bit. -/
theorem bitmapFree_refuse {index : ℤ}
    (h : ∀ k : ℕ, index = k → (k : ℤ) < b.size → b.test k = false) :
    (bitmapFree b index).size = b.size ∧ (bitmapFree b index).unused = b.unused ∧
      (bitmapFree b index).allocation ≤ b.allocation ∧
        ∀ j, (bitmapFree b index).test j = b.test j := by
  unfold bitmapFree
  by_cases hrange : index < 0 ∨ index ≥ b.size
  · rw [if_pos hrange]
    exact ⟨rfl, rfl, le_rfl, fun _ => rfl⟩
  · have htest : b.test index.toNat = false := h index.toNat (by omega) (by omega)
    rw [if_neg hrange]
    by_cases hlt : index.toNat < b.allocation
    · have htest' : Bitmap.test { b with allocation := index.toNat } index.toNat = false := htest
      simp only [if_pos hlt, htest', Bool.false_eq_true, if_false]
      exact ⟨trivial, trivial, hlt.le, fun _ => rfl⟩
    · simp only [if_neg hlt, htest, Bool.false_eq_true, if_false]
      exact ⟨trivial, trivial, le_rfl, fun _ => trivial⟩

theorem FitInv.free (hI : FitInv b) (index : ℤ) : FitInv (bitmapFree b index) := by
  by_cases hset : ∃ k : ℕ, index = k ∧ (k : ℤ) < b.size ∧ b.test k = true
  · obtain ⟨k, rfl, hsize, htest⟩ := hset
    have hnot : k ∉ b.clear := fun h => by simp [(mem_clear.1 h).2] at htest
    have hclear : (b.drop k).clear = insert k b.clear := by
      ext j
      by_cases hj : j = k
      · simp [mem_clear, hj, hsize]
      · simp [mem_clear, hj]
    rw [bitmapFree_of_test hsize htest]
    refine ⟨?_, fun j hj => ?_⟩
    · rw [hclear, Finset.card_insert_of_notMem hnot, Bitmap.drop_unused, hI.unused]
      push_cast
      rfl
    · rw [Bitmap.drop_allocation]
      rw [hclear, Finset.mem_insert] at hj
      rcases hj with rfl | hj
      · exact Nat.min_le_right _ _
      · exact (Nat.min_le_left _ _).trans (hI.hint j hj)
  · have hrefuse : ∀ k : ℕ, index = k → (k : ℤ) < b.size → b.test k = false := fun k hk hlt => by
      by_contra hset'
      exact hset ⟨k, hk, hlt, by simpa using hset'⟩
    obtain ⟨hsize, hunused, hhint, htest⟩ := bitmapFree_refuse hrefuse
    have hclear := clear_congr hsize fun j _ => htest j
    refine ⟨?_, fun j hj => ?_⟩
    · rw [hclear, hunused, hI.unused]
    · rw [hclear] at hj
      exact hhint.trans (hI.hint j hj)

theorem bitmapIsFree_eq (b : Bitmap) (index : ℤ) : bitmapIsFree b index =
    if 0 ≤ index ∧ index < b.size then if index.toNat ∈ b.clear then 1 else 0 else -1 := by
  unfold bitmapIsFree
  by_cases hrange : 0 ≤ index ∧ index < b.size
  · have hsize : (index.toNat : ℤ) < b.size := by omega
    rw [if_neg (by omega), if_pos hrange]
    by_cases hmem : index.toNat ∈ b.clear
    · rw [if_pos hmem, (mem_clear.1 hmem).2]
      rfl
    · have htest : b.test index.toNat = true := by
        by_contra hclear
        exact hmem (mem_clear.2 ⟨hsize, by simpa using hclear⟩)
      rw [if_neg hmem, if_pos htest]
  · rw [if_pos (by omega), if_neg hrange]

theorem FitInv.firstFit (hI : FitInv b) : FirstFit b := by
  refine ⟨fun k hk => ?_, ?_, fun k hsize htest => ?_, fun index h => ?_, hI.unused,
    bitmapIsFree_eq b⟩
  · rw [hI.alloc_of_isLeast hk]
    exact ⟨rfl, fun j => Bitmap.test_grab⟩
  · constructor
    · intro halloc k hk
      by_contra hclear
      have hmem : k ∈ b.clear := mem_clear.2 ⟨hk, by simpa using hclear⟩
      rcases clear_cases b with hempty | ⟨l, hl⟩
      · simp [hempty] at hmem
      · rw [hI.alloc_of_isLeast hl] at halloc
        dsimp only at halloc
        omega
    · intro hfull
      have hempty : b.clear = ∅ := by
        refine Finset.eq_empty_of_forall_notMem fun k hk => ?_
        obtain ⟨hsize, htest⟩ := mem_clear.1 hk
        simp [hfull k hsize] at htest
      rw [hI.alloc_of_empty hempty]
  · rw [bitmapFree_of_test hsize htest]
    exact ⟨rfl, fun j => Bitmap.test_drop⟩
  · obtain ⟨-, hunused, -, htest⟩ := bitmapFree_refuse h
    exact ⟨hunused, htest⟩

end

/-- A bitmap is a first-fit allocator in every run of its users: `bitmap_alloc` takes the least
clear bit, `bitmap_free` clears a bit that is set and refuses all others, and `unused` is the number
of the clear bits. -/
theorem firstFit_of_reachable {b : Bitmap} (h : Reachable BitmapStart BitmapStep b) :
    FirstFit b := by
  have hinv : FitInv b := by
    refine h.invariant (fun _ => BitmapStart.inv) fun b e b' hI hstep => ?_
    cases e with
    | alloc => exact hstep ▸ hI.alloc
    | free index => exact hstep ▸ hI.free index
  exact hinv.firstFit

/-- Two bits are taken and the first one is given back; the bits beyond the size are set. -/
theorem firstFit_three_bits : ∃ b, Reachable BitmapStart BitmapStep b ∧ FirstFit b ∧
    (bitmapAlloc b).1 = 0 ∧ b.test 5 = true := by
  have h₀ : Reachable BitmapStart BitmapStep ⟨fun _ => 0xfffffffffffffff8, 3, 3, 0⟩ := by
    refine .start ⟨by decide, fun _ => 0xfffffffffffffff8, rfl, rfl, fun k hk => ?_⟩
    rw [test_bitmapInit hk]
    have hk : k < 3 := Int.ofNat_lt.1 hk
    interval_cases k <;> decide
  have h₁ := h₀.next (a := BitmapEvent.alloc) rfl
  have h₂ := h₁.next (a := BitmapEvent.alloc) rfl
  have h₃ := h₂.next (a := BitmapEvent.free 0) rfl
  exact ⟨_, h₃, firstFit_of_reachable h₃, by decide, by decide⟩

/-! ### Bitmaps from a device -/

/-- `bitmap_alloc` fails and leaves the bitmap alone, or takes a clear bit below the size. -/
def AllocSafe (b : Bitmap) : Prop :=
  bitmapAlloc b = (-1, b) ∨ ∃ k : ℕ, (bitmapAlloc b).1 = k ∧ (k : ℤ) < b.size ∧
    b.test k = false ∧ ∀ j, (bitmapAlloc b).2.test j = (decide (j = k) || b.test j)

/-- `bitmap_reset_allo` leaves the bits alone. -/
def ResetNeutral (b : Bitmap) : Prop :=
  ∀ j, (bitmapResetAllo b b.allocation).test j = b.test j

/-- `bitmap_alloc` is safe for any map, hint and count exactly if the bit after the last one is not
the first clear one. -/
theorem allocSafe_iff {b : Bitmap} (hhint : (b.allocation : ℤ) ≤ b.size) (hunused : b.unused ≠ 0) :
    AllocSafe b ∧ ResetNeutral b ↔ ¬b.FirstClear b.allocation (64 * b.words) b.size.toNat := by
  have hsize : ((b.size.toNat : ℕ) : ℤ) = b.size := Int.toNat_of_nonneg (by omega)
  constructor
  · rintro ⟨-, hreset⟩ hfirst
    have hset := hreset b.size.toNat
    rw [bitmapResetAllo_of_eq hunused hfirst hsize, Bitmap.test_grab, hfirst.clear] at hset
    simp at hset
  · intro hnot
    rcases bitmapAlloc_cases b with h | ⟨k, hk, hle, h⟩
    · refine ⟨.inl h, fun j => ?_⟩
      have hreset : bitmapResetAllo b b.allocation = b := by
        rw [bitmapResetAllo, show ({ b with allocation := b.allocation } : Bitmap) = b from rfl, h]
        exact if_pos (.inl (by decide))
      rw [hreset]
    · have hlt : (k : ℤ) < b.size := by
        refine lt_of_le_of_ne hle fun heq => hnot ?_
        rwa [← heq, Int.toNat_natCast]
      refine ⟨.inr ⟨k, by rw [h], hlt, hk.clear, fun j => ?_⟩, ?_⟩
      · rw [h, Bitmap.test_grab]
      · exact (bitmapResetAllo_of_lt hunused hk hlt).2.2

/-- Three bits, the last one of them clear. -/
theorem allocSafe_three_bits : ∃ b : Bitmap, (b.allocation : ℤ) ≤ b.size ∧ b.unused ≠ 0 ∧
    AllocSafe b ∧ ResetNeutral b ∧ (bitmapAlloc b).1 = 2 := by
  refine ⟨⟨fun _ => 3, 3, 7, 1⟩, by decide, by decide, ?_⟩
  obtain ⟨hsafe, hreset⟩ := (allocSafe_iff (b := ⟨fun _ => 3, 3, 7, 1⟩) (by decide)
    (by decide)).2 fun h => absurd (h.first 2 (by decide) (by decide)) (by decide)
  exact ⟨hsafe, hreset, by decide⟩

/-- Three bits that are all set: the fourth one is handed out, and not given back. -/
theorem exists_alloc_out_of_range : ∃ b : Bitmap, (b.allocation : ℤ) ≤ b.size ∧ b.unused ≠ 0 ∧
    (bitmapAlloc b).1 = b.size ∧ ¬AllocSafe b ∧ ¬ResetNeutral b := by
  refine ⟨⟨fun _ => 7, 3, 1, 0⟩, by decide, by decide, by decide, ?_, fun h => ?_⟩
  · rintro (h | ⟨k, hk, hlt, -⟩)
    · exact absurd (congrArg Prod.fst h) (by decide)
    · rw [← hk] at hlt
      exact absurd hlt (by decide)
  · exact absurd (h 3) (by decide)

end RiscvLab
