import Mathlib.Data.List.GetD
import Mathlib.Data.List.Range
import Mathlib.Logic.Function.Basic

/-!
# Stores of bytes

A store maps addresses to bytes. `patch` overwrites a range with a list, and `slice` reads a range
as a list. `overlay` writes to a list, which grows if need be.
-/

namespace RiscvLab.Library

variable {β : Type*}

/-- The store `f` with the bytes `l` at address `a`. -/
def patch (f : ℕ → β) (a : ℕ) (l : List β) (i : ℕ) : β :=
  if i < a then f i else l.getD (i - a) (f i)

/-- The `n` bytes at address `a`. -/
def slice (f : ℕ → β) (a n : ℕ) : List β := (List.range n).map fun i => f (a + i)

@[simp]
theorem length_slice (f : ℕ → β) (a n : ℕ) : (slice f a n).length = n := by simp [slice]

theorem patch_of_lt {f : ℕ → β} {a i : ℕ} {l : List β} (h : i < a) : patch f a l i = f i :=
  if_pos h

theorem patch_of_ge {f : ℕ → β} {a i : ℕ} {l : List β} (h : a + l.length ≤ i) :
    patch f a l i = f i := by
  rw [patch, if_neg (by omega), List.getD_eq_default _ _ (by omega)]

theorem patch_of_mem {f : ℕ → β} {a i : ℕ} {l : List β} (h₁ : a ≤ i) (h₂ : i - a < l.length) :
    patch f a l i = l[i - a] := by
  rw [patch, if_neg (by omega), List.getD_eq_getElem _ _ h₂]

/-- Writing a sequence in two parts. -/
theorem patch_append (f : ℕ → β) (a : ℕ) (l₁ l₂ : List β) :
    patch f a (l₁ ++ l₂) = patch (patch f a l₁) (a + l₁.length) l₂ := by
  funext i
  by_cases h₁ : i < a
  · rw [patch_of_lt h₁, patch_of_lt (by omega), patch_of_lt h₁]
  · by_cases h₂ : i < a + l₁.length
    · rw [patch_of_lt h₂, patch_of_mem (by omega) (by simp; omega),
        patch_of_mem (by omega) (by omega), List.getElem_append_left]
    · by_cases h₃ : i < a + l₁.length + l₂.length
      · rw [patch_of_mem (by omega) (by simp; omega), patch_of_mem (by omega) (by omega),
          List.getElem_append_right (by omega)]
        simp only [Nat.sub_sub]
      · rw [patch_of_ge (by simp; omega), patch_of_ge (by omega), patch_of_ge (by omega)]

theorem getD_slice {f : ℕ → β} {a n i : ℕ} (h : i < n) (d : β) :
    (slice f a n).getD i d = f (a + i) := by
  rw [List.getD_eq_getElem _ _ (by rwa [length_slice])]
  simp [slice]

theorem slice_getD (l : List β) (d : β) : slice (l.getD · d) 0 l.length = l := by
  refine List.ext_getElem (length_slice ..) fun k _ hk => ?_
  simp [slice, hk]

theorem slice_add (f : ℕ → β) (a m n : ℕ) :
    slice f a (m + n) = slice f a m ++ slice f (a + m) n := by
  simp [slice, List.range_add, Function.comp_def, Nat.add_assoc]

theorem take_slice (f : ℕ → β) (a n k : ℕ) : (slice f a n).take k = slice f a (min k n) := by
  rw [slice, ← List.map_take, List.take_range, slice]

theorem drop_slice (f : ℕ → β) (a n k : ℕ) : (slice f a n).drop k = slice f (a + k) (n - k) := by
  by_cases hk : k ≤ n
  · have h := slice_add f a k (n - k)
    rw [Nat.add_sub_cancel' hk] at h
    rw [h, List.drop_left' (length_slice ..)]
  · rw [List.drop_eq_nil_of_le (by rw [length_slice]; omega), Nat.sub_eq_zero_of_le (by omega)]
    rfl

theorem slice_congr {f g : ℕ → β} {a b n : ℕ} (h : ∀ i < n, f (a + i) = g (b + i)) :
    slice f a n = slice g b n :=
  List.map_congr_left fun i hi => h i (List.mem_range.mp hi)

/-- The sequence `l` with `data` written at `o`. -/
def overlay (l : List β) (o : ℕ) (data : List β) : List β :=
  l.take o ++ data ++ l.drop (o + data.length)

/-- A store that has been written to inside or at the end of a range. -/
theorem slice_overlay {f g : ℕ → β} {n o : ℕ} {data : List β} (ho : o ≤ n)
    (hdata : ∀ k (hk : k < data.length), g (o + k) = data[k])
    (hrest : ∀ k < n, k < o ∨ o + data.length ≤ k → g k = f k) :
    slice g 0 (max n (o + data.length)) = overlay (slice f 0 n) o data := by
  have hlen : max n (o + data.length) = o + (data.length + (n - (o + data.length))) := by omega
  have hmid : slice g o data.length = data := by
    refine List.ext_getElem (length_slice ..) fun k _ hk => ?_
    rw [← hdata k hk]
    simp [slice]
  rw [hlen, slice_add, slice_add, Nat.zero_add, hmid, overlay, take_slice, drop_slice,
    Nat.zero_add, min_eq_left ho, List.append_assoc]
  congr 1
  · exact slice_congr fun k hk => hrest _ (by omega) (by omega)
  · congr 1
    exact slice_congr fun k hk => hrest _ (by omega) (by omega)

end RiscvLab.Library
