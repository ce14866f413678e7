import Mathlib.Data.BitVec
import RiscvLab.Library.Bytes

/-!
# Little-endian words in a store of bytes

Words of 32 and 64 bits are read from a store of bytes, least significant byte first. A sequence of
32-bit words that has been written with `patch` is read back word by word (`word32_patch`), and a
bit of a word is a bit of one of its bytes (`getLsbD_word64`).
-/

namespace RiscvLab.Library

/-- The 32-bit word at address `a`. -/
def word32 (f : ℕ → BitVec 8) (a : ℕ) : BitVec 32 :=
  f (a + 3) ++ (f (a + 2) ++ (f (a + 1) ++ f a))

/-- The 64-bit word at address `a`. -/
def word64 (f : ℕ → BitVec 8) (a : ℕ) : BitVec 64 := word32 f (a + 4) ++ word32 f a

/-- The bytes of a 32-bit word. -/
def bytes32 (w : BitVec 32) : List (BitVec 8) :=
  [w.extractLsb' 0 8, w.extractLsb' 8 8, w.extractLsb' 16 8, w.extractLsb' 24 8]

@[simp]
theorem length_bytes32 (w : BitVec 32) : (bytes32 w).length = 4 := rfl

theorem getLsbD_word32 {f : ℕ → BitVec 8} {a j : ℕ} (hj : j < 32) :
    (word32 f a).getLsbD j = (f (a + j / 8)).getLsbD (j % 8) := by
  simp only [word32, BitVec.getLsbD_append]
  have h : j < 8 ∨ 8 ≤ j ∧ j < 16 ∨ 16 ≤ j ∧ j < 24 ∨ 24 ≤ j ∧ j < 32 := by omega
  rcases h with h | h | h | h
  · rw [if_pos (by omega), if_pos (by omega), if_pos h, show a + j / 8 = a by omega,
      Nat.mod_eq_of_lt h]
  · rw [if_pos (by omega), if_pos (by omega), if_neg (by omega), show a + j / 8 = a + 1 by omega,
      show j % 8 = j - 8 by omega]
  · rw [if_pos (by omega), if_neg (by omega), show a + j / 8 = a + 2 by omega,
      show j % 8 = j - (8 + 8) by omega]
  · rw [if_neg (by omega), show a + j / 8 = a + 3 by omega,
      show j % 8 = j - (8 + (8 + 8)) by omega]

/-- A bit of a word is a bit of one of its bytes. -/
theorem getLsbD_word64 {f : ℕ → BitVec 8} {a j : ℕ} (hj : j < 64) :
    (word64 f a).getLsbD j = (f (a + j / 8)).getLsbD (j % 8) := by
  rw [word64, BitVec.getLsbD_append]
  split
  · next h => exact getLsbD_word32 h
  · next h =>
    rw [getLsbD_word32 (by omega), show a + 4 + (j - 32) / 8 = a + j / 8 by omega,
      show (j - 32) % 8 = j % 8 by omega]

theorem getLsbD_bytes32 {w : BitVec 32} {i j : ℕ} (hi : i < 4) (hj : j < 8) :
    ((bytes32 w).getD i 0).getLsbD j = w.getLsbD (8 * i + j) := by
  have h : i = 0 ∨ i = 1 ∨ i = 2 ∨ i = 3 := by omega
  rcases h with rfl | rfl | rfl | rfl <;> simp [bytes32, hj]

theorem word32_congr {f g : ℕ → BitVec 8} {a b : ℕ} (h : ∀ i < 4, f (a + i) = g (b + i)) :
    word32 f a = word32 g b := by
  have h₀ := h 0 (by omega)
  simp only [Nat.add_zero] at h₀
  rw [word32, word32, h 1 (by omega), h 2 (by omega), h 3 (by omega), h₀]

theorem word32_eq_zero {f : ℕ → BitVec 8} {a : ℕ} (h : ∀ i < 4, f (a + i) = 0) :
    word32 f a = 0 := by
  have hzero : word32 (fun _ => 0) 0 = 0 := rfl
  rw [← hzero]
  exact word32_congr h

theorem word32_bytes32 (w : BitVec 32) : word32 (fun i => (bytes32 w).getD i 0) 0 = w := by
  apply BitVec.eq_of_getLsbD_eq
  intro j hj
  rw [getLsbD_word32 hj, Nat.zero_add, getLsbD_bytes32 (by omega) (by omega), Nat.div_add_mod]

/-- The words of a sequence, written one after the other, are read back. -/
theorem word32_patch {f : ℕ → BitVec 8} {a : ℕ} {ws : List (BitVec 32)} {i : ℕ}
    (hi : i < ws.length) : word32 (patch f a (ws.flatMap bytes32)) (a + 4 * i) = ws[i] := by
  induction ws generalizing f a i with
  | nil => simp at hi
  | cons w ws ih =>
    rw [List.flatMap_cons, patch_append, length_bytes32]
    cases i with
    | zero =>
      rw [← word32_bytes32 (w :: ws)[0]]
      refine word32_congr fun j hj => ?_
      rw [patch_of_lt (by omega), patch_of_mem (by omega) (by simp; omega)]
      simp only [Nat.zero_add, Nat.mul_zero, Nat.add_zero, Nat.add_sub_cancel_left,
        List.getElem_cons_zero]
      exact (List.getD_eq_getElem _ _ _).symm
    | succ i =>
      rw [show a + 4 * (i + 1) = a + 4 + 4 * i by omega]
      exact ih (by simpa using hi)

theorem word32_patch_of_disjoint {f : ℕ → BitVec 8} {a b : ℕ} {l : List (BitVec 8)}
    (h : b + 4 ≤ a ∨ a + l.length ≤ b) : word32 (patch f a l) b = word32 f b := by
  refine word32_congr fun i hi => ?_
  rcases h with h | h
  · exact patch_of_lt (by omega)
  · exact patch_of_ge (by omega)

@[simp]
theorem length_flatMap_bytes32 (ws : List (BitVec 32)) :
    (ws.flatMap bytes32).length = 4 * ws.length := by
  induction ws with
  | nil => rfl
  | cons w ws ih =>
    rw [List.flatMap_cons, List.length_append, ih, length_bytes32, List.length_cons]
    omega

end RiscvLab.Library
