import Mathlib.Data.BitVec

/-!
# Counters of type `int`

A 32-bit word as a signed counter: stepping it by one, inside the range.
-/

namespace RiscvLab.Library

theorem toInt_ofNat {n : ℕ} (h : n < 2 ^ 31) : (BitVec.ofNat 32 n).toInt = n := by
  have hmod : (BitVec.ofNat 32 n).toNat = n := by
    rw [BitVec.toNat_ofNat, Nat.mod_eq_of_lt (by omega)]
  rw [BitVec.toInt_eq_toNat_of_lt (by omega), hmod]

theorem ofNat_sub_one {n : ℕ} (h : 0 < n) : BitVec.ofNat 32 (n - 1) = BitVec.ofNat 32 n + -1 := by
  have hadd : BitVec.ofNat 32 (n - 1 + 1) = BitVec.ofNat 32 (n - 1) + 1 := BitVec.ofNat_add ..
  rw [Nat.sub_add_cancel h] at hadd
  rw [hadd, add_neg_cancel_right]

theorem toInt_add_one {x : BitVec 32} (h : x.toInt < 2 ^ 31 - 1) :
    (x + 1).toInt = x.toInt + 1 := by
  have hle := x.le_two_mul_toInt
  rw [BitVec.toInt_add, show (1 : BitVec 32).toInt = 1 from rfl]
  exact Int.bmod_eq_of_le (by omega) (by omega)

theorem toInt_sub_one {x : BitVec 32} (h : -2 ^ 31 < x.toInt) : (x - 1).toInt = x.toInt - 1 := by
  have hlt := x.two_mul_toInt_lt
  rw [BitVec.toInt_sub, show (1 : BitVec 32).toInt = 1 from rfl]
  exact Int.bmod_eq_of_le (by omega) (by omega)

end RiscvLab.Library
