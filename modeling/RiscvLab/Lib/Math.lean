import Mathlib.Data.Nat.Log
import Mathlib.Data.Nat.Bitwise
import Mathlib.Data.BitVec
import Mathlib.Order.Bounds.Defs

/-!
# Powers of two

`next_power_of_2` rounds a 64-bit number up by smearing its highest set bit over all lower ones:
the result is the power of two of the rounded logarithm, `nextPowerOf2_toNat`. `calculate_order`
counts the shifts until nothing is left: the result is that logarithm, `calculateOrder_eq`.

## Main results

* `powersOfTwo_agree` : the results are the least power of two and the least exponent.

Source: `lib/math.c`, lines 3–33.
-/

namespace RiscvLab

/-- One line `n |= n >> w` of `next_power_of_2`. -/
def smear (n : BitVec 64) (w : ℕ) : BitVec 64 := n ||| n >>> w

/-- `next_power_of_2`. -/
def nextPowerOf2 (n : BitVec 64) : BitVec 64 :=
  if n = 0 then 1
  else
    let n := n - 1
    let n := smear n 1
    let n := smear n 2
    let n := smear n 4
    let n := smear n 8
    let n := smear n 16
    let n := smear n 32
    n + 1

/-- The bits of `x` are those of `m` smeared downwards over `w` positions. -/
private def Smeared (m : BitVec 64) (w : ℕ) (x : BitVec 64) : Prop :=
  ∀ i, x.getLsbD i = true ↔ ∃ j < w, m.getLsbD (i + j) = true

private theorem Smeared.smear {m x : BitVec 64} {w : ℕ} (h : Smeared m w x) :
    Smeared m (w + w) (smear x w) := by
  intro i
  rw [RiscvLab.smear, BitVec.getLsbD_or, Bool.or_eq_true, BitVec.getLsbD_ushiftRight, h i,
    h (w + i)]
  constructor
  · rintro (⟨j, hj, hm⟩ | ⟨j, hj, hm⟩)
    · exact ⟨j, by omega, hm⟩
    · exact ⟨w + j, by omega, by rwa [← Nat.add_assoc, Nat.add_comm i w]⟩
  · rintro ⟨j, hj, hm⟩
    by_cases hjw : j < w
    · exact Or.inl ⟨j, hjw, hm⟩
    · exact Or.inr ⟨j - w, by omega, by rwa [show w + i + (j - w) = i + j by omega]⟩

/-- A bit at or above position `i` is set exactly when the number reaches `2^i`. -/
private theorem exists_getLsbD_iff (m : BitVec 64) (i : ℕ) :
    (∃ j < 64, m.getLsbD (i + j) = true) ↔ 2 ^ i ≤ m.toNat := by
  constructor
  · rintro ⟨j, -, hm⟩
    exact (Nat.pow_le_pow_right (by decide) (Nat.le_add_right i j)).trans
      (Nat.ge_two_pow_of_testBit hm)
  · intro hle
    obtain ⟨k, hk, hbit⟩ := Nat.exists_ge_and_testBit_of_ge_two_pow hle
    have hlt : k < 64 := by
      by_contra hge
      rw [BitVec.testBit_toNat, BitVec.getLsbD_of_ge m k (Nat.le_of_not_lt hge)] at hbit
      exact Bool.false_ne_true hbit
    exact ⟨k - i, by omega, by rwa [Nat.add_sub_cancel' hk]⟩

private theorem Smeared.toNat_eq {m x : BitVec 64} (h : Smeared m 64 x) :
    x.toNat = 2 ^ Nat.clog 2 (m.toNat + 1) - 1 := by
  apply Nat.eq_of_testBit_eq
  intro i
  rw [BitVec.testBit_toNat, Nat.testBit_two_pow_sub_one, Bool.eq_iff_iff, h i,
    exists_getLsbD_iff, decide_eq_true_iff, Nat.lt_clog_iff_pow_lt (by decide), Nat.lt_succ_iff]

/-- The result is the least power of two that is not below the argument. -/
theorem nextPowerOf2_toNat {n : BitVec 64} (h1 : 1 ≤ n.toNat) (h63 : n.toNat ≤ 2 ^ 63) :
    (nextPowerOf2 n).toNat = 2 ^ Nat.clog 2 n.toNat := by
  have hn : n ≠ 0 := by
    rintro rfl
    exact absurd h1 (by decide)
  have hm : (n - 1).toNat + 1 = n.toNat := by bv_omega
  have h0 : Smeared (n - 1) 1 (n - 1) := fun i => by simp
  have hs := (h0.smear.smear.smear.smear.smear.smear).toNat_eq
  rw [hm] at hs
  have hclog : Nat.clog 2 n.toNat ≤ 63 := Nat.clog_le_of_le_pow h63
  have hle : 2 ^ Nat.clog 2 n.toNat ≤ 2 ^ 63 := Nat.pow_le_pow_right (by decide) hclog
  have hpos := Nat.two_pow_pos (Nat.clog 2 n.toNat)
  rw [nextPowerOf2, if_neg hn]
  dsimp only
  rw [BitVec.toNat_add, hs]
  rw [show (1 : BitVec 64).toNat = 1 from rfl]
  omega

/-- The loop of `calculate_order`. -/
def calculateOrderLoop (size order : BitVec 32) : BitVec 32 :=
  if size = 0 then order else calculateOrderLoop (size >>> 1) (order + 1)
  termination_by size.toNat
  decreasing_by
    rename_i h
    have hpos : size.toNat ≠ 0 := fun h₀ => h (BitVec.eq_of_toNat_eq h₀)
    rw [BitVec.toNat_ushiftRight, Nat.shiftRight_eq_div_pow]
    omega

/-- `calculate_order`. -/
def calculateOrder (size : BitVec 32) : BitVec 32 :=
  if size = 0 then 0 else calculateOrderLoop (size - 1) 0

private theorem calculateOrderLoop_eq (size order : BitVec 32) :
    calculateOrderLoop size order = order + BitVec.ofNat 32 (Nat.clog 2 (size.toNat + 1)) := by
  induction size, order using calculateOrderLoop.induct with
  | case1 order =>
    rw [calculateOrderLoop, if_pos rfl]
    simp
  | case2 size order h ih =>
    have hpos : size.toNat ≠ 0 := fun h₀ => h (BitVec.eq_of_toNat_eq h₀)
    have hclog : Nat.clog 2 (size.toNat + 1) = Nat.clog 2 (size.toNat / 2 + 1) + 1 := by
      rw [Nat.clog_of_two_le (by decide) (by omega)]
      congr 2
      omega
    rw [calculateOrderLoop, if_neg h, ih, hclog, BitVec.toNat_ushiftRight,
      Nat.shiftRight_eq_div_pow, Nat.pow_one, BitVec.ofNat_add, BitVec.add_assoc,
      BitVec.add_comm 1]
    rfl

/-- The result is the rounded logarithm. -/
theorem calculateOrder_eq {size : BitVec 32} (h : 1 ≤ size.toNat) :
    calculateOrder size = BitVec.ofNat 32 (Nat.clog 2 size.toNat) := by
  have hne : size ≠ 0 := by
    rintro rfl
    exact absurd h (by decide)
  have hm : (size - 1).toNat + 1 = size.toNat := by bv_omega
  rw [calculateOrder, if_neg hne, calculateOrderLoop_eq, hm]
  exact BitVec.zero_add _

theorem calculateOrder_toNat {size : BitVec 32} (h : 1 ≤ size.toNat) :
    (calculateOrder size).toNat = Nat.clog 2 size.toNat := by
  have hclog : Nat.clog 2 size.toNat ≤ 32 := Nat.clog_le_of_le_pow size.isLt.le
  rw [calculateOrder_eq h, BitVec.toNat_ofNat, Nat.mod_eq_of_lt (by omega)]

/-! ### The least power -/

private theorem isLeast_clog (n : ℕ) : IsLeast {k | n ≤ 2 ^ k} (Nat.clog 2 n) :=
  ⟨Nat.le_pow_clog (by decide) n, fun _ hk => Nat.clog_le_of_le_pow hk⟩

private theorem isLeast_two_pow_clog (n : ℕ) :
    IsLeast {m | (∃ k, m = 2 ^ k) ∧ n ≤ m} (2 ^ Nat.clog 2 n) := by
  obtain ⟨hle, hleast⟩ := isLeast_clog n
  refine ⟨⟨⟨_, rfl⟩, hle⟩, ?_⟩
  rintro _ ⟨⟨k, rfl⟩, hk⟩
  exact Nat.pow_le_pow_right (by decide) (hleast hk)

/-- `next_power_of_2` returns the least power of two that is not below its argument, up to `2^63`,
and `calculate_order` the least exponent of such a power, so that they agree. -/
theorem powersOfTwo_agree :
    (∀ n : BitVec 64, 1 ≤ n.toNat → n.toNat ≤ 2 ^ 63 →
      IsLeast {m | (∃ k, m = 2 ^ k) ∧ n.toNat ≤ m} (nextPowerOf2 n).toNat) ∧
    ∀ n : BitVec 32, 1 ≤ n.toNat →
      IsLeast {k | n.toNat ≤ 2 ^ k} (calculateOrder n).toNat ∧
        (nextPowerOf2 (n.setWidth 64)).toNat = 2 ^ (calculateOrder n).toNat := by
  refine ⟨fun n h1 h63 => ?_, fun n h1 => ⟨?_, ?_⟩⟩
  · rw [nextPowerOf2_toNat h1 h63]
    exact isLeast_two_pow_clog n.toNat
  · rw [calculateOrder_toNat h1]
    exact isLeast_clog n.toNat
  · have hn : (n.setWidth 64).toNat = n.toNat := BitVec.toNat_setWidth_of_le (by decide)
    have hlt := n.isLt
    rw [nextPowerOf2_toNat (by omega) (by omega), calculateOrder_toNat h1, hn]

/-- An object of 24 bytes. -/
theorem powersOfTwo_agree_24 :
    IsLeast {m | (∃ k, m = 2 ^ k) ∧ 24 ≤ m} (nextPowerOf2 24).toNat ∧
      IsLeast {k | 24 ≤ 2 ^ k} (calculateOrder 24).toNat ∧
        (nextPowerOf2 ((24 : BitVec 32).setWidth 64)).toNat = 2 ^ (calculateOrder 24).toNat :=
  ⟨powersOfTwo_agree.1 24 (by decide) (by decide), powersOfTwo_agree.2 24 (by decide)⟩

end RiscvLab
