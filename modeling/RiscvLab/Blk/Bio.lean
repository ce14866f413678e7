import RiscvLab.Mm.Buddy

/-!
# Splitting a transfer into blocks

`bio_list_make` splits a byte range of a device into one `struct bio` for each block that the range
touches. The arithmetic is that of `uint32`. The chain is built from its end, so that the block
numbers are assigned downwards.

`Covers` says that a chain is a partition of a range: `bioListMake_covers`.

Source: `kernel/dev/blk/bio.c`, lines 9–72; `include/dev/blk/bio.h`.
-/

namespace RiscvLab.Blk

open Mm (Trap)

/-- `BLK_SIZE`. -/
def blkSize : ℕ := 4096

/-- The value of an expression of type `uint32`. -/
def u32 (n : ℕ) : ℕ := n % 2 ^ 32

/-- `struct bio`; a chain is a list. -/
structure Bio where
  blockno : ℕ
  offset : ℕ
  len : ℕ
  deriving DecidableEq

/-- Subtracting one from a `uint32`. -/
def decr (n : ℕ) : ℕ := u32 (n + (2 ^ 32 - 1))

/-- The loop of `bio_list_make` over the blocks in the middle, while `count > 1`. -/
def bioMiddleLoop : ℕ → ℕ → List Bio → ℕ × List Bio
  | 0, blockno, bioList => (blockno, bioList)
  | count + 1, blockno, bioList =>
    if count + 1 > 1 then
      bioMiddleLoop count (decr blockno) (⟨decr blockno, 0, blkSize⟩ :: bioList)
    else (blockno, bioList)

/-- The part of `bio_list_make` after `count` has been computed; `last` is `offset + len - 1`. -/
def bioListSplit (blockno offset len last count : ℕ) : Except Trap (List Bio) :=
  if count = 1 then .ok [⟨blockno, offset, len⟩]
  else if count > 1 then
    let blockno := decr (u32 (blockno + count))
    let (blockno, bioList) :=
      bioMiddleLoop (count - 1) blockno [⟨blockno, 0, last % blkSize + 1⟩]
    .ok (⟨decr blockno, offset, blkSize - offset⟩ :: bioList)
  else .error .panic

/-- `bio_list_make`. -/
def bioListMake (blockno offset len : ℕ) : Except Trap (List Bio) :=
  if len = 0 then .ok []
  else
    let last := decr (u32 (offset % blkSize + len))
    bioListSplit (u32 (blockno + offset / blkSize)) (offset % blkSize) len last (last / blkSize + 1)

/-- The chain is a partition of the `n` bytes from address `a` on into parts of single blocks. -/
def Covers : List Bio → ℕ → ℕ → Prop
  | [], _, n => n = 0
  | b :: bs, a, n => 1 ≤ b.len ∧ b.offset + b.len ≤ blkSize ∧ b.len ≤ n ∧
      b.blockno * blkSize + b.offset = a ∧ Covers bs (a + b.len) (n - b.len)

theorem decr_succ {n : ℕ} (h : n < 2 ^ 32) : decr (u32 (n + 1)) = n := by
  simp only [decr, u32]
  omega

theorem decr_of_lt {n : ℕ} (h : n < 2 ^ 32) : decr (n + 1) = n := by
  simp only [decr, u32]
  omega

/-- The middle blocks in front of a chain that continues them. -/
private theorem bioMiddleLoop_covers {count n : ℕ} (hn : n + count < 2 ^ 32) {bs : List Bio}
    {m : ℕ} (hbs : Covers bs ((n + count) * blkSize) m) :
    ∃ bs', bioMiddleLoop (count + 1) (n + count) bs = (n, bs') ∧
      Covers bs' (n * blkSize) (count * blkSize + m) := by
  induction count generalizing bs m with
  | zero => exact ⟨bs, rfl, by simpa using hbs⟩
  | succ count ih =>
    have hdecr : decr (n + (count + 1)) = n + count :=
      decr_of_lt (n := n + count) (by omega)
    have hmul : (n + (count + 1)) * blkSize = (n + count) * blkSize + blkSize := by
      rw [← Nat.add_assoc, Nat.succ_mul]
    have hcons : Covers (⟨n + count, 0, blkSize⟩ :: bs) ((n + count) * blkSize) (blkSize + m) :=
      ⟨Nat.succ_pos 4095, by simp, by simp, by simp, by simpa [← hmul] using hbs⟩
    obtain ⟨bs', hloop, hcov⟩ := ih (by omega) hcons
    refine ⟨bs', ?_, ?_⟩
    · rw [bioMiddleLoop, if_pos (by omega), hdecr, hloop]
    · rwa [Nat.succ_mul, Nat.add_assoc]

private theorem bioListSplit_one {B o len last : ℕ} (hlen : 0 < len)
    (hend : o + len ≤ blkSize) :
    ∃ bs, bioListSplit B o len last 1 = .ok bs ∧ Covers bs (B * blkSize + o) len :=
  ⟨[⟨B, o, len⟩], if_pos rfl, hlen, hend, le_rfl, rfl, Nat.sub_self _⟩

private theorem bioListSplit_many {B o len last r k : ℕ} (hr : last % blkSize = r)
    (hrlt : r < blkSize) (holt : o < blkSize)
    (hlen : o + len = (k + 1) * blkSize + (r + 1)) (hB : B + (k + 1) < 2 ^ 32) :
    ∃ bs, bioListSplit B o len last (k + 2) = .ok bs ∧ Covers bs (B * blkSize + o) len := by
  have hcov : Covers [⟨B + 1 + k, 0, r + 1⟩] ((B + 1 + k) * blkSize) (r + 1) :=
    ⟨Nat.succ_pos r, by dsimp only; omega, le_rfl, Nat.add_zero _, Nat.sub_self _⟩
  have hlt : B + 1 + k < 2 ^ 32 := by omega
  obtain ⟨bs, hloop, hbs⟩ := bioMiddleLoop_covers hlt hcov
  have hend : decr (u32 (B + (k + 2))) = B + 1 + k := by
    rw [show B + (k + 2) = B + 1 + k + 1 by omega]
    exact decr_succ (by omega)
  have hfirst : decr (B + 1) = B := decr_of_lt (by omega)
  have e1 : B * blkSize + o + (blkSize - o) = (B + 1) * blkSize := by
    rw [Nat.succ_mul]
    omega
  have e2 : len - (blkSize - o) = k * blkSize + (r + 1) := by
    rw [Nat.succ_mul] at hlen
    omega
  refine ⟨⟨B, o, blkSize - o⟩ :: bs, ?_, ?_⟩
  · rw [bioListSplit, if_neg (by omega), if_pos (by omega), hend, hr,
      show k + 2 - 1 = k + 1 by omega]
    dsimp only
    rw [hloop]
    dsimp only
    rw [hfirst]
  · rw [Nat.succ_mul] at hlen
    refine ⟨?_, ?_, ?_, rfl, ?_⟩ <;> dsimp only
    · omega
    · omega
    · omega
    · rw [e1, e2]
      exact hbs

/-- A range whose arithmetic does not overflow is split exactly. -/
theorem bioListMake_covers {blockno offset len : ℕ} (hlen : 0 < len)
    (hrange : offset % blkSize + len ≤ 2 ^ 32)
    (hblocks : blockno * blkSize + offset + len ≤ 2 ^ 32 * blkSize) :
    ∃ bs, bioListMake blockno offset len = .ok bs ∧
      Covers bs (blockno * blkSize + offset) len := by
  have hpos : 0 < blkSize := by decide
  obtain ⟨B, hB⟩ : ∃ B, B = blockno + offset / blkSize := ⟨_, rfl⟩
  obtain ⟨o, ho⟩ : ∃ o, o = offset % blkSize := ⟨_, rfl⟩
  obtain ⟨last, hlast⟩ : ∃ last, o + len = last + 1 :=
    ⟨_, (Nat.succ_pred_eq_of_pos (Nat.add_pos_right o hlen)).symm⟩
  obtain ⟨q, hq⟩ : ∃ q, last / blkSize = q := ⟨_, rfl⟩
  have hstart : blockno * blkSize + offset = B * blkSize + o := by
    rw [hB, ho, Nat.add_mul, Nat.add_assoc, Nat.div_add_mod']
  have holt : o < blkSize := ho ▸ Nat.mod_lt _ hpos
  -- the last block number is below `2^32`
  have hBq : B + q < 2 ^ 32 := by
    rw [hstart, Nat.add_assoc, hlast] at hblocks
    have hlt : B * blkSize + last < 2 ^ 32 * blkSize := by omega
    rwa [← Nat.div_lt_iff_lt_mul hpos, Nat.mul_comm, Nat.mul_add_div hpos, hq] at hlt
  have hBu : u32 B = B := Nat.mod_eq_of_lt (by omega)
  have hlastu : decr (u32 (last + 1)) = last := decr_succ (by omega)
  have hdiv := Nat.div_add_mod last blkSize
  have hmod := Nat.mod_lt last hpos
  rw [bioListMake, if_neg hlen.ne', ← hB, ← ho, hstart, hBu, hlast, hlastu]
  rw [hq, Nat.mul_comm] at hdiv
  dsimp only
  rw [hq]
  cases q with
  | zero => exact bioListSplit_one hlen (by omega)
  | succ k => exact bioListSplit_many rfl hmod holt (by omega) hBq

end RiscvLab.Blk
