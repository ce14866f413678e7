import Mathlib.Data.Finset.Card
import Mathlib.Order.Interval.Finset.Nat
import RiscvLab.Fs.Mounted

/-!
# Free blocks of a formatted disk

`mkfs` counts all blocks behind the one for the root directory as free. The bitmap that it writes
marks more blocks as used, unless `block_area_start` leaves the remainder 0 or 7 modulo 8.

## Main results

* `blocksAgree_iff` : counter, bitmap and `efs_bmap_alloc` agree after mount exactly for those
  remainders, on disks whose bitmaps the kernel can read.

Source: `tools/mkfs.c`, lines 72–99 and 150–189; `fs/easyfs/super.c`, lines 27–36 and 203–212.
-/

namespace RiscvLab.Fs

open Library

/-- The clear bits of the block bitmap from block 1 on. -/
def clearBlocks (sb : Super) : Finset ℕ :=
  (Finset.Ico 1 sb.ds.blockCount.toNat).filter fun k => sb.bmap.test k = false

/-- `block_free` is the number of clear bits, and so many blocks can be allocated: different ones,
behind that of the root directory and inside the disk. -/
structure BlocksAgree (sb : Super) : Prop where
  count : sb.ds.blockFree.toInt = (clearBlocks sb).card
  allocs : ∃ nos sb', allocMany efsBmapAlloc sb.ds.blockFree.toNat sb = .ok (nos, sb') ∧
    nos.Nodup ∧ (∀ no ∈ nos, sb.ds.blockAreaStart.toInt < no ∧ no < sb.ds.blockCount.toInt) ∧
    efsBmapAlloc sb' = .error .bmapAlloc

/-- The next block is the one at the hint. -/
private theorem efsBmapAlloc_of_clear (sb : Super) (hu : sb.bmap.unused ≠ 0)
    (hlt : (sb.bmap.allocation : ℤ) < sb.bmap.size)
    (hclear : sb.bmap.test sb.bmap.allocation = false) :
    ∃ ds, efsBmapAlloc sb =
      .ok ((sb.bmap.allocation : ℤ), ⟨ds, sb.imap, sb.bmap.grab sb.bmap.allocation, true⟩) := by
  have hk : sb.bmap.FirstClear sb.bmap.allocation (64 * sb.bmap.words) sb.bmap.allocation :=
    ⟨le_rfl, Bitmap.lt_words hlt, hclear, fun j h₁ h₂ => absurd h₁ (Nat.not_le.2 h₂)⟩
  simp only [efsBmapAlloc, bitmapAlloc_of_firstClear hu hk hlt.le]
  rw [if_neg (by omega)]
  exact ⟨_, rfl⟩

/-- While all bits from the hint on are clear, blocks are allocated in order. -/
private theorem allocMany_of_clear {n : ℕ} {sb : Super} (hu : sb.bmap.unused = n)
    (hlt : (sb.bmap.allocation + n : ℤ) ≤ sb.bmap.size)
    (hclear : ∀ k : ℕ, sb.bmap.allocation ≤ k → (k : ℤ) < sb.bmap.size → sb.bmap.test k = false) :
    ∃ sb', allocMany efsBmapAlloc n sb = .ok ((List.range' sb.bmap.allocation n).map (↑), sb') ∧
      sb'.bmap.unused = 0 := by
  induction n generalizing sb with
  | zero => exact ⟨sb, rfl, by simpa using hu⟩
  | succ n ih =>
    obtain ⟨ds, h⟩ := efsBmapAlloc_of_clear sb (by omega) (by omega)
      (hclear _ le_rfl (by omega))
    obtain ⟨sb', h', hu'⟩ := @ih ⟨ds, sb.imap, sb.bmap.grab sb.bmap.allocation, true⟩
      (by simp only [Bitmap.grab_unused]; omega)
      (by simp only [Bitmap.grab_allocation, Bitmap.grab_size]; omega)
      fun k h₁ h₂ => by
        simp only [Bitmap.grab_allocation] at h₁
        rw [Bitmap.test_grab, decide_eq_false (by omega), Bool.false_or]
        exact hclear k (by omega) h₂
    refine ⟨sb', ?_, hu'⟩
    rw [allocMany_succ h h', Bitmap.grab_allocation]
    rfl

section Formatted

variable {diskSize : ℕ} {ipages bpages : ℕ → BitVec 64}

section

variable (ha : blockAreaStart diskSize < blockSize)

include ha

private theorem totalBlocks_le :
    totalBlocks diskSize ≤ 2 ^ 27 ∧ totalBlocks diskSize ≤ 32768 * dataMapBlocks diskSize := by
  obtain ⟨-, -, h₃⟩ := layout_eqs diskSize
  have hbs : blockSize = 4096 := rfl
  have hdm : dataMapBlocks diskSize =
      (totalBlocks diskSize + (8 * blockSize - 1)) / (8 * blockSize) :=
    rfl
  rw [hbs] at ha hdm
  omega

private theorem toNat_blockCount : (easySb diskSize).blockCount.toNat = totalBlocks diskSize := by
  have hle := (totalBlocks_le ha).1
  rw [easySb, BitVec.toNat_ofNat, Nat.mod_eq_of_lt (by omega)]

private theorem toInt_blockCount : (easySb diskSize).blockCount.toInt = totalBlocks diskSize := by
  have := (totalBlocks_le ha).1
  rw [BitVec.toInt_eq_toNat_of_lt (by rw [toNat_blockCount ha]; omega), toNat_blockCount ha]

private theorem toInt_blockAreaStart :
    (easySb diskSize).blockAreaStart.toInt = blockAreaStart diskSize := by
  have hbs : blockSize = 4096 := rfl
  have h : (easySb diskSize).blockAreaStart.toNat = blockAreaStart diskSize := by
    rw [easySb, BitVec.toNat_ofNat, Nat.mod_eq_of_lt (by omega)]
  rw [BitVec.toInt_eq_toNat_of_lt (by omega), h]

private theorem toNat_blockFree (ht : blockAreaStart diskSize + 1 < totalBlocks diskSize) :
    (easySb diskSize).blockFree.toNat = totalBlocks diskSize - blockAreaStart diskSize - 1 := by
  have hle := (totalBlocks_le ha).1
  have htotal : (BitVec.ofNat 32 (totalBlocks diskSize)).toNat = totalBlocks diskSize := by
    rw [BitVec.toNat_ofNat, Nat.mod_eq_of_lt (by omega)]
  have harea : (BitVec.ofNat 32 (blockAreaStart diskSize)).toNat = blockAreaStart diskSize := by
    rw [BitVec.toNat_ofNat, Nat.mod_eq_of_lt (by omega)]
  have hsub : (BitVec.ofNat 32 (totalBlocks diskSize) -
      BitVec.ofNat 32 (blockAreaStart diskSize)).toNat =
      totalBlocks diskSize - blockAreaStart diskSize := by
    rw [BitVec.toNat_sub_of_le (BitVec.le_def.2 (by omega)), htotal, harea]
  have hone : (1 : BitVec 32).toNat = 1 := rfl
  rw [easySb, BitVec.toNat_sub_of_le (BitVec.le_def.2 (by omega)), hsub, hone]

private theorem toInt_blockFree (ht : blockAreaStart diskSize + 1 < totalBlocks diskSize) :
    (easySb diskSize).blockFree.toInt =
      (totalBlocks diskSize - blockAreaStart diskSize - 1 : ℕ) := by
  have hle := (totalBlocks_le ha).1
  rw [BitVec.toInt_eq_toNat_of_lt (by rw [toNat_blockFree ha ht]; omega), toNat_blockFree ha ht]

/-- The clear bits are those behind the marked blocks. -/
private theorem clearBlocks_mounted :
    clearBlocks (mounted (fun _ => 0) ipages bpages diskSize) =
      Finset.Ico (max 1 (markedEnd (blockAreaStart diskSize))) (totalBlocks diskSize) := by
  have hle := (totalBlocks_le ha).2
  ext k
  have htest : k < totalBlocks diskSize →
      (mounted (fun _ => 0) ipages bpages diskSize).bmap.test k =
        decide (1 ≤ k ∧ k < markedEnd (blockAreaStart diskSize)) := by
    intro hk
    have hsize : (k : ℤ) < (rawBmap (fun _ => 0) bpages diskSize).size := by
      rw [rawBmap_size, toInt_blockCount ha]
      omega
    have hraw : (rawBmap (fun _ => 0) bpages diskSize).test k = _ := test_rawBmap ha (by omega)
    rw [← hraw, mounted_bmap, test_bitmapResetUnused, (test_bitmapResetAllo (.inl hsize)).2]
  simp only [clearBlocks, Finset.mem_filter, Finset.mem_Ico, mounted_ds, toNat_blockCount ha,
    max_le_iff]
  constructor
  · rintro ⟨⟨h₁, h₂⟩, hclear⟩
    rw [htest h₂, decide_eq_false_iff_not] at hclear
    omega
  · rintro ⟨⟨h₁, h₂⟩, h₃⟩
    refine ⟨⟨h₁, h₃⟩, ?_⟩
    rw [htest h₃, decide_eq_false_iff_not]
    omega

end

private theorem markedEnd_eq_iff {a : ℕ} : markedEnd a = a + 1 ↔ a % 8 = 0 ∨ a % 8 = 7 := by
  rw [markedEnd]
  split <;> omega

private theorem lt_markedEnd {a : ℕ} : a < markedEnd a := by
  rw [markedEnd]
  split <;> omega

/-- Where the bitmap marks the right blocks, `efs_bmap_alloc` hands out those behind them. -/
private theorem allocs_mounted (ha : blockAreaStart diskSize < blockSize)
    (ht : blockAreaStart diskSize + 1 < totalBlocks diskSize)
    (hend : markedEnd (blockAreaStart diskSize) = blockAreaStart diskSize + 1) :
    ∃ sb', allocMany efsBmapAlloc (totalBlocks diskSize - blockAreaStart diskSize - 1)
        (mounted (fun _ => 0) ipages bpages diskSize) =
        .ok ((List.range' (blockAreaStart diskSize + 1)
          (totalBlocks diskSize - blockAreaStart diskSize - 1)).map (↑), sb') ∧
      sb'.bmap.unused = 0 := by
  have hle := (totalBlocks_le ha).2
  have hsize : (rawBmap (fun _ => 0) bpages diskSize).size = totalBlocks diskSize := by
    rw [rawBmap_size, toInt_blockCount ha]
  have htest : ∀ k, k < totalBlocks diskSize → (rawBmap (fun _ => 0) bpages diskSize).test k =
      decide (1 ≤ k ∧ k < blockAreaStart diskSize + 1) := by
    intro k hk
    rw [← hend]
    exact test_rawBmap ha (by omega)
  have hfirst : (rawBmap (fun _ => 0) bpages diskSize).FirstClear 1
      (64 * (rawBmap (fun _ => 0) bpages diskSize).words) (blockAreaStart diskSize + 1) :=
    { le := by omega
      lt := Bitmap.lt_words (by rw [hsize]; omega)
      clear := by rw [htest _ ht, decide_eq_false (by omega)]
      first := fun j h₁ h₂ => by rw [htest _ (by omega), decide_eq_true ⟨h₁, h₂⟩] }
  obtain ⟨hs, hal, htest'⟩ := bitmapResetAllo_of_lt
    (show (rawBmap (fun _ => 0) bpages diskSize).unused ≠ 0 by
      rw [rawBmap_unused, toInt_blockCount ha]
      omega)
    hfirst (by rw [hsize]; omega)
  have hu : (mounted (fun _ => 0) ipages bpages diskSize).bmap.unused =
      (totalBlocks diskSize - blockAreaStart diskSize - 1 : ℕ) := by
    rw [mounted_bmap, bitmapResetUnused_unused, toInt_blockFree ha ht]
  obtain ⟨sb', h, hu⟩ := allocMany_of_clear hu
    (by
      rw [mounted_bmap, bitmapResetUnused_allocation, bitmapResetUnused_size, hal, hs, hsize]
      omega)
    fun k h₁ h₂ => by
      rw [mounted_bmap, bitmapResetUnused_allocation, hal] at h₁
      rw [mounted_bmap, bitmapResetUnused_size, hs, hsize] at h₂
      rw [mounted_bmap, test_bitmapResetUnused, htest' k, htest k (by omega),
        decide_eq_false (by omega)]
  rw [mounted_bmap, bitmapResetUnused_allocation, hal] at h
  exact ⟨sb', h, hu⟩

private theorem blocksAgree_mounted (ha : blockAreaStart diskSize < blockSize)
    (ht : blockAreaStart diskSize + 1 < totalBlocks diskSize) :
    BlocksAgree (mounted (fun _ => 0) ipages bpages diskSize) ↔
      blockAreaStart diskSize % 8 = 0 ∨ blockAreaStart diskSize % 8 = 7 := by
  rw [← markedEnd_eq_iff]
  have hlt := lt_markedEnd (a := blockAreaStart diskSize)
  have hcard : (clearBlocks (mounted (fun _ => 0) ipages bpages diskSize)).card =
      totalBlocks diskSize - markedEnd (blockAreaStart diskSize) := by
    rw [clearBlocks_mounted ha, Nat.card_Ico, Nat.max_eq_right (by omega)]
  constructor
  · intro hagree
    have hcount := hagree.count
    rw [hcard, mounted_ds, toInt_blockFree ha ht] at hcount
    omega
  · intro hend
    refine ⟨?_, ?_⟩
    · rw [hcard, hend, mounted_ds, toInt_blockFree ha ht, Nat.sub_sub]
    · obtain ⟨sb', h, hu⟩ := @allocs_mounted diskSize ipages bpages ha ht hend
      refine ⟨_, sb', by rw [mounted_ds, toNat_blockFree ha ht, h], ?_, ?_, ?_⟩
      · exact (List.nodup_range' ..).map Nat.cast_injective
      · intro no hno
        obtain ⟨k, hk, rfl⟩ := List.mem_map.1 hno
        rw [List.mem_range'_1] at hk
        rw [mounted_ds, toInt_blockAreaStart ha, toInt_blockCount ha]
        omega
      · simp [efsBmapAlloc, bitmapAlloc_eq_neg_one (.inl hu)]

/-- A blank image is formatted and mounted. The bitmaps fit into their pages, and the number of free
blocks, the block bitmap and `efs_bmap_alloc` agree, exactly if `block_area_start` is 0 or 7 modulo
8 and there are not too many inodes and blocks. -/
theorem blocksAgree_iff (ha : blockAreaStart diskSize < blockSize)
    (ht : blockAreaStart diskSize + 1 < totalBlocks diskSize) :
    (∃ disk sb, mkfs (fun _ => 0) diskSize = some disk ∧ MapsFit disk ∧
        efsSbInit disk ipages bpages = .ok sb ∧ BlocksAgree sb) ↔
      (blockAreaStart diskSize % 8 = 0 ∨ blockAreaStart diskSize % 8 = 7) ∧ Fits diskSize := by
  have hbs : blockSize = 4096 := rfl
  have hmount := @efsSbInit_formatted (fun _ => 0) diskSize ipages bpages (by omega)
  have hmaps := @mapsFit_formatted (fun _ => 0) diskSize (by omega)
  rw [← hmaps, ← @blocksAgree_mounted diskSize ipages bpages ha ht, mkfs, if_neg (by omega)]
  constructor
  · rintro ⟨_, sb, ⟨⟩, hfits, hsb, hagree⟩
    obtain rfl := Except.ok.inj (hmount.symm.trans hsb)
    exact ⟨hagree, hfits⟩
  · rintro ⟨hagree, hfits⟩
    exact ⟨_, _, rfl, hfits, hmount, hagree⟩

/-- On an image of 128 MiB the data blocks start behind block 15. -/
theorem blocksAgree_128MiB :
    blockAreaStart (2 ^ 27 - 4096) = 15 ∧ ∃ disk sb,
      mkfs (fun _ => 0) (2 ^ 27 - 4096) = some disk ∧ MapsFit disk ∧
        efsSbInit disk (fun _ => 0) (fun _ => 0) = .ok sb ∧ BlocksAgree sb := by
  have ha : blockAreaStart (2 ^ 27 - 4096) = 15 := by decide
  refine ⟨ha, (blocksAgree_iff ?_ ?_).2 ⟨?_, ?_⟩⟩
  · rw [ha]
    decide
  · rw [ha]
    decide
  · rw [ha]
    exact .inr (by decide)
  · exact ⟨by decide, by decide⟩

/-- On an image with 100 blocks after block 0 the data blocks start behind block 5. -/
theorem not_blocksAgree_100 :
    blockAreaStart (100 * 4096) = 5 ∧ totalBlocks (100 * 4096) = 100 ∧
      ∃ disk sb, mkfs (fun _ => 0) (100 * 4096) = some disk ∧ MapsFit disk ∧
        efsSbInit disk (fun _ => 0) (fun _ => 0) = .ok sb ∧ ¬ BlocksAgree sb := by
  have ha : blockAreaStart (100 * 4096) = 5 := by decide
  refine ⟨ha, by decide, formatted (fun _ => 0) (100 * 4096),
    mounted (fun _ => 0) (fun _ => 0) (fun _ => 0) (100 * 4096), ?_, ?_, ?_, ?_⟩
  · rw [mkfs, ha]
    exact if_neg (by decide)
  · rw [mapsFit_formatted (by rw [ha]; decide)]
    exact ⟨by decide, by decide⟩
  · exact efsSbInit_formatted (by rw [ha]; decide)
  · rw [blocksAgree_mounted (by rw [ha]; decide) (by rw [ha]; decide), ha]
    decide

end Formatted

end RiscvLab.Fs
