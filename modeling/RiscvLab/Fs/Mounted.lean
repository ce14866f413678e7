import RiscvLab.Fs.Super
import RiscvLab.Fs.Mkfs

/-!
# Mounting a formatted disk

What `efs_sb_init` finds on a disk that `mkfs` has written: the superblock of `mkfs`, and the two
bitmaps. The kernel does not check that these fit into the pages that it reads them into.

## Main results

* `efsSbInit_formatted` : what is in memory after mount.
* `mapsFit_formatted` : for which disks the bitmaps fit into their pages.
* `test_rawImap`, `test_rawBmap` : the bits that the kernel reads.
-/

namespace RiscvLab.Fs

open Library

/-- The bits of a bitmap that has been read from the disk. -/
theorem test_readWords {disk : Disk} {pages : ℕ → BitVec 64} {start count k : ℕ} {b : Bitmap}
    (hb : b.map = readWords disk pages start count) (hk : k < 32768 * count) :
    b.test k = (disk (start * blockSize + k / 8)).getLsbD (k % 8) := by
  rw [Bitmap.test, hb, readWords, if_pos (by omega), getLsbD_word64 (Nat.mod_lt _ (by decide)),
    show start * blockSize + 8 * (k / 64) + k % 64 / 8 = start * blockSize + k / 8 by omega,
    show k % 64 % 8 = k % 8 by omega]

section Formatted

variable {disk : Disk} {diskSize : ℕ}

/-- Both bitmaps fit into the pages that the kernel allocates for them. -/
def Fits (diskSize : ℕ) : Prop := inodeCount diskSize ≤ 2 ^ 15 ∧ totalBlocks diskSize ≤ 2 ^ 19

theorem fits_iff :
    Fits diskSize ↔ inodeMapBlocks diskSize ≤ 1 ∧ dataMapBlocks diskSize ≤ 2 ^ 4 := by
  simp only [Fits, inodeMapBlocks, dataMapBlocks, ceilDiv, blockSize]
  omega

theorem blockAreaStart_le (h : Fits diskSize) : blockAreaStart diskSize ≤ 2048 := by
  obtain ⟨hi, hb⟩ := fits_iff.1 h
  have h₁ : blockAreaStart diskSize = 2 + inodeMapBlocks diskSize + inodeAreaBlocks diskSize +
    dataMapBlocks diskSize := rfl
  have h₂ : inodeAreaBlocks diskSize = (inodeCount diskSize * 128 % 2 ^ 32 + 4095) / 4096 := rfl
  have h₃ := h.1
  omega

theorem inodeMapBlocks_eq_one (hfits : Fits diskSize) (hpos : 0 < inodeCount diskSize) :
    inodeMapBlocks diskSize = 1 := by
  have := hfits.1
  simp only [inodeMapBlocks, ceilDiv, blockSize]
  omega

/-- On a disk that `mkfs` can format, the number of inodes is that of the blocks, divided by 100 or,
if the number of blocks has overflowed, by 125. -/
theorem inodeCount_of_le (h : blockAreaStart diskSize ≤ blockSize) :
    totalBlocks diskSize ≤ 2 ^ 27 ∧ (inodeCount diskSize = totalBlocks diskSize / 100 ∨
      inodeCount diskSize = totalBlocks diskSize / 125) := by
  have hdiv : diskSize / 512000 = diskSize / 4096 / 125 :=
    (Nat.div_div_eq_div_mul diskSize 4096 125).symm
  have hinodes : inodeCount diskSize =
      max (diskSize / 512000) (totalBlocks diskSize / 100) % 2 ^ 32 := rfl
  have htotal : totalBlocks diskSize = diskSize / 4096 % 2 ^ 32 := rfl
  have hmap : dataMapBlocks diskSize = (totalBlocks diskSize + 32767) / 32768 := rfl
  have himap : inodeMapBlocks diskSize = (inodeCount diskSize + 32767) / 32768 := rfl
  have hiarea : inodeAreaBlocks diskSize = (inodeCount diskSize * 128 % 2 ^ 32 + 4095) / 4096 := rfl
  have harea : blockAreaStart diskSize = 2 + inodeMapBlocks diskSize + inodeAreaBlocks diskSize +
    dataMapBlocks diskSize := rfl
  have hbs : blockSize = 4096 := rfl
  rw [hdiv] at hinodes
  generalize diskSize / 4096 = n at hinodes htotal
  generalize totalBlocks diskSize = t at *
  generalize inodeCount diskSize = m at *
  have ht : t ≤ 2 ^ 27 := by omega
  refine ⟨ht, ?_⟩
  obtain ⟨c, e, hn, he⟩ : ∃ c e, n = 2 ^ 32 * (125 * c + e) + t ∧ e < 125 :=
    ⟨n / 2 ^ 32 / 125, n / 2 ^ 32 % 125, by omega, by omega⟩
  have hq : n / 125 = 2 ^ 32 * c + (2 ^ 32 * e + t) / 125 := by omega
  clear htotal hn
  rw [hq] at hinodes
  rcases le_total (2 ^ 32 * c + (2 ^ 32 * e + t) / 125) (t / 100) with hle | hle
  · rw [max_eq_right hle] at hinodes
    exact .inl (by omega)
  · rw [max_eq_left hle, Nat.mul_add_mod, Nat.mod_eq_of_lt (by omega)] at hinodes
    rcases Nat.eq_zero_or_pos e with rfl | hpos
    · exact .inr (by omega)
    -- the inodes alone would need more blocks
    have he₃ : e ≤ 3 := by omega
    have hmod : m * 128 % 2 ^ 32 = m * 128 - 2 ^ 32 * e := by
      have hsub : m * 128 = (m * 128 - 2 ^ 32 * e) + 2 ^ 32 * e := by omega
      rw [hsub, Nat.add_mul_mod_self_left, Nat.mod_eq_of_lt (by omega)]
      omega
    rw [hmod] at hiarea
    clear hmod hq hdiv hle
    omega

/-- With inodes there are blocks; their number is taken modulo `2^32`. -/
theorem dataMapBlocks_pos (hfits : Fits diskSize) (hpos : 0 < inodeCount diskSize) :
    0 < dataMapBlocks diskSize := by
  obtain ⟨-, hcount⟩ := inodeCount_of_le ((blockAreaStart_le hfits).trans (by decide))
  have hmap : dataMapBlocks diskSize = (totalBlocks diskSize + 32767) / 32768 := rfl
  omega

/-- The numbers of inodes and of blocks, as the kernel reads them. -/
theorem toInt_inodeCount_of_fits (hfits : Fits diskSize) (hpos : 0 < inodeCount diskSize) :
    (easySb diskSize).inodeCount.toInt = (inodeCount diskSize - 1 : ℕ) := by
  have hle : inodeCount diskSize ≤ 2 ^ 15 := hfits.1
  have hcount : (easySb diskSize).inodeCount.toNat = inodeCount diskSize - 1 := by
    have h₁ : (1 : BitVec 32).toNat = 1 := rfl
    have hmod : inodeCount diskSize % 2 ^ 32 = inodeCount diskSize := Nat.mod_eq_of_lt (by omega)
    rw [easySb, BitVec.toNat_sub, BitVec.toNat_ofNat, hmod, h₁]
    omega
  rw [BitVec.toInt_eq_toNat_of_lt (by omega), hcount]

theorem inodeCount_lt (hfits : Fits diskSize) (hpos : 0 < inodeCount diskSize) :
    (easySb diskSize).inodeCount.toInt < 32768 := by
  have hle : inodeCount diskSize ≤ 2 ^ 15 := hfits.1
  rw [toInt_inodeCount_of_fits hfits hpos]
  omega

theorem toInt_blockCount_of_le (hle : totalBlocks diskSize ≤ 2 ^ 27) :
    (easySb diskSize).blockCount.toInt = totalBlocks diskSize := by
  have hcount : (easySb diskSize).blockCount.toNat = totalBlocks diskSize := by
    rw [easySb, BitVec.toNat_ofNat, Nat.mod_eq_of_lt (by omega)]
  rw [BitVec.toInt_eq_toNat_of_lt (by omega), hcount]

theorem toInt_blockCount_of_fits (hfits : Fits diskSize) :
    (easySb diskSize).blockCount.toInt = totalBlocks diskSize :=
  toInt_blockCount_of_le (hfits.2.trans (by decide))

/-- The inode bitmap as it is read. -/
def rawImap (disk : Disk) (ipages : ℕ → BitVec 64) (diskSize : ℕ) : Bitmap :=
  bitmapInitZone
    (readWords (formatted disk diskSize) ipages inodeMapStart (inodeMapBlocks diskSize))
    (easySb diskSize).inodeCount.toInt

/-- The block bitmap as it is read. -/
def rawBmap (disk : Disk) (bpages : ℕ → BitVec 64) (diskSize : ℕ) : Bitmap :=
  bitmapInitZone
    (readWords (formatted disk diskSize) bpages (blockMapStart diskSize) (dataMapBlocks diskSize))
    (easySb diskSize).blockCount.toInt

/-- The superblock after mount. -/
def mounted (disk : Disk) (ipages bpages : ℕ → BitVec 64) (diskSize : ℕ) : Super where
  ds := easySb diskSize
  imap := bitmapResetUnused (bitmapResetAllo (rawImap disk ipages diskSize) 1)
    (easySb diskSize).inodeFree.toInt
  bmap := bitmapResetUnused (bitmapResetAllo (rawBmap disk bpages diskSize) 1)
    (easySb diskSize).blockFree.toInt
  dirty := false

section

variable {ipages bpages : ℕ → BitVec 64} {k : ℕ}

theorem mounted_ds : (mounted disk ipages bpages diskSize).ds = easySb diskSize := by
  rw [mounted]

theorem mounted_imap : (mounted disk ipages bpages diskSize).imap =
    bitmapResetUnused (bitmapResetAllo (rawImap disk ipages diskSize) 1)
      (easySb diskSize).inodeFree.toInt := by
  rw [mounted]

theorem mounted_bmap : (mounted disk ipages bpages diskSize).bmap =
    bitmapResetUnused (bitmapResetAllo (rawBmap disk bpages diskSize) 1)
      (easySb diskSize).blockFree.toInt := by
  rw [mounted]

@[simp]
theorem rawImap_size :
    (rawImap disk ipages diskSize).size = (easySb diskSize).inodeCount.toInt := by
  rw [rawImap, bitmapInitZone]

@[simp]
theorem rawImap_unused :
    (rawImap disk ipages diskSize).unused = (easySb diskSize).inodeCount.toInt := by
  rw [rawImap, bitmapInitZone]

@[simp]
theorem rawBmap_size :
    (rawBmap disk bpages diskSize).size = (easySb diskSize).blockCount.toInt := by
  rw [rawBmap, bitmapInitZone]

@[simp]
theorem rawBmap_unused :
    (rawBmap disk bpages diskSize).unused = (easySb diskSize).blockCount.toInt := by
  rw [rawBmap, bitmapInitZone]

end

private theorem toNat_ofNat_sub {a b : ℕ} (hab : a ≤ b) (hb : b < 2 ^ 32) :
    (BitVec.ofNat 32 b - BitVec.ofNat 32 a).toNat = b - a := by
  have ha : a < 2 ^ 32 := by omega
  rw [BitVec.toNat_sub, BitVec.toNat_ofNat, BitVec.toNat_ofNat, Nat.mod_eq_of_lt hb,
    Nat.mod_eq_of_lt ha]
  omega

/-- The numbers of blocks of the bitmaps, as the kernel computes them. -/
private theorem mapBlocks_easySb (hn : blockAreaStart diskSize < 2 ^ 20) :
    ((easySb diskSize).inodeAreaStart - (easySb diskSize).inodeMapStart).toNat =
      inodeMapBlocks diskSize ∧
    ((easySb diskSize).blockAreaStart - (easySb diskSize).blockMapStart).toNat =
      dataMapBlocks diskSize := by
  have h₁ : inodeAreaStart diskSize = inodeMapStart + inodeMapBlocks diskSize := rfl
  obtain ⟨-, h₂, h₃⟩ := layout_eqs diskSize
  constructor
  · rw [show (easySb diskSize).inodeAreaStart = BitVec.ofNat 32 (inodeAreaStart diskSize) from rfl,
      show (easySb diskSize).inodeMapStart = BitVec.ofNat 32 inodeMapStart from rfl,
      toNat_ofNat_sub (by omega) (by omega)]
    omega
  · rw [show (easySb diskSize).blockAreaStart = BitVec.ofNat 32 (blockAreaStart diskSize) from rfl,
      show (easySb diskSize).blockMapStart = BitVec.ofNat 32 (blockMapStart diskSize) from rfl,
      toNat_ofNat_sub (by omega) (by omega)]
    omega

/-- Whether the bitmaps of a formatted disk fit into their pages depends on its size only, and not
on what was on the disk before `mkfs`. -/
theorem mapsFit_formatted (hn : blockAreaStart diskSize < 2 ^ 20) :
    MapsFit (formatted disk diskSize) ↔ Fits diskSize := by
  obtain ⟨-, -, h₃⟩ := layout_eqs diskSize
  obtain ⟨hi, hb⟩ := mapBlocks_easySb hn
  simp only [MapsFit, read_formatted (show blockMapStart diskSize < 2 ^ 20 by omega), hi, hb,
    fits_iff]

/-- Mounting a formatted disk: `efs_sb_init` returns, with the fields that `mkfs` has written and
with the bitmaps that it finds on the disk. -/
theorem efsSbInit_formatted {ipages bpages : ℕ → BitVec 64}
    (hn : blockAreaStart diskSize < 2 ^ 20) :
    efsSbInit (formatted disk diskSize) ipages bpages =
      .ok (mounted disk ipages bpages diskSize) := by
  obtain ⟨-, -, h₃⟩ := layout_eqs diskSize
  obtain ⟨hi, hb⟩ := mapBlocks_easySb hn
  have hms : (easySb diskSize).inodeMapStart.toNat = inodeMapStart := rfl
  have hbs : (easySb diskSize).blockMapStart.toNat = blockMapStart diskSize := by
    rw [easySb, BitVec.toNat_ofNat, Nat.mod_eq_of_lt (by omega)]
  simp only [efsSbInit, read_formatted (show blockMapStart diskSize < 2 ^ 20 by omega)]
  rw [if_neg (by exact not_not.2 rfl)]
  simp only [efsFillImap, efsFillBmap, efsFillMap, hi, hb, hms, hbs, mounted, rawImap, rawBmap]

/-- The bits of the inode bitmap: only that of the root is set. The bitmap has one block, which
`mkfs` writes as a whole, so that old bits are gone. -/
theorem test_rawImap {ipages : ℕ → BitVec 64} {k : ℕ} (hn : blockAreaStart diskSize < 2 ^ 20)
    (hm : inodeMapBlocks diskSize = 1) (hk : k < 32768) :
    (rawImap disk ipages diskSize).test k = decide (k = 1) := by
  have h₁ : inodeAreaStart diskSize = inodeMapStart + inodeMapBlocks diskSize := rfl
  obtain ⟨-, h₂, h₃⟩ := layout_eqs diskSize
  have hk8 : k / 8 < blockSize := by
    simp only [blockSize]
    omega
  have htwo : ∀ k < 32, (2#32).getLsbD k = decide (k = 1) := by decide
  rw [test_readWords (b := rawImap disk ipages diskSize) rfl (by omega),
    formatted_apply (by omega) hk8, if_neg (by omega), if_neg (by omega), if_pos rfl]
  by_cases hlt : k / 8 < 4
  · rw [getLsbD_bytes32 hlt (Nat.mod_lt _ (by decide)), Nat.div_add_mod]
    exact htwo k (by omega)
  · rw [List.getD_eq_default _ _ (by rw [length_bytes32]; omega),
      decide_eq_false (by omega : k ≠ 1)]
    exact BitVec.getLsbD_zero

/-- The bits of the first block of the block bitmap. -/
theorem test_rawBmap_first {bpages : ℕ → BitVec 64} {k : ℕ}
    (hn : blockAreaStart diskSize < blockSize) (hpos : 0 < dataMapBlocks diskSize)
    (hk : k < 32768) : (rawBmap disk bpages diskSize).test k =
      decide (1 ≤ k ∧ k < markedEnd (blockAreaStart diskSize)) := by
  obtain ⟨-, -, h₃⟩ := layout_eqs diskSize
  have hbs : blockSize = 4096 := rfl
  have hend : markedEnd (blockAreaStart diskSize) ≤ 4096 := by
    rw [markedEnd]
    split <;> omega
  rw [test_readWords (b := rawBmap disk bpages diskSize) rfl (by omega),
    formatted_apply (by omega) (by omega), if_pos rfl]
  by_cases hlt : k / 8 < blockSize / 8
  · rw [getD_slice hlt, Nat.zero_add]
    exact getLsbD_dataMap (by omega) hn
  · rw [List.getD_eq_default _ _ (by rw [length_slice]; omega),
      decide_eq_false (by omega)]
    exact BitVec.getLsbD_zero

/-- The bits of the block bitmap, on an image that was blank. The bits before the block area are
set, except for that of the block 0, which `mkfs` clears again. -/
theorem test_rawBmap {bpages : ℕ → BitVec 64} {k : ℕ} (hn : blockAreaStart diskSize < blockSize)
    (hk : k < 32768 * dataMapBlocks diskSize) :
    (rawBmap (fun _ => 0) bpages diskSize).test k =
      decide (1 ≤ k ∧ k < markedEnd (blockAreaStart diskSize)) := by
  have h₁ : inodeAreaStart diskSize = inodeMapStart + inodeMapBlocks diskSize := rfl
  obtain ⟨-, h₂, h₃⟩ := layout_eqs diskSize
  have hms : inodeMapStart = 2 := rfl
  have hsb : superBlockLocation = 1 := rfl
  have hbs : blockSize = 4096 := rfl
  by_cases hfirst : k < 32768
  · exact test_rawBmap_first hn (by omega) hfirst
  · have hend : markedEnd (blockAreaStart diskSize) ≤ 4096 := by
      rw [markedEnd]
      split <;> omega
    rw [test_readWords (b := rawBmap (fun _ => 0) bpages diskSize) rfl hk,
      show blockMapStart diskSize * blockSize + k / 8 =
        (blockMapStart diskSize + k / 32768) * blockSize + k / 8 % 4096 by
          rw [Nat.add_mul, hbs]; omega,
      formatted_apply (by omega) (by omega), if_neg (by omega), if_neg (by omega),
      if_neg (by omega), if_neg (by omega), decide_eq_false (by omega)]
    exact BitVec.getLsbD_zero

end Formatted

end RiscvLab.Fs
