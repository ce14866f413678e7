import RiscvLab.Fs.Layout

/-!
# Formatting a disk

`mkfs` computes the layout from the size of the disk image, less the block 0 that is left free, and
writes four blocks: the superblock, the first block of the inode bitmap, the first block of inodes
and the first block of the block bitmap.

The block bitmap marks the blocks 1 to `block_area_start`, the last being for the root directory. Of
the byte that `block_area_start` falls into, the bits below it are to be set by
`(0xFF << (8 - remaining_bits)) >> (8 - remaining_bits)`. The operands are promoted to `int`, so
that no bit is shifted out and the whole byte is set (`getLsbD_dataMap`).

Source: `tools/mkfs.c`.
-/

namespace RiscvLab.Fs

open Library

section Geometry

variable (diskSize : ℕ)

def totalBlocks : ℕ := diskSize / blockSize % 2 ^ 32

/-- `inode_count` before zero is taken off; the product `total_blocks * 0.01` of `double` numbers is
cut off to an integer. -/
def inodeCount : ℕ := max (diskSize / avgFileSize) (totalBlocks diskSize / 100) % 2 ^ 32

/-- The rounded-up quotient that `mkfs` computes with `ceil`. -/
def ceilDiv (m n : ℕ) : ℕ := (m + (n - 1)) / n

def inodeMapBlocks : ℕ := ceilDiv (inodeCount diskSize) (8 * blockSize)

def inodeAreaBlocks : ℕ := ceilDiv (inodeCount diskSize * inodeSize % 2 ^ 32) blockSize

def dataMapBlocks : ℕ := ceilDiv (totalBlocks diskSize) (8 * blockSize)

def inodeMapStart : ℕ := superBlockLocation + 1

def inodeAreaStart : ℕ := inodeMapStart + inodeMapBlocks diskSize

def blockMapStart : ℕ := inodeAreaStart diskSize + inodeAreaBlocks diskSize

def blockAreaStart : ℕ := blockMapStart diskSize + dataMapBlocks diskSize

theorem layout_eqs : inodeAreaStart diskSize = 2 + inodeMapBlocks diskSize ∧
    blockMapStart diskSize = inodeAreaStart diskSize + inodeAreaBlocks diskSize ∧
      blockAreaStart diskSize = blockMapStart diskSize + dataMapBlocks diskSize :=
  ⟨rfl, rfl, rfl⟩

/-- `easy_sb`. -/
def easySb : DSuper where
  inodeCount := BitVec.ofNat 32 (inodeCount diskSize) - 1
  inodeFree := BitVec.ofNat 32 (inodeCount diskSize) - 2
  inodeSize := BitVec.ofNat 32 inodeSize
  inodeMapStart := BitVec.ofNat 32 inodeMapStart
  inodeAreaStart := BitVec.ofNat 32 (inodeAreaStart diskSize)
  blockCount := BitVec.ofNat 32 (totalBlocks diskSize)
  blockFree :=
    BitVec.ofNat 32 (totalBlocks diskSize) - BitVec.ofNat 32 (blockAreaStart diskSize) - 1
  blockSize := BitVec.ofNat 32 blockSize
  blockMapStart := BitVec.ofNat 32 (blockMapStart diskSize)
  blockAreaStart := BitVec.ofNat 32 (blockAreaStart diskSize)
  magic := easyfsMagic

end Geometry

/-- The words of the string `easy-fs` in the field `name`. -/
def easySbName : List (BitVec 32) := [0x79736165, 0x0073662d, 0, 0]

/-- The words of `root_inode`: 128 bytes left free, then the inode with the number 1 and the type
`F_DIR`, of size zero, without blocks, with one link. -/
def rootInode : List (BitVec 32) :=
  List.replicate 32 0 ++ [1, 2, 0, 0] ++ List.replicate 13 0 ++ [1]

/-- `data_map`. -/
def dataMap (areaStart : ℕ) : ℕ → BitVec 8 :=
  let fullBytes := areaStart / 8
  let remainingBits := areaStart % 8
  let map : ℕ → BitVec 8 := fun i => if i < fullBytes then 0xFF else 0
  let map :=
    if remainingBits > 0 then
      Function.update map fullBytes
        (((0xFF#32 <<< (8 - remainingBits)).sshiftRight (8 - remainingBits)).setWidth 8)
    else map
  let map := Function.update map 0 (map 0 &&& 0xFE)
  let rootByte := areaStart / 8
  if rootByte < blockSize / 8 then
    Function.update map rootByte (map rootByte ||| (1#8 <<< (areaStart % 8)))
  else map

/-- The end of the blocks that the block bitmap marks. -/
def markedEnd (areaStart : ℕ) : ℕ :=
  if areaStart % 8 = 0 then areaStart + 1 else 8 * (areaStart / 8 + 1)

/-- The byte meant for the remaining bits is full. -/
private theorem remaining_eq {r : ℕ} (h₀ : 0 < r) (h₁ : r < 8) :
    ((0xFF#32 <<< (8 - r)).sshiftRight (8 - r)).setWidth 8 = 0xFF#8 := by
  have h : ∀ r < 8, 0 < r → ((0xFF#32 <<< (8 - r)).sshiftRight (8 - r)).setWidth 8 = 0xFF#8 := by
    decide
  exact h r h₁ h₀

private theorem or_rootBit {r : ℕ} (h₀ : 0 < r) (h₁ : r < 8) :
    0xFE#8 ||| 1#8 <<< r = 0xFE#8 ∧ 0xFF#8 ||| 1#8 <<< r = 0xFF#8 := by
  have h : ∀ r < 8, 0 < r →
      0xFE#8 ||| 1#8 <<< r = 0xFE#8 ∧ 0xFF#8 ||| 1#8 <<< r = 0xFF#8 := by decide
  exact h r h₁ h₀

private theorem dataMap_apply {a i : ℕ} (h₀ : 0 < a) (ha : a < blockSize) :
    dataMap a i =
      if i = 0 then 0xFE#8
      else if i < a / 8 then 0xFF#8
      else if i = a / 8 then (if a % 8 = 0 then 1#8 else 0xFF#8)
      else 0#8 := by
  have hlt : a / 8 < blockSize / 8 := by
    simp only [blockSize] at ha ⊢
    omega
  simp only [dataMap, if_pos hlt]
  by_cases hr : a % 8 = 0
  · -- the marked blocks fill whole bytes, and the block of the root starts the next
    rw [if_neg (by omega)]
    by_cases hi0 : i = 0
    · subst hi0
      rw [Function.update_of_ne (by omega), Function.update_self, if_pos (by omega)]
      rfl
    · by_cases hi : i = a / 8
      · subst hi
        rw [Function.update_self, Function.update_of_ne (by omega), if_neg (by omega), hr]
        simp [hi0]
      · rw [Function.update_of_ne hi, Function.update_of_ne hi0]
        simp [hi0, hi]
  · have hr₀ : 0 < a % 8 := by omega
    have hr₁ : a % 8 < 8 := by omega
    rw [if_pos hr₀, remaining_eq hr₀ hr₁]
    by_cases hi : i = a / 8
    · subst hi
      rw [Function.update_self]
      by_cases hi0 : a / 8 = 0
      · rw [hi0, Function.update_self, Function.update_self]
        simpa using (or_rootBit hr₀ hr₁).1
      · rw [Function.update_of_ne hi0, Function.update_self, (or_rootBit hr₀ hr₁).2]
        simp [hi0, hr]
    · rw [Function.update_of_ne hi]
      by_cases hi0 : i = 0
      · subst hi0
        rw [Function.update_self, Function.update_of_ne hi, if_pos (by omega)]
        rfl
      · rw [Function.update_of_ne hi0, Function.update_of_ne hi]
        simp [hi0, hi]

theorem getLsbD_dataMap {a k : ℕ} (h₀ : 0 < a) (ha : a < blockSize) :
    (dataMap a (k / 8)).getLsbD (k % 8) = decide (1 ≤ k ∧ k < markedEnd a) := by
  have hFE : ∀ r < 8, (0xFE#8).getLsbD r = decide (1 ≤ r) := by decide
  have hFF : ∀ r < 8, (0xFF#8).getLsbD r = true := by decide
  have hone : ∀ r < 8, (1#8).getLsbD r = decide (r = 0) := by decide
  have hk : k % 8 < 8 := Nat.mod_lt k (by decide)
  rw [dataMap_apply h₀ ha, markedEnd]
  split_ifs
  · rw [hFE _ hk, decide_eq_decide]
    omega
  · rw [hFE _ hk, decide_eq_decide]
    omega
  · rw [hFF _ hk, eq_comm, decide_eq_true_iff]
    omega
  · rw [hFF _ hk, eq_comm, decide_eq_true_iff]
    omega
  · rw [hone _ hk, decide_eq_decide]
    omega
  · rw [hFF _ hk, eq_comm, decide_eq_true_iff]
    omega
  · rw [BitVec.getLsbD_zero, eq_comm, decide_eq_false_iff_not]
    omega
  · rw [BitVec.getLsbD_zero, eq_comm, decide_eq_false_iff_not]
    omega

/-- `write_block`. -/
def writeBlock (disk : Disk) (blockNo : ℕ) (data : List (BitVec 8)) : Disk :=
  let offset := blockNo * blockSize % 2 ^ 32
  patch (patch disk offset (List.replicate blockSize 0)) offset data

/-- The disk that `mkfs` leaves. -/
def formatted (disk : Disk) (diskSize : ℕ) : Disk :=
  let disk := writeBlock disk superBlockLocation
    (((easySb diskSize).words easySbName).flatMap bytes32)
  let disk := writeBlock disk inodeMapStart (bytes32 0x2)
  let disk := writeBlock disk (inodeAreaStart diskSize) (rootInode.flatMap bytes32)
  writeBlock disk (blockMapStart diskSize)
    (slice (dataMap (blockAreaStart diskSize)) 0 (blockSize / 8))

/-- `main` of `mkfs`, for an image with `diskSize` bytes after block 0; `none` if it writes past the
end of `data_map`. -/
def mkfs (disk : Disk) (diskSize : ℕ) : Option Disk :=
  if 8 * (blockSize / 8) < blockAreaStart diskSize then none else some (formatted disk diskSize)

/-! ### What a formatted disk holds -/

/-- A block is overwritten as a whole, and the others are left. -/
theorem writeBlock_apply {disk : Disk} {m n i : ℕ} {data : List (BitVec 8)} (hn : n < 2 ^ 20)
    (hl : data.length ≤ blockSize) (hi : i < blockSize) :
    writeBlock disk n data (m * blockSize + i) =
      if m = n then data.getD i 0 else disk (m * blockSize + i) := by
  have hmod : n * blockSize % 2 ^ 32 = n * blockSize :=
    Nat.mod_eq_of_lt (by simp only [blockSize]; omega)
  simp only [writeBlock, hmod]
  split
  · next h =>
    subst h
    by_cases hlt : i < data.length
    · rw [patch_of_mem (by omega) (by omega), List.getD_eq_getElem _ _ hlt]
      simp
    · rw [patch_of_ge (by omega), patch_of_mem (by omega) (by simpa using hi),
        List.getD_eq_default _ _ (by omega)]
      simp
  · next h =>
    rcases Nat.lt_or_gt_of_ne h with h | h
    · have hle : (m + 1) * blockSize ≤ n * blockSize := Nat.mul_le_mul_right _ h
      rw [Nat.add_mul, Nat.one_mul] at hle
      rw [patch_of_lt (by omega), patch_of_lt (by omega)]
    · have hle : (n + 1) * blockSize ≤ m * blockSize := Nat.mul_le_mul_right _ h
      rw [Nat.add_mul, Nat.one_mul] at hle
      rw [patch_of_ge (by omega), patch_of_ge (by simp; omega)]

section Formatted

variable {disk : Disk} {diskSize : ℕ}

/-- The bytes of the blocks that `mkfs` writes; where two are the same block, the last counts. -/
theorem formatted_apply {m i : ℕ} (hn : blockMapStart diskSize < 2 ^ 20) (hi : i < blockSize) :
    formatted disk diskSize (m * blockSize + i) =
      if m = blockMapStart diskSize then
        (slice (dataMap (blockAreaStart diskSize)) 0 (blockSize / 8)).getD i 0
      else if m = inodeAreaStart diskSize then (rootInode.flatMap bytes32).getD i 0
      else if m = inodeMapStart then (bytes32 0x2).getD i 0
      else if m = superBlockLocation then
        (((easySb diskSize).words easySbName).flatMap bytes32).getD i 0
      else disk (m * blockSize + i) := by
  have hle : inodeAreaStart diskSize ≤ blockMapStart diskSize := Nat.le_add_right _ _
  have hsuper : (((easySb diskSize).words easySbName).flatMap bytes32).length ≤ blockSize := by
    rw [length_flatMap_bytes32]
    exact (by decide : 4 * 15 ≤ blockSize)
  rw [formatted, writeBlock_apply hn (by rw [length_slice]; decide) hi,
    writeBlock_apply (by omega) (by rw [length_flatMap_bytes32]; decide) hi,
    writeBlock_apply (by decide) (by decide) hi, writeBlock_apply (by decide) hsuper hi]

/-- The kernel reads the superblock that `mkfs` has computed. -/
theorem read_formatted (hn : blockMapStart diskSize < 2 ^ 20) :
    DSuper.read (formatted disk diskSize) = easySb diskSize := by
  have hmap : 2 ≤ inodeAreaStart diskSize := Nat.le_add_right _ _
  have hle : inodeAreaStart diskSize ≤ blockMapStart diskSize := Nat.le_add_right _ _
  have hlen : (((easySb diskSize).words easySbName).flatMap bytes32).length = 60 :=
    length_flatMap_bytes32 _
  rw [← DSuper.read_patch disk (easySb diskSize) (show easySbName.length = 4 from rfl)]
  refine DSuper.read_congr fun i hi => ?_
  rw [formatted_apply hn (hi.trans (by decide)), if_neg (by simp only [superBlockLocation]; omega),
    if_neg (by simp only [superBlockLocation]; omega), if_neg (by decide), if_pos rfl,
    patch_of_mem (Nat.le_add_right _ _) (by omega), List.getD_eq_getElem _ _ (by omega)]
  simp only [Nat.add_sub_cancel_left]

end Formatted

end RiscvLab.Fs
