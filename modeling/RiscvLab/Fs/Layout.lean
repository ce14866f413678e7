import RiscvLab.Library.LittleEndian

/-!
# Disk layout of easyfs

A disk is a store of bytes; the block device is taken to be faithful to it. Block 1 holds the
superblock. The inode bitmap, the inodes, the block bitmap and the data blocks follow, at the block
numbers that the superblock gives.

Source: `fs/easyfs/easyfs.h`; `kernel/dev/blk/blk_dev.c`, lines 6–24.
-/

namespace RiscvLab.Fs

open Library

/-- The contents of a block device, by byte address. -/
abbrev Disk := ℕ → BitVec 8

/-- `BLOCK_SIZE`. -/
def blockSize : ℕ := 4096

/-- `INODE_SIZE`. -/
def inodeSize : ℕ := 128

/-- `AVG_FILE_SIZE`. -/
def avgFileSize : ℕ := 500 * 1024

/-- `NDIRECT`. -/
def nDirect : ℕ := 12

/-- `NINDIRECT`. -/
def nIndirect : ℕ := 1024

/-- `SUPER_BLOCK_LOCATION`. -/
def superBlockLocation : ℕ := 1

/-- `EASYFS_MAGIC`. -/
def easyfsMagic : BitVec 32 := 0x12345678

/-- What stops the kernel: the `panic` and `assert` calls of the file system, and accesses that
leave the object they are meant for. -/
inductive Panic
  /-- `efs_sb_fill`: wrong magic number. -/
  | magic
  /-- A bitmap is read into fewer pages than it takes. -/
  | overrun
  /-- `efs_imap_alloc`: no inode number left. -/
  | imapAlloc
  /-- `efs_imap_free`: the inode number is not allocated. -/
  | imapFree
  /-- `efs_bmap_alloc`: no block left. -/
  | bmapAlloc
  /-- `efs_bmap_free`: the block is not allocated. -/
  | bmapFree
  /-- `efs_i_root_init`: the inode does not have the number 1. -/
  | rootInode
  /-- `hash_find` with a negative inode number. -/
  | bucket
  /-- `efs_i_fill`: the inode number is not positive. -/
  | iFill
  /-- `efs_i_update`: the inode number is not positive. -/
  | iUpdate
  /-- `efs_i_put`: the inode has no reference. -/
  | iPut
  /-- A pointer that is `NULL` is followed. -/
  | null
  /-- `efs_d_named`: `d` is used before it is set. -/
  | relativePath
  /-- `file_dup`: the file has no reference. -/
  | fileDup
  /-- `file_close`: the file has no reference. -/
  | fileClose
  /-- `file_read`: nothing has been read. -/
  | fileRead
  /-- `file_write`: nothing has been written. -/
  | fileWrite
  deriving DecidableEq

/-- `struct easy_d_super_block`, without the name. -/
structure DSuper where
  inodeCount : BitVec 32
  inodeFree : BitVec 32
  inodeSize : BitVec 32
  inodeMapStart : BitVec 32
  inodeAreaStart : BitVec 32
  blockCount : BitVec 32
  blockFree : BitVec 32
  blockSize : BitVec 32
  blockMapStart : BitVec 32
  blockAreaStart : BitVec 32
  magic : BitVec 32
  deriving DecidableEq

namespace DSuper

/-- The words of the record on disk; words 10 to 13 are the name. -/
def words (sb : DSuper) (name : List (BitVec 32)) : List (BitVec 32) :=
  [sb.inodeCount, sb.inodeFree, sb.inodeSize, sb.inodeMapStart, sb.inodeAreaStart,
    sb.blockCount, sb.blockFree, sb.blockSize, sb.blockMapStart, sb.blockAreaStart] ++
    name ++ [sb.magic]

/-- `efs_sb_read`. -/
def read (disk : Disk) : DSuper :=
  let word (i : ℕ) : BitVec 32 := word32 disk (superBlockLocation * Fs.blockSize + 4 * i)
  { inodeCount := word 0
    inodeFree := word 1
    inodeSize := word 2
    inodeMapStart := word 3
    inodeAreaStart := word 4
    blockCount := word 5
    blockFree := word 6
    blockSize := word 7
    blockMapStart := word 8
    blockAreaStart := word 9
    magic := word 14 }

theorem read_congr {f g : Disk} (h : ∀ i < 60, f (superBlockLocation * Fs.blockSize + i) =
    g (superBlockLocation * Fs.blockSize + i)) : read f = read g := by
  have hw : ∀ i < 15, word32 f (superBlockLocation * Fs.blockSize + 4 * i) =
      word32 g (superBlockLocation * Fs.blockSize + 4 * i) := fun i hi =>
    word32_congr fun j hj => by rw [Nat.add_assoc, h _ (by omega)]
  simp only [read, hw 0 (by decide), hw 1 (by decide), hw 2 (by decide), hw 3 (by decide),
    hw 4 (by decide), hw 5 (by decide), hw 6 (by decide), hw 7 (by decide), hw 8 (by decide),
    hw 9 (by decide), hw 14 (by decide)]

/-- A superblock that has been written is read back. -/
theorem read_patch (disk : Disk) (sb : DSuper) {name : List (BitVec 32)} (h : name.length = 4) :
    read (patch disk (superBlockLocation * Fs.blockSize) ((sb.words name).flatMap bytes32)) =
      sb := by
  obtain ⟨a, b, c, d, rfl⟩ : ∃ a b c d, name = [a, b, c, d] := by
    match name, h with
    | [a, b, c, d], _ => exact ⟨a, b, c, d, rfl⟩
  have hw : ∀ i (hi : i < (sb.words [a, b, c, d]).length), _ = _ := fun i hi =>
    word32_patch (f := disk) (a := superBlockLocation * Fs.blockSize) hi
  simp only [read, hw 0 (by simp [words]), hw 1 (by simp [words]), hw 2 (by simp [words]),
    hw 3 (by simp [words]), hw 4 (by simp [words]), hw 5 (by simp [words]),
    hw 6 (by simp [words]), hw 7 (by simp [words]), hw 8 (by simp [words]),
    hw 9 (by simp [words]), hw 14 (by simp [words])]
  rfl

end DSuper

end RiscvLab.Fs
