import RiscvLab.Fs.Layout
import RiscvLab.Lib.Bitmap

/-!
# The superblock in memory

At mount the superblock and the two bitmaps are read from the disk. The bitmaps are read into pages
allocated beforehand, one for the inode bitmap and sixteen for the block bitmap. The search of a
bitmap starts at its first clear bit from 1 on, and its number of unused bits is the counter of the
superblock.

`efs_imap_alloc` and `efs_bmap_alloc` panic when the bitmap has no bit left; `efs_imap_free` and
`efs_bmap_free` panic unless `bitmap_is_free` answers zero.

Source: `fs/easyfs/super.c`, lines 16–36, 57–85 and 182–222.
-/

namespace RiscvLab.Fs

open Library

/-- `struct easy_m_super_block`, with the two bitmaps: the part that the allocators use. -/
structure Super where
  ds : DSuper
  imap : Bitmap
  bmap : Bitmap
  /-- `S_DIRTY`. -/
  dirty : Bool

/-- Memory words after `count` blocks from the block `start` on have been read into them. -/
def readWords (disk : Disk) (pages : ℕ → BitVec 64) (start count : ℕ) (i : ℕ) : BitVec 64 :=
  if i < 512 * count then word64 disk (start * blockSize + 8 * i) else pages i

/-- The common part of `efs_fill_imap` and `efs_fill_bmap`: a bitmap of `size` bits is read. -/
def efsFillMap (disk : Disk) (pages : ℕ → BitVec 64) (start next size free : BitVec 32) : Bitmap :=
  let map := bitmapInitZone (readWords disk pages start.toNat (next - start).toNat) size.toInt
  bitmapResetUnused (bitmapResetAllo map 1) free.toInt

/-- `efs_fill_imap`. -/
def efsFillImap (disk : Disk) (pages : ℕ → BitVec 64) (ds : DSuper) : Bitmap :=
  efsFillMap disk pages ds.inodeMapStart ds.inodeAreaStart ds.inodeCount ds.inodeFree

/-- `efs_fill_bmap`. -/
def efsFillBmap (disk : Disk) (pages : ℕ → BitVec 64) (ds : DSuper) : Bitmap :=
  efsFillMap disk pages ds.blockMapStart ds.blockAreaStart ds.blockCount ds.blockFree

/-- The bitmaps fit into the page and the 16 pages that are allocated for them. The source does not
check this: `blk_read_count` writes the rest behind the pages. -/
def MapsFit (disk : Disk) : Prop :=
  let ds := DSuper.read disk
  (ds.inodeAreaStart - ds.inodeMapStart).toNat ≤ 1 ∧
    (ds.blockAreaStart - ds.blockMapStart).toNat ≤ 2 ^ 4

instance (disk : Disk) : Decidable (MapsFit disk) := inferInstanceAs (Decidable (_ ∧ _))

/-- `efs_sb_read` and `efs_sb_fill`; `ipages` and `bpages` are what the memory held before, from the
allocated pages on. -/
def efsSbInit (disk : Disk) (ipages bpages : ℕ → BitVec 64) : Except Panic Super :=
  let ds := DSuper.read disk
  if ds.magic ≠ easyfsMagic then .error .magic
  else .ok ⟨ds, efsFillImap disk ipages ds, efsFillBmap disk bpages ds, false⟩

/-- `efs_imap_alloc`. -/
def efsImapAlloc (sb : Super) : Except Panic (ℤ × Super) :=
  let (no, imap) := bitmapAlloc sb.imap
  if no = -1 then .error .imapAlloc
  else .ok (no, { sb with
    ds := { sb.ds with inodeFree := sb.ds.inodeFree - 1 }
    imap := imap
    dirty := true })

/-- `efs_imap_free`. -/
def efsImapFree (sb : Super) (ino : ℤ) : Except Panic Super :=
  if bitmapIsFree sb.imap ino ≠ 0 then .error .imapFree
  else .ok { sb with
    ds := { sb.ds with inodeFree := sb.ds.inodeFree + 1 }
    imap := bitmapFree sb.imap ino
    dirty := true }

/-- `efs_bmap_alloc`. -/
def efsBmapAlloc (sb : Super) : Except Panic (ℤ × Super) :=
  let (no, bmap) := bitmapAlloc sb.bmap
  if no = -1 then .error .bmapAlloc
  else .ok (no, { sb with
    ds := { sb.ds with blockFree := sb.ds.blockFree - 1 }
    bmap := bmap
    dirty := true })

/-- `efs_bmap_free`. -/
def efsBmapFree (sb : Super) (bno : ℤ) : Except Panic Super :=
  if bitmapIsFree sb.bmap bno ≠ 0 then .error .bmapFree
  else .ok { sb with
    ds := { sb.ds with blockFree := sb.ds.blockFree + 1 }
    bmap := bitmapFree sb.bmap bno
    dirty := true }

/-- `n` calls of an allocator. -/
def allocMany (alloc : Super → Except Panic (ℤ × Super)) : ℕ → Super →
    Except Panic (List ℤ × Super)
  | 0, sb => .ok ([], sb)
  | n + 1, sb => do
    let (no, sb) ← alloc sb
    let (nos, sb) ← allocMany alloc n sb
    .ok (no :: nos, sb)

theorem allocMany_succ {alloc : Super → Except Panic (ℤ × Super)} {sb sb₁ sb₂ : Super} {no : ℤ}
    {nos : List ℤ} {n : ℕ} (h : alloc sb = .ok (no, sb₁))
    (h' : allocMany alloc n sb₁ = .ok (nos, sb₂)) :
    allocMany alloc (n + 1) sb = .ok (no :: nos, sb₂) := by
  simp only [allocMany, h, bind, Except.bind, h']

end RiscvLab.Fs
