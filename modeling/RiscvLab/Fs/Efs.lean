import RiscvLab.Fs.Super

/-!
# The state of easyfs

The records of inodes and directory entries on disk and in memory, and the state of a mounted file
system: the disk, the superblock with its bitmaps, the objects in memory, the two hash tables and
the two lists of what is to be written back. Objects in memory are never freed, so that they are
numbered in the order of their allocation; number 0 is the root. The lists that nothing reads
(`s_ilist`, `s_dlist`) and the locks are left out: an operation of the file system is one step.

Source: `fs/easyfs/easyfs.h`.
-/

namespace RiscvLab.Fs

open Library

/-- `enum easy_file_type`; a word on disk may be none of the four. -/
inductive FileType
  | fNone
  | fReg
  | fDir
  | fDev
  | other (w : BitVec 32) (hw : 3 < w)
  deriving DecidableEq

/-- The file type that a word stands for. -/
def FileType.ofWord (w : BitVec 32) : FileType :=
  if hw : 3 < w then .other w hw
  else if w = 0 then .fNone
  else if w = 1 then .fReg
  else if w = 2 then .fDir
  else .fDev

/-- `struct easy_d_inode`. -/
structure DInode where
  no : BitVec 32
  type : FileType
  devno : BitVec 16
  size : BitVec 32
  addrs : ℕ → BitVec 32
  nlink : BitVec 32

/-- The inode at the address `a`. -/
def DInode.read (disk : Disk) (a : ℕ) : DInode where
  no := word32 disk a
  type := .ofWord (word32 disk (a + 4))
  devno := (word32 disk (a + 8)).setWidth 16
  size := word32 disk (a + 12)
  addrs k := word32 disk (a + 16 + 4 * k)
  nlink := word32 disk (a + 68)

/-- `struct easy_m_inode`. -/
structure MInode where
  di : DInode
  refcnt : BitVec 32
  /-- `I_DIRTY`. -/
  dirty : Bool
  /-- `I_VALID`. -/
  valid : Bool
  indir : Option (ℕ → BitVec 32)

/-- `DIR_MAXLEN`. -/
def dirMaxlen : ℕ := 16

/-- `sizeof(struct easy_dirent)`. -/
def direntSize : ℕ := 24

/-- `struct easy_dirent`. The bytes behind the name are those of the pointer `d_inode`, the lowest
of which is zero: inodes are allocated at multiples of 256. -/
structure Dirent where
  ino : BitVec 32
  type : FileType
  name : ℕ → BitVec 8

/-- The directory entry in the first bytes of a store. -/
def Dirent.read (f : ℕ → BitVec 8) : Dirent where
  ino := word32 f 0
  type := .ofWord (word32 f 4)
  name i := if i < dirMaxlen then f (8 + i) else 0

/-- `struct easy_dentry`. -/
structure Dentry where
  dd : Dirent
  inode : Option ℕ
  parent : Option ℕ
  child : List ℕ
  /-- `D_CHILD`. -/
  filled : Bool
  /-- `D_DIRTY`. -/
  dirty : Bool

/-- A mounted file system. -/
structure Efs where
  disk : Disk
  sb : Super
  /-- `efs_bd->bd_dev`. -/
  dev : BitVec 16
  /-- What the memory of a directory entry holds when it is allocated. -/
  junk : ℕ → ℕ → BitVec 8
  inode : ℕ → MInode
  /-- The number of inodes in memory. -/
  inodes : ℕ
  dentry : ℕ → Dentry
  /-- The number of directory entries in memory. -/
  dentries : ℕ
  /-- `s_ihash`, by bucket. -/
  ihash : ℕ → List ℕ
  /-- `s_dhash`, by bucket. -/
  dhash : ℕ → List ℕ
  /-- `s_idirty_list`. -/
  idirty : List ℕ
  /-- `s_ddirty_list`. -/
  ddirty : List ℕ

/-- The number of buckets of both hash tables. -/
def buckets : ℕ := 41

namespace Efs

/-- The inode `i` is changed. -/
def modInode (st : Efs) (i : ℕ) (f : MInode → MInode) : Efs :=
  { st with inode := Function.update st.inode i (f (st.inode i)) }

/-- The on-disk part of the inode `i` is changed. -/
def modDi (st : Efs) (i : ℕ) (f : DInode → DInode) : Efs :=
  st.modInode i fun x => { x with di := f x.di }

/-- The directory entry `d` is changed. -/
def modDentry (st : Efs) (d : ℕ) (f : Dentry → Dentry) : Efs :=
  { st with dentry := Function.update st.dentry d (f (st.dentry d)) }

section

variable (st : Efs) (i j : ℕ) (f : MInode → MInode) (g : DInode → DInode) (h : Dentry → Dentry)

@[simp] theorem modInode_inode_self : (st.modInode i f).inode i = f (st.inode i) :=
  Function.update_self ..

@[simp] theorem modInode_disk : (st.modInode i f).disk = st.disk := rfl
@[simp] theorem modInode_sb : (st.modInode i f).sb = st.sb := rfl
@[simp] theorem modInode_junk : (st.modInode i f).junk = st.junk := rfl
@[simp] theorem modInode_inodes : (st.modInode i f).inodes = st.inodes := rfl
@[simp] theorem modInode_dentry : (st.modInode i f).dentry = st.dentry := rfl
@[simp] theorem modInode_dentries : (st.modInode i f).dentries = st.dentries := rfl
@[simp] theorem modInode_ihash : (st.modInode i f).ihash = st.ihash := rfl
@[simp] theorem modInode_dhash : (st.modInode i f).dhash = st.dhash := rfl

@[simp] theorem modDentry_dentry_self : (st.modDentry i h).dentry i = h (st.dentry i) :=
  Function.update_self ..

@[simp] theorem modDentry_disk : (st.modDentry i h).disk = st.disk := rfl
@[simp] theorem modDentry_sb : (st.modDentry i h).sb = st.sb := rfl
@[simp] theorem modDentry_junk : (st.modDentry i h).junk = st.junk := rfl
@[simp] theorem modDentry_inode : (st.modDentry i h).inode = st.inode := rfl
@[simp] theorem modDentry_inodes : (st.modDentry i h).inodes = st.inodes := rfl
@[simp] theorem modDentry_dentries : (st.modDentry i h).dentries = st.dentries := rfl
@[simp] theorem modDentry_ihash : (st.modDentry i h).ihash = st.ihash := rfl
@[simp] theorem modDentry_dhash : (st.modDentry i h).dhash = st.dhash := rfl

variable {st i j f h}

theorem modInode_inode_of_ne (hne : j ≠ i) : (st.modInode i f).inode j = st.inode j :=
  Function.update_of_ne hne ..

theorem modDentry_dentry_of_ne (hne : j ≠ i) : (st.modDentry i h).dentry j = st.dentry j :=
  Function.update_of_ne hne ..

end

end Efs

end RiscvLab.Fs
