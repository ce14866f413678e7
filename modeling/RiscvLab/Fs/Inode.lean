import RiscvLab.Fs.Efs
import RiscvLab.Library.Except

/-!
# Inodes

The operations on inodes: finding one by its number, in the hash table or on the disk; mapping a
block of a file to a block of the disk; reading and writing; creating and unlinking.

A new inode is put at the head of its bucket, and an inode in the hash table stays there when it is
unlinked. `efs_i_get` takes the number from the disk, so that the inode it has put into the bucket
of `ino` carries whatever number the disk has.

Source: `fs/easyfs/inode.c`.
-/

namespace RiscvLab.Fs

open Library

/-- `MAXFILE * BLOCK_SIZE`. -/
def maxFileSize : ℕ := (nDirect + nIndirect) * blockSize

/-- The address of the inode `ino` on disk: `offset_ino` from the start of the inode area. -/
def inodeAddr (ds : DSuper) (ino : BitVec 32) : ℕ :=
  ds.inodeAreaStart.toNat * blockSize + (ino * ds.inodeSize).toNat

/-- `efs_i_alloc`. -/
def efsIAlloc (st : Efs) : ℕ × Efs :=
  let zero : DInode := ⟨0, .fNone, 0, 0, fun _ => 0, 0⟩
  (st.inodes, { st with
    inode := Function.update st.inode st.inodes ⟨zero, 0, false, false, none⟩
    inodes := st.inodes + 1 })

/-- `efs_i_sdirty`. -/
def efsISdirty (st : Efs) (i : ℕ) : Efs :=
  let st := st.modInode i fun x => { x with dirty := true }
  if i ∈ st.idirty then st else { st with idirty := i :: st.idirty }

/-- `efs_i_addsb`. -/
def efsIAddsb (st : Efs) (i : ℕ) : Efs :=
  let b := (st.inode i).di.no.toNat % buckets
  { st with ihash := Function.update st.ihash b (i :: st.ihash b) }

/-- `efs_i_fill`. -/
def efsIFill (st : Efs) (i : ℕ) (ino : BitVec 32) : Except Panic Efs :=
  if ino.toInt ≤ 0 then .error .iFill
  else .ok (st.modDi i fun _ => .read st.disk (inodeAddr st.sb.ds ino))

/-- The address `i_addrs[k]`, which is allocated if it is zero and `alloc` is set. -/
def efsIAddr (st : Efs) (i k : ℕ) (alloc : Bool) : Except Panic (BitVec 32 × Efs) :=
  let bno := (st.inode i).di.addrs k
  if bno ≠ 0 ∨ alloc = false then .ok (bno, st)
  else do
    let (no, sb) ← efsBmapAlloc st.sb
    let bno := BitVec.ofInt 32 no
    .ok (bno, { st with sb := sb }.modDi i fun x =>
      { x with addrs := Function.update x.addrs k bno })

/-- The indirect block, which is read from the block `bno` if it is not in memory. -/
def efsILoadIndir (st : Efs) (i : ℕ) (bno : BitVec 32) : (ℕ → BitVec 32) × Efs :=
  match (st.inode i).indir with
  | some blk => (blk, st)
  | none =>
    let blk k := word32 st.disk (bno.toNat * blockSize + 4 * k)
    (blk, st.modInode i fun x => { x with indir := some blk })

/-- `efs_i_bmap`. -/
def efsIBmap (st : Efs) (i lbno : ℕ) (alloc : Bool) : Except Panic (BitVec 32 × Efs) :=
  if lbno < nDirect then efsIAddr st i lbno alloc
  else
    let lbno := lbno - nDirect
    if lbno < nIndirect then do
      let (bno, st) ← efsIAddr st i nDirect alloc
      if bno = 0 ∧ alloc = false then .ok (0, st)
      else
        let (blk, st) := efsILoadIndir st i bno
        if blk lbno ≠ 0 ∨ alloc = false then .ok (blk lbno, st)
        else do
          let (no, sb) ← efsBmapAlloc st.sb
          let bno := BitVec.ofInt 32 no
          .ok (bno, { st with sb := sb }.modInode i fun x =>
            { x with indir := some (Function.update blk lbno bno) })
    else .ok (0, st)

/-- `efs_i_put`. -/
def efsIPut (st : Efs) (i : ℕ) : Except Panic Efs :=
  if 0 < (st.inode i).refcnt.toInt then
    .ok (st.modInode i fun x => { x with refcnt := x.refcnt - 1 })
  else .error .iPut

/-- `efs_i_dup`. -/
def efsIDup (st : Efs) (i : ℕ) : Efs := st.modInode i fun x => { x with refcnt := x.refcnt + 1 }

/-- `hash_find` in `s_ihash`. -/
def hashFindInode (st : Efs) (ino : BitVec 32) : Option ℕ :=
  (st.ihash (ino.toNat % buckets)).find? fun i => (st.inode i).di.no = ino

/-- `efs_i_get`. -/
def efsIGet (st : Efs) (ino : BitVec 32) : Except Panic (ℕ × Efs) :=
  if ino.toInt < 0 then .error .bucket
  else match hashFindInode st ino with
    | some i => .ok (i, efsIDup st i)
    | none => do
      let (i, st) := efsIAlloc st
      let st := st.modDi i fun x => { x with no := ino }
      let st := efsIAddsb st i
      let st ← efsIFill st i ino
      let st := st.modInode i fun x => { x with valid := true }
      .ok (i, efsIDup st i)

/-- The loop of `efs_i_read`, with `left` bytes to read: the bytes that are read. Each round reads a
byte at least, so that `left` rounds are enough. -/
def efsIReadLoop (i : ℕ) : ℕ → Efs → ℕ → ℕ → Except Panic (List (BitVec 8) × Efs)
  | 0, st, _, _ => .ok ([], st)
  | fuel + 1, st, offset, left =>
    if left = 0 then .ok ([], st)
    else do
      let (bno, st) ← efsIBmap st i (offset / blockSize) false
      if bno = 0 then .ok ([], st)
      else
        let m := min left (blockSize - offset % blockSize)
        let bytes := slice st.disk (bno.toNat * blockSize + offset % blockSize) m
        let (rest, st) ← efsIReadLoop i fuel st (offset + m) (left - m)
        .ok (bytes ++ rest, st)

/-- `efs_i_read`: the bytes that are read. -/
def efsIRead (st : Efs) (i : ℕ) (offset len : BitVec 32) :
    Except Panic (List (BitVec 8) × Efs) :=
  let size := (st.inode i).di.size
  if size < offset ∨ offset + len < offset then .ok ([], st)
  else
    let len := if size < offset + len then size - offset else len
    efsIReadLoop i len.toNat st offset.toNat len.toNat

/-- The loop of `efs_i_write`, with the bytes `src` to write: the offset behind the last byte that
has been written. -/
def efsIWriteLoop (i : ℕ) : ℕ → Efs → ℕ → List (BitVec 8) → Except Panic (ℕ × Efs)
  | 0, st, offset, _ => .ok (offset, st)
  | fuel + 1, st, offset, src =>
    if src = [] then .ok (offset, st)
    else do
      let (bno, st) ← efsIBmap st i (offset / blockSize) true
      if bno = 0 then .ok (offset, st)
      else
        let m := min src.length (blockSize - offset % blockSize)
        let disk := patch st.disk (bno.toNat * blockSize + offset % blockSize) (src.take m)
        efsIWriteLoop i fuel { st with disk := disk } (offset + m) (src.drop m)

/-- `efs_i_write`, with the bytes at `vaddr`: the number of bytes that have been written. -/
def efsIWrite (st : Efs) (i : ℕ) (offset len : BitVec 32) (vaddr : ℕ → BitVec 8) :
    Except Panic (ℤ × Efs) :=
  if (st.inode i).di.size < offset ∨ offset + len < offset then .ok (-1, st)
  else if maxFileSize < (offset + len).toNat then .ok (-1, st)
  else do
    let (last, st) ← efsIWriteLoop i len.toNat st offset.toNat (slice vaddr 0 len.toNat)
    let st := if (st.inode i).di.size.toNat < last then
      st.modDi i fun x => { x with size := BitVec.ofNat 32 last } else st
    .ok (last - offset.toNat, efsISdirty st i)

/-- The blocks `addr k`, `addr (k + 1)`, … are freed, `n` at most, up to the first that is zero. -/
def efsIFreeAddrs (addr : ℕ → BitVec 32) : ℕ → ℕ → Super → Except Panic Super
  | 0, _, sb => .ok sb
  | n + 1, k, sb =>
    if addr k = 0 then .ok sb
    else do
      let sb ← efsBmapFree sb (addr k).toInt
      efsIFreeAddrs addr n (k + 1) sb

/-- The blocks in the indirect block are freed if it is in memory. -/
def efsIFreeIndir (indir : Option (ℕ → BitVec 32)) (sb : Super) : Except Panic Super :=
  match indir with
  | some blk => efsIFreeAddrs blk nIndirect 0 sb
  | none => .ok sb

/-- `efs_i_data_free`. -/
def efsIDataFree (st : Efs) (i : ℕ) : Except Panic Efs := do
  let sb ← efsIFreeAddrs (st.inode i).di.addrs (nDirect + 1) 0 st.sb
  let sb ← efsIFreeIndir (st.inode i).indir sb
  .ok { st with sb := sb }

/-- `efs_i_trunc`. -/
def efsITrunc (st : Efs) (i : ℕ) : Except Panic Efs := do
  let st ← efsIDataFree st i
  .ok (efsISdirty (st.modDi i fun x => { x with size := 0 }) i)

/-- `efs_i_new`. -/
def efsINew (st : Efs) : Except Panic (ℕ × Efs) := do
  let (ino, sb) ← efsImapAlloc st.sb
  let (i, st) := efsIAlloc { st with sb := sb }
  let st := st.modDi i fun _ => ⟨BitVec.ofInt 32 ino, .fNone, st.dev, 0, fun _ => 0, 1⟩
  .ok (i, efsIAddsb (efsISdirty st i) i)

/-- `efs_i_unlink`. -/
def efsIUnlink (st : Efs) (i : ℕ) : Except Panic (ℤ × Efs) :=
  if (st.inode i).di.no.toNat ≤ 1 then .ok (-1, st)
  else
    let st := st.modDi i fun x => { x with nlink := x.nlink - 1 }
    if (st.inode i).di.nlink = 0 then
      if 0 < (st.inode i).refcnt.toInt then
        .ok (-1, st.modDi i fun x => { x with nlink := x.nlink + 1 })
      else do
        let st ← efsITrunc st i
        let sb ← efsImapFree st.sb (st.inode i).di.no.toInt
        .ok (0, { st with sb := sb })
    else .ok (0, st)

/-- `efs_i_type`. -/
def efsIType (st : Efs) (i : ℕ) (type : FileType) : Efs :=
  efsISdirty (st.modDi i fun x => { x with type := type }) i

/-- `efs_i_root_init`. -/
def efsIRootInit (st : Efs) : Except Panic Efs :=
  let di := DInode.read st.disk (inodeAddr st.sb.ds 1)
  if di.no ≠ 1 then .error .rootInode
  else
    let st := { st with
      inode := Function.update st.inode 0 ⟨di, 1, false, true, none⟩
      inodes := 1 }
    .ok (efsIAddsb st 0)

end RiscvLab.Fs
