import RiscvLab.Fs.Inode
import RiscvLab.Library.LittleEndian

/-!
# Writing an inode to the disk

`efs_i_update` writes the record of an inode, and its indirect block if that is in memory. Both are
sequences of words; what is on the disk is compared with them word by word.

## Main definitions

* `DInode.words`, `pageWords` : what is written.
* `efsIUpdate`
* `diskWords` : what is on the disk.

Source: `fs/easyfs/inode.c`, lines 72–86; `fs/easyfs/easyfs.h`, lines 76–85.
-/

namespace RiscvLab.Fs

open Library

/-- `sizeof(struct easy_d_inode)`. -/
def dInodeSize : ℕ := 72

/-- The word of a file type. -/
def FileType.toWord : FileType → BitVec 32
  | fNone => 0
  | fReg => 1
  | fDir => 2
  | fDev => 3
  | other w _ => w

/-- The words of the record on disk; `pad` is between `i_devno` and `i_size`. -/
def DInode.words (di : DInode) (pad : BitVec 16) : List (BitVec 32) :=
  [di.no, di.type.toWord, pad ++ di.devno, di.size] ++ (List.range (nDirect + 1)).map di.addrs ++
    [di.nlink]

/-- The words of a loaded indirect block. -/
def pageWords (blk : ℕ → BitVec 32) : List (BitVec 32) := (List.range nIndirect).map blk

/-- `efs_i_update`. -/
def efsIUpdate (st : Efs) (i : ℕ) (pad : BitVec 16) : Except Panic Efs :=
  let x := st.inode i
  if x.di.no.toInt ≤ 0 then .error .iUpdate
  else
    let disk := patch st.disk (inodeAddr st.sb.ds x.di.no) ((x.di.words pad).flatMap bytes32)
    let disk := match x.indir with
      | some blk => patch disk ((x.di.addrs nDirect).toNat * blockSize)
          ((pageWords blk).flatMap bytes32)
      | none => disk
    .ok { st with disk := disk }

/-- The `n` words on the disk from the address `a` on. -/
def diskWords (disk : Disk) (a n : ℕ) : List (BitVec 32) :=
  (List.range n).map fun k => word32 disk (a + 4 * k)

theorem diskWords_congr {disk disk' : Disk} {a n : ℕ}
    (h : ∀ k < 4 * n, disk' (a + k) = disk (a + k)) : diskWords disk' a n = diskWords disk a n := by
  refine List.map_congr_left fun k hk => word32_congr fun m hm => ?_
  rw [List.mem_range] at hk
  rw [Nat.add_assoc, h _ (by omega)]

theorem diskWords_patch (disk : Disk) (a : ℕ) (ws : List (BitVec 32)) :
    diskWords (patch disk a (ws.flatMap bytes32)) a ws.length = ws := by
  refine List.ext_getElem (by simp [diskWords]) fun k hk hk' => ?_
  simp only [diskWords, List.getElem_map, List.getElem_range]
  exact word32_patch hk'

theorem DInode.length_words (di : DInode) (pad : BitVec 16) :
    (di.words pad).length = dInodeSize / 4 := by
  simp [words, nDirect, dInodeSize]

theorem length_pageWords (blk : ℕ → BitVec 32) : (pageWords blk).length = nIndirect := by
  simp [pageWords]

end RiscvLab.Fs
