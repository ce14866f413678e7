import Mathlib.Logic.Relation
import RiscvLab.Fs.Inode

/-!
# The block map of an inode

The first blocks of a file are listed in the inode, the others in the indirect block, which is a
page in memory once it has been used and else is on the disk. `MInode.block` is the block of the
disk for a block of the file, and zero where there is none; `MInode.file` is the contents of the
file.

`efs_i_read` changes nothing but that it may load the indirect block (`ReadFrame`), and returns what
the file holds if the file has no holes (`efsIRead_eq`).

## Main definitions

* `MInode.block`, `MInode.file`, `MInode.Uses`.
* `WellMapped` : the file shares no block; there may be holes.
* `WellFormed` : the file has no holes, and shares no block.
* `ReadFrame` : what reading does to the state.

Source: `fs/easyfs/inode.c`, lines 119–172 and 232–256.
-/

namespace RiscvLab.Fs

open Library

namespace MInode

/-- The indirect block: the page in memory, or else the block on the disk. -/
def page (disk : Disk) (x : MInode) (k : ℕ) : BitVec 32 :=
  match x.indir with
  | some blk => blk k
  | none => word32 disk ((x.di.addrs nDirect).toNat * blockSize + 4 * k)

/-- The block of the disk for the block `l` of the file, zero if there is none. -/
def block (disk : Disk) (x : MInode) (l : ℕ) : BitVec 32 :=
  if l < nDirect then x.di.addrs l
  else if l < nDirect + nIndirect ∧ x.di.addrs nDirect ≠ 0 then x.page disk (l - nDirect)
  else 0

/-- The byte `o` of the file. -/
def byte (disk : Disk) (x : MInode) (o : ℕ) : BitVec 8 :=
  disk ((x.block disk (o / blockSize)).toNat * blockSize + o % blockSize)

/-- The contents of the file. -/
def file (disk : Disk) (x : MInode) : List (BitVec 8) := slice (x.byte disk) 0 x.di.size.toNat

/-- The block `b` of the disk holds data of the file, or its indirect block. -/
def Uses (disk : Disk) (x : MInode) (b : BitVec 32) : Prop :=
  b ≠ 0 ∧ (b = x.di.addrs nDirect ∨ ∃ l, b = x.block disk l)

/-- The inode with its indirect block in memory. -/
def load (disk : Disk) (x : MInode) : MInode := { x with indir := some (x.page disk) }

variable {disk disk' : Disk} {x : MInode} {b : BitVec 32} {l : ℕ}

@[simp] theorem di_load : (x.load disk).di = x.di := rfl

@[simp] theorem page_load : (x.load disk).page disk' = x.page disk := rfl

@[simp] theorem block_load : (x.load disk).block disk' = x.block disk := rfl

@[simp] theorem file_load : (x.load disk).file disk = x.file disk := rfl

@[simp] theorem uses_load : (x.load disk).Uses disk' b ↔ x.Uses disk b := Iff.rfl

@[simp] theorem load_load : (x.load disk).load disk' = x.load disk := rfl

theorem load_of_indir {blk : ℕ → BitVec 32} (h : x.indir = some blk) : x.load disk = x := by
  obtain ⟨di, refcnt, dirty, valid, indir⟩ := x
  subst h
  rfl

theorem uses_block (h : x.block disk l ≠ 0) : x.Uses disk (x.block disk l) := ⟨h, .inr ⟨l, rfl⟩⟩

@[simp]
theorem length_file : (x.file disk).length = x.di.size.toNat := length_slice ..

end MInode

namespace Efs

/-- The indirect block of the inode `i` is loaded. -/
def loadIndir (st : Efs) (i : ℕ) : Efs := st.modInode i (MInode.load st.disk)

/-- The inodes in memory as `efs_i_bmap` maps them. -/
def block (st : Efs) (i : ℕ) : ℕ → BitVec 32 := (st.inode i).block st.disk

def file (st : Efs) (i : ℕ) : List (BitVec 8) := (st.inode i).file st.disk

theorem byte_eq (st : Efs) (i o : ℕ) : (st.inode i).byte st.disk o =
    st.disk ((st.block i (o / blockSize)).toNat * blockSize + o % blockSize) := rfl

end Efs

variable {st st' st'' : Efs} {i l : ℕ}

theorem efsILoadIndir_eq :
    efsILoadIndir st i ((st.inode i).di.addrs nDirect) =
      ((st.inode i).page st.disk, st.loadIndir i) := by
  unfold efsILoadIndir
  cases h : (st.inode i).indir with
  | some blk =>
    have hpage : (st.inode i).page st.disk = blk := by
      funext k
      rw [MInode.page, h]
    have hload : st.loadIndir i = st := by
      rw [Efs.loadIndir, Efs.modInode, MInode.load_of_indir h, Function.update_eq_self]
    rw [hpage, hload]
  | none =>
    have hpage : (st.inode i).page st.disk =
        fun k => word32 st.disk (((st.inode i).di.addrs nDirect).toNat * blockSize + 4 * k) := by
      funext k
      rw [MInode.page, h]
    simp only [Efs.loadIndir, Efs.modInode, MInode.load, hpage]

/-- Without allocation `efs_i_bmap` looks the block up. -/
theorem efsIBmap_false : efsIBmap st i l false = .ok (st.block i l,
    if nDirect ≤ l ∧ l < nDirect + nIndirect ∧ (st.inode i).di.addrs nDirect ≠ 0 then
      st.loadIndir i else st) := by
  unfold efsIBmap Efs.block MInode.block
  by_cases hd : l < nDirect
  · simp only [if_pos hd, efsIAddr, or_true, if_true]
    rw [if_neg (by omega)]
  simp only [if_neg hd]
  by_cases hl : l < nDirect + nIndirect
  · rw [if_pos (by omega)]
    simp only [efsIAddr, or_true, if_true, bind, Except.bind, and_true]
    by_cases ha : (st.inode i).di.addrs nDirect = 0
    · rw [if_pos ha, if_neg (by simp [ha]), if_neg (by simp [ha])]
    · rw [if_neg ha, efsILoadIndir_eq, if_pos ⟨hl, ha⟩, if_pos ⟨by omega, hl, ha⟩]
  · rw [if_neg (by omega), if_neg (by omega), if_neg (by omega)]

/-! ### Reading -/

/-- Indirect blocks may have been loaded. -/
structure ReadFrame (st st' : Efs) : Prop where
  disk : st'.disk = st.disk
  sb : st'.sb = st.sb
  inodes : st'.inodes = st.inodes
  inode : ∀ j, st'.inode j = st.inode j ∨
    (st.inode j).di.addrs nDirect ≠ 0 ∧ st'.inode j = (st.inode j).load st.disk

namespace ReadFrame

theorem refl : ReadFrame st st := ⟨rfl, rfl, rfl, fun _ => .inl rfl⟩

theorem loadIndir (h : (st.inode i).di.addrs nDirect ≠ 0) : ReadFrame st (st.loadIndir i) := by
  refine ⟨rfl, rfl, rfl, fun j => ?_⟩
  by_cases hj : j = i
  · subst hj
    exact .inr ⟨h, Efs.modInode_inode_self ..⟩
  · exact .inl (Efs.modInode_inode_of_ne hj)

theorem trans (h : ReadFrame st st') (h' : ReadFrame st' st'') : ReadFrame st st'' := by
  refine ⟨h'.disk.trans h.disk, h'.sb.trans h.sb, h'.inodes.trans h.inodes, fun j => ?_⟩
  rcases h.inode j with hj | ⟨ha, hj⟩ <;> rcases h'.inode j with hj' | ⟨ha', hj'⟩
  · exact .inl (hj'.trans hj)
  · rw [hj, h.disk] at hj'
    rw [hj] at ha'
    exact .inr ⟨ha', hj'⟩
  · exact .inr ⟨ha, hj'.trans hj⟩
  · rw [hj, MInode.load_load] at hj'
    exact .inr ⟨ha, hj'⟩

theorem di (h : ReadFrame st st') (j : ℕ) : (st'.inode j).di = (st.inode j).di := by
  rcases h.inode j with hj | ⟨-, hj⟩ <;> rw [hj]
  rfl

theorem block (h : ReadFrame st st') (j : ℕ) : st'.block j = st.block j := by
  unfold Efs.block
  rcases h.inode j with hj | ⟨-, hj⟩ <;> rw [hj, h.disk]
  rfl

theorem byte (h : ReadFrame st st') (j : ℕ) :
    (st'.inode j).byte st'.disk = (st.inode j).byte st.disk := by
  rcases h.inode j with hj | ⟨-, hj⟩ <;> rw [hj, h.disk]
  rfl

theorem file (h : ReadFrame st st') (j : ℕ) : st'.file j = st.file j := by
  unfold Efs.file
  rcases h.inode j with hj | ⟨-, hj⟩ <;> rw [hj, h.disk]
  rfl

theorem uses (h : ReadFrame st st') (j : ℕ) {b : BitVec 32} :
    (st'.inode j).Uses st'.disk b ↔ (st.inode j).Uses st.disk b := by
  rcases h.inode j with hj | ⟨-, hj⟩ <;> rw [hj, h.disk]
  rfl

end ReadFrame

/-- The rest of a block behind an offset, and the blocks behind it. -/
private theorem block_of_le {offset left k : ℕ}
    (hk : k < min left (blockSize - offset % blockSize)) :
    (offset + k) / blockSize = offset / blockSize ∧
      (offset + k) % blockSize = offset % blockSize + k := by
  simp only [blockSize] at hk ⊢
  omega

theorem slice_byte (disk : Disk) (x : MInode) (offset left : ℕ) :
    slice (x.byte disk) offset (min left (blockSize - offset % blockSize)) =
      slice disk ((x.block disk (offset / blockSize)).toNat * blockSize + offset % blockSize)
        (min left (blockSize - offset % blockSize)) := by
  refine slice_congr fun k hk => ?_
  obtain ⟨hdiv, hmod⟩ := block_of_le hk
  rw [MInode.byte, hdiv, hmod, Nat.add_assoc]

/-- The loop of `efs_i_read` reads all bytes unless it comes to a hole. -/
theorem efsIReadLoop_eq {fuel offset left : ℕ} (hfuel : left ≤ fuel) :
    ∃ bytes st', efsIReadLoop i fuel st offset left = .ok (bytes, st') ∧ ReadFrame st st' ∧
      ((∀ l, offset / blockSize ≤ l → l * blockSize < offset + left → st.block i l ≠ 0) →
        bytes = slice ((st.inode i).byte st.disk) offset left) := by
  induction fuel generalizing st offset left with
  | zero =>
    obtain rfl : left = 0 := by omega
    exact ⟨[], st, rfl, .refl, fun _ => rfl⟩
  | succ fuel ih =>
    by_cases hleft : left = 0
    · subst hleft
      exact ⟨[], st, by rw [efsIReadLoop, if_pos rfl], .refl, fun _ => rfl⟩
    rw [efsIReadLoop, if_neg hleft, efsIBmap_false]
    simp only [bind, Except.bind]
    generalize hst : (if nDirect ≤ offset / blockSize ∧ offset / blockSize < nDirect + nIndirect ∧
      (st.inode i).di.addrs nDirect ≠ 0 then st.loadIndir i else st) = st₁
    have hframe : ReadFrame st st₁ := by
      rw [← hst]
      split_ifs with h
      · exact .loadIndir h.2.2
      · exact .refl
    by_cases hb : st.block i (offset / blockSize) = 0
    · rw [if_pos hb]
      refine ⟨[], st₁, rfl, hframe, fun h => absurd hb (h _ le_rfl ?_)⟩
      have := Nat.div_mul_le_self offset blockSize
      omega
    · rw [if_neg hb]
      have hlt : offset % blockSize < blockSize := Nat.mod_lt _ (by decide)
      have hm : 0 < min left (blockSize - offset % blockSize) := by omega
      obtain ⟨bytes, st₂, heq, hframe', hbytes⟩ := @ih st₁
        (offset + min left (blockSize - offset % blockSize))
        (left - min left (blockSize - offset % blockSize)) (by omega)
      rw [heq]
      refine ⟨_, st₂, rfl, hframe.trans hframe', fun h => ?_⟩
      have hrest : ∀ l, (offset + min left (blockSize - offset % blockSize)) / blockSize ≤ l →
          l * blockSize < offset + min left (blockSize - offset % blockSize) +
            (left - min left (blockSize - offset % blockSize)) → st₁.block i l ≠ 0 := by
        intro l hl hlt
        rw [hframe.block]
        refine h l (le_trans (Nat.div_le_div_right (by omega)) hl) (by omega)
      rw [hbytes hrest, hframe.byte, hframe.disk]
      have hslice := slice_add ((st.inode i).byte st.disk) offset
        (min left (blockSize - offset % blockSize))
        (left - min left (blockSize - offset % blockSize))
      rw [slice_byte, Nat.add_sub_cancel' (min_le_left ..)] at hslice
      rw [hslice]
      rfl

/-- `efs_i_read` does not panic, and changes only what `ReadFrame` allows. -/
theorem efsIRead_frame (st : Efs) (i : ℕ) (offset len : BitVec 32) :
    ∃ bytes st', efsIRead st i offset len = .ok (bytes, st') ∧ ReadFrame st st' := by
  unfold efsIRead
  dsimp only
  split_ifs
  · exact ⟨_, _, rfl, .refl⟩
  all_goals
    obtain ⟨bytes, st', heq, hframe, -⟩ := efsIReadLoop_eq le_rfl
    exact ⟨bytes, st', heq, hframe⟩

/-- A file without holes is read up to its end. -/
theorem efsIRead_eq {offset len : BitVec 32}
    (hholes : ∀ l, l * blockSize < (st.inode i).di.size.toNat → st.block i l ≠ 0)
    (hoffset : offset.toNat ≤ (st.inode i).di.size.toNat)
    (hwrap : offset.toNat + len.toNat < 2 ^ 32) :
    ∃ st', efsIRead st i offset len = .ok (((st.file i).drop offset.toNat).take len.toNat, st') ∧
      ReadFrame st st' := by
  have hfile : ((st.file i).drop offset.toNat).take len.toNat =
      slice ((st.inode i).byte st.disk) offset.toNat
        (min len.toNat ((st.inode i).di.size.toNat - offset.toNat)) := by
    rw [Efs.file, MInode.file, drop_slice, take_slice, Nat.zero_add]
  have hadd : (offset + len).toNat = offset.toNat + len.toNat := by
    rw [BitVec.toNat_add, Nat.mod_eq_of_lt hwrap]
  have hlen : (if (st.inode i).di.size < offset + len then (st.inode i).di.size - offset
      else len).toNat = min len.toNat ((st.inode i).di.size.toNat - offset.toNat) := by
    split_ifs with h
    · rw [BitVec.toNat_sub_of_le (BitVec.le_def.2 hoffset)]
      rw [BitVec.lt_def, hadd] at h
      omega
    · rw [BitVec.lt_def, hadd] at h
      omega
  unfold efsIRead
  dsimp only
  rw [if_neg (by rw [BitVec.lt_def, BitVec.lt_def, hadd]; omega), hlen, hfile]
  obtain ⟨bytes, st', heq, hframe, hbytes⟩ := @efsIReadLoop_eq st i _ offset.toNat _
    (le_refl (min len.toNat ((st.inode i).di.size.toNat - offset.toNat)))
  refine ⟨st', ?_, hframe⟩
  rw [heq, hbytes fun l _ hl => hholes l (by omega)]

/-! ### Well-formed inodes -/

/-- The blocks of the file, and the indirect block, are its own. The file may have holes. -/
structure WellMapped (st : Efs) (i : ℕ) : Prop where
  known : i < st.inodes
  indir : (st.inode i).indir.isSome → (st.inode i).di.addrs nDirect ≠ 0
  distinct : ∀ l l', st.block i l ≠ 0 → st.block i l = st.block i l' → l = l'
  indirect : ∀ l, st.block i l ≠ 0 → st.block i l ≠ (st.inode i).di.addrs nDirect
  unshared : ∀ j < st.inodes, j ≠ i → ∀ b, (st.inode i).Uses st.disk b →
    ¬(st.inode j).Uses st.disk b

/-- A file without holes whose blocks, and the indirect block, are its own. -/
structure WellFormed (st : Efs) (i : ℕ) : Prop extends WellMapped st i where
  size : (st.inode i).di.size.toNat ≤ maxFileSize
  noHoles : ∀ l, l * blockSize < (st.inode i).di.size.toNat → st.block i l ≠ 0

theorem ReadFrame.wellMapped (h : ReadFrame st st') (hwf : WellMapped st i) :
    WellMapped st' i := by
  refine ⟨h.inodes ▸ hwf.known, fun _ => ?_, ?_, ?_, ?_⟩
  · rw [h.di]
    rcases h.inode i with hi | ⟨ha, -⟩
    · exact hwf.indir (by simpa only [hi] using ‹(st'.inode i).indir.isSome›)
    · exact ha
  · rw [h.block]
    exact hwf.distinct
  · rw [h.block, h.di]
    exact hwf.indirect
  · simpa only [h.inodes, h.uses] using hwf.unshared

theorem ReadFrame.wellFormed (h : ReadFrame st st') (hwf : WellFormed st i) :
    WellFormed st' i := by
  refine ⟨h.wellMapped hwf.toWellMapped, h.di i ▸ hwf.size, ?_⟩
  rw [h.di, h.block]
  exact hwf.noHoles

/-- Of the disk, the block map depends on the indirect block only. -/
theorem MInode.block_congr {disk disk' : Disk} {x : MInode}
    (h : x.di.addrs nDirect ≠ 0 → ∀ k < blockSize,
      disk' ((x.di.addrs nDirect).toNat * blockSize + k) =
        disk ((x.di.addrs nDirect).toNat * blockSize + k)) :
    x.block disk' = x.block disk := by
  funext l
  unfold MInode.block
  split_ifs with hd hl
  · rfl
  · unfold MInode.page
    split
    · rfl
    · refine word32_congr fun k hk => ?_
      have hlt : 4 * (l - nDirect) + k < blockSize := by
        simp only [nDirect, nIndirect, blockSize] at hd hl ⊢
        omega
      rw [Nat.add_assoc, h hl.2 _ hlt]
  · rfl

end RiscvLab.Fs
