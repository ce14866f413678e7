import RiscvLab.Fs.DentryFrames
import RiscvLab.Fs.Mounted

/-!
# Mounting

`efs_mount` reads the superblock, the root inode and the root directory. The root inode keeps one
reference, which is never given back; no other inode has one (`Efs.Mounted.wf_refs`). This is so for
any contents of the disk. A disk that has just been formatted can be mounted if it has inodes
(`efsMount_formatted`).

Source: `fs/easyfs/fs.c`, lines 7–43; `fs/easyfs/inode.c`, lines 405–421; `fs/easyfs/dentry.c`.
-/

namespace RiscvLab.Fs

open Library

variable {disk : Disk} {diskSize : ℕ}

/-- The words of the inode block that `mkfs` writes. -/
theorem word32_rootInode {w : ℕ} (hn : blockMapStart diskSize < 2 ^ 20)
    (hpos : 0 < inodeAreaBlocks diskSize) (hw : w < rootInode.length) :
    word32 (formatted disk diskSize) (inodeAreaStart diskSize * blockSize + 4 * w) =
      rootInode[w] := by
  have hlen : rootInode.length = 50 := rfl
  obtain ⟨-, hle, -⟩ := layout_eqs diskSize
  rw [← word32_patch (f := fun _ => 0) (a := 0) hw]
  refine word32_congr fun i hi => ?_
  rw [Nat.add_assoc, formatted_apply hn (by simp only [blockSize]; omega), if_neg (by omega),
    if_pos rfl, patch, if_neg (by omega)]
  simp only [Nat.zero_add, Nat.sub_zero]

/-- On a disk without inodes, the block bitmap stands where the root inode is looked for. -/
theorem no_rootInode (hfits : Fits diskSize) (h₀ : inodeCount diskSize = 0) :
    word32 (formatted disk diskSize) (inodeAreaStart diskSize * blockSize + 4 * 32) = 0 := by
  have hbs : blockSize = 4096 := rfl
  have hmap : inodeMapBlocks diskSize = 0 := by
    rw [inodeMapBlocks, h₀]
    rfl
  have harea : inodeAreaBlocks diskSize = 0 := by
    rw [inodeAreaBlocks, h₀]
    rfl
  obtain ⟨h₁, h₂, h₃⟩ := layout_eqs diskSize
  have h₄ := (fits_iff.1 hfits).2
  have hzero : word32 (fun _ => 0) 0 = 0 := by decide
  rw [← hzero]
  refine word32_congr fun i hi => ?_
  rw [Nat.add_assoc, formatted_apply (by omega) (by omega), if_pos (by omega),
    getD_slice (by omega)]
  refine BitVec.eq_of_getLsbD_eq fun j hj => ?_
  have hend : markedEnd (blockAreaStart diskSize) ≤ 24 := by
    rw [markedEnd]
    split <;> omega
  have hbit := getLsbD_dataMap (a := blockAreaStart diskSize) (k := 8 * (4 * 32 + i) + j)
    (by omega) (by omega)
  rw [show (8 * (4 * 32 + i) + j) / 8 = 0 + (4 * 32 + i) by omega,
    show (8 * (4 * 32 + i) + j) % 8 = j by omega] at hbit
  rw [hbit, decide_eq_false (by omega)]
  exact BitVec.getLsbD_zero.symm

theorem inodeAddr_easySb (hn : blockMapStart diskSize < 2 ^ 20) :
    inodeAddr (easySb diskSize) 1 = inodeAreaStart diskSize * blockSize + 4 * 32 := by
  have hle : inodeAreaStart diskSize ≤ blockMapStart diskSize := Nat.le_add_right _ _
  have harea : (easySb diskSize).inodeAreaStart.toNat = inodeAreaStart diskSize := by
    rw [easySb, BitVec.toNat_ofNat, Nat.mod_eq_of_lt (by omega)]
  rw [inodeAddr, harea]
  rfl

theorem disk_of_efsIRootInit {st st' : Efs} (h : efsIRootInit st = .ok st') :
    st'.disk = st.disk := by
  simp only [efsIRootInit] at h
  split at h
  · cases h
  · obtain rfl := Except.ok.inj h
    rfl

theorem efsIRootInit_cases {st st' : Efs} (h : efsIRootInit st = .ok st') :
    st'.inodes = 1 ∧
      st'.inode 0 = ⟨DInode.read st.disk (inodeAddr st.sb.ds 1), 1, false, true, none⟩ ∧
        (DInode.read st.disk (inodeAddr st.sb.ds 1)).no = 1 ∧
        st'.ihash = Function.update st.ihash 1 (0 :: st.ihash 1) ∧ st'.sb = st.sb ∧
          st'.dhash = st.dhash := by
  simp only [efsIRootInit] at h
  split at h
  · cases h
  · next hno =>
    rw [not_not] at hno
    obtain rfl := Except.ok.inj h
    refine ⟨rfl, ?_, hno, ?_, rfl, rfl⟩
    · simp [efsIAddsb]
    · simp only [efsIAddsb, Function.update_self, hno]
      rfl

theorem inodeAreaBlocks_pos (hfits : Fits diskSize) (hpos : 0 < inodeCount diskSize) :
    0 < inodeAreaBlocks diskSize := by
  have := hfits.1
  simp only [inodeAreaBlocks, ceilDiv, inodeSize, blockSize]
  omega

/-- A directory whose file is empty and whose inode is in memory can be read. -/
theorem efsDFill_empty {st : Efs} {d i : ℕ} (hino : 0 ≤ (st.dentry d).dd.ino.toInt)
    (hf : hashFindInode st (st.dentry d).dd.ino = some i) (hsize : (st.inode i).di.size = 0)
    (href : 0 < ((st.inode i).refcnt + 1).toInt) :
    ∃ st', efsDFill st d = .ok st' ∧ st'.inode i = st.inode i ∧ st'.sb = st.sb := by
  have hget : efsIGet st (st.dentry d).dd.ino = .ok (i, efsIDup st i) := by
    rw [efsIGet, if_neg (by omega), hf]
  have hzero : ((efsIDup st i).inode i).di.size = 0 := by simpa [efsIDup] using hsize
  have hput : 0 < ((efsIDup st i).inode i).refcnt.toInt := by simpa [efsIDup] using href
  have hcount : (0 : BitVec 32).toNat / direntSize = 0 := rfl
  simp only [efsDFill, hget, bind, Except.bind, Efs.modDentry_inode, hzero, hcount, efsDFillLoop]
  exact ⟨_, if_pos hput, by simp [efsIDup], rfl⟩

section Format

variable (dev : BitVec 16) (ipages bpages : ℕ → BitVec 64) (junk : ℕ → ℕ → BitVec 8)

/-- A formatted disk with a block for the inodes can be mounted; the root inode is the one that
`mkfs` has written. -/
theorem efsMount_formatted (hlt : blockAreaStart diskSize < 2 ^ 20)
    (harea : 0 < inodeAreaBlocks diskSize) :
    ∃ st, efsMount (formatted disk diskSize) dev ipages bpages junk = .ok st ∧
      st.sb = mounted disk ipages bpages diskSize ∧
      st.inode 0 = ⟨DInode.read (formatted disk diskSize)
        (inodeAreaStart diskSize * blockSize + 4 * 32), 1, false, true, none⟩ := by
  obtain ⟨-, h₂, h₃⟩ := layout_eqs diskSize
  have hn : blockMapStart diskSize < 2 ^ 20 := by omega
  have hword : ∀ w (hw : w < rootInode.length), word32 (formatted disk diskSize)
      (inodeAreaStart diskSize * blockSize + 4 * w) = rootInode[w] := fun w hw =>
    word32_rootInode hn harea hw
  have hsb := @efsSbInit_formatted disk diskSize ipages bpages hlt
  obtain ⟨st₀, hst₀⟩ : ∃ st₀, st₀ =
      Efs.blank (formatted disk diskSize) (mounted disk ipages bpages diskSize) dev junk := ⟨_, rfl⟩
  have hdi : DInode.read st₀.disk (inodeAddr st₀.sb.ds 1) =
      DInode.read (formatted disk diskSize) (inodeAreaStart diskSize * blockSize + 4 * 32) := by
    rw [← inodeAddr_easySb hn, ← @mounted_ds disk diskSize ipages bpages, hst₀]
    rfl
  have hno : (DInode.read st₀.disk (inodeAddr st₀.sb.ds 1)).no = 1 := by
    rw [hdi]
    exact hword 32 (by decide)
  obtain ⟨st₁, hst₁⟩ : ∃ st₁, efsIRootInit st₀ = .ok st₁ := by
    simp only [efsIRootInit]
    exact ⟨_, if_neg (not_not.2 hno)⟩
  obtain ⟨-, hroot, -, hihash, hsb₁, -⟩ := efsIRootInit_cases hst₁
  rw [hdi] at hroot
  obtain ⟨st₂, hst₂, hinode, hsb₂⟩ : ∃ st₂, efsDFill { st₁ with
      dentry := Function.update st₁.dentry 0 rootDentry, dentries := 1 } 0 = .ok st₂ ∧
      st₂.inode 0 = st₁.inode 0 ∧ st₂.sb = st₁.sb := by
    refine efsDFill_empty (i := 0) ?_ ?_ ?_ ?_
    · simp [rootDentry]
    · simp only [rootDentry, Function.update_self, hashFindInode]
      change (st₁.ihash 1).find? _ = _
      rw [hihash, Function.update_self, List.find?_cons_of_pos]
      rw [hroot, ← hdi, hno]
      simp
    · rw [hroot]
      exact hword 35 (by decide)
    · rw [hroot]
      exact (by decide : 0 < ((1 : BitVec 32) + 1).toInt)
  refine ⟨efsDAddsb (st₂.modDentry 0 fun x => { x with filled := true }) 0, ?_, ?_, ?_⟩
  · simp only [efsMount, hsb, bind, Except.bind, ← hst₀, hst₁, efsDRootInit, hst₂]
  · exact (hsb₂.trans hsb₁).trans (by rw [hst₀]; rfl)
  · exact hinode.trans hroot

end Format

/-- A file system that has just been mounted, with bitmaps that fit into their pages. -/
def Efs.Mounted (st : Efs) : Prop :=
  ∃ disk dev ipages bpages junk, MapsFit disk ∧ efsMount disk dev ipages bpages junk = .ok st

/-- After mount the root inode has one reference, and no other inode has any. -/
theorem Efs.Mounted.wf_refs {st : Efs} (h : st.Mounted) : st.Wf ∧ st.refs = Pi.single 0 1 := by
  obtain ⟨disk, dev, ipages, bpages, junk, -, h⟩ := h
  simp only [efsMount, bind_eq_ok] at h
  obtain ⟨sb, -, st₁, hroot, h⟩ := h
  obtain ⟨hinodes, hinode, -, hihash, -, hdhash⟩ := efsIRootInit_cases hroot
  simp only [efsDRootInit, bind_eq_ok] at h
  obtain ⟨st₂, hfill, h⟩ := h
  obtain rfl := Except.ok.inj h
  generalize hst : ({ st₁ with
    dentry := Function.update st₁.dentry 0 rootDentry, dentries := 1 } : Efs) = st₀ at hfill
  have hentries : st₀.dentries = 1 := by rw [← hst]
  have hentry : ∀ d < st₀.dentries, st₀.dentry d = rootDentry := by
    intro d hd
    obtain rfl : d = 0 := by omega
    rw [← hst]
    exact Function.update_self 0 rootDentry st₁.dentry
  have hwf : st₀.Wf := by
    refine ⟨by simp [← hst, hinodes], fun b i hi => ?_, fun b d hd => ?_, fun d hd i hi => ?_,
      fun d hd p hp => ?_, fun d hd c hc => ?_⟩
    · rw [← hst] at hi ⊢
      rw [hihash] at hi
      by_cases hb : b = 1
      · subst hb
        rw [Function.update_self] at hi
        simp only [Efs.blank, List.mem_singleton] at hi
        rw [hi, hinodes]
        exact Nat.one_pos
      · rw [Function.update_of_ne hb] at hi
        cases hi
    · rw [← hst, hdhash] at hd
      cases hd
    · rw [hentry d hd] at hi
      cases hi
    · rw [hentry d hd] at hp
      cases hp
    · rw [hentry d hd] at hc
      cases hc
  have hrefs : st₀.refs = Pi.single 0 1 := by
    funext i
    rw [Efs.refs, ← hst, hinodes]
    by_cases hi : i = 0
    · subst hi
      rw [if_pos Nat.one_pos, hinode, Pi.single_eq_same]
    · rw [if_neg (by omega), Pi.single_eq_of_ne hi]
  have hok : st₀.RefsOk := by
    intro i
    rw [hrefs]
    by_cases hi : i = 0
    · subst hi
      rw [Pi.single_eq_same]
      decide
    · rw [Pi.single_eq_of_ne hi]
      decide
  have hload : Loads Set.univ 0 st₀ st₂ :=
    (efsDFill_spec hwf hok (by omega) (Set.mem_univ 0)).of_eq_ok hfill
  have hset : Loads Set.univ 0 st₀ (st₂.modDentry 0 fun x => { x with filled := true }) :=
    hload.trans_zero (loads_modDentry hload.wf rfl rfl rfl)
  refine ⟨wf_efsDAddsb hset.wf hset.wf.root.2, ?_⟩
  rw [← hrefs, ← add_zero st₀.refs]
  exact hset.refs

end RiscvLab.Fs
