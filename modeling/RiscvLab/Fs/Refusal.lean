import RiscvLab.Fs.ConsistentRuns

/-!
# Deletions that are refused

`efs_d_unlink` refuses to delete a directory that is not empty, the root, and a file that is in use.
It finds out about the first after it has read the children of the directory, and about the last
after it has taken and given back a reference to the inode and has taken off a link. In each case
the file system means the same afterwards (`efsDUnlink_unchanged`).

A file in use is refused because the link is its last one: in a consistent file system every inode
has one link.

## Main definitions

* `Refusable` : the deletions that are refused.

## Main results

* `efsDUnlinkEmpty_unchanged` : the root and files in use are refused.
* `efsDUnlink_unchanged` : no deletion that is refused changes the file system.

Source: `fs/easyfs/dentry.c`, lines 313–360; `fs/easyfs/inode.c`, lines 175–184 and 362–398.
-/

namespace RiscvLab.Fs

open Library

variable {st st' : Efs} {i d : ℕ} {ino : BitVec 32}

/-- A directory that is not empty, the root, or a file in use. -/
def Refusable (st : Efs) (d : ℕ) : Prop :=
  ((st.dentry d).dd.type = .fDir ∧ st.kids (.mem d) ≠ []) ∨ d = 0 ∨
    0 < (st.inodeOf (st.dentry d).dd.ino).refcnt.toInt

/-! ### What is taken back -/

theorem modInode_modInode_cancel {f g : MInode → MInode} (h : g (f (st.inode i)) = st.inode i) :
    (st.modInode i f).modInode i g = st := by
  rw [Efs.modInode, Efs.modInode_inode_self, h]
  simp only [Efs.modInode, Function.update_idem, Function.update_eq_self]

theorem efsIPut_efsIDup (hi : i < st.inodes) (hok : st.RefsOk) :
    efsIPut (efsIDup st i) i = .ok st := by
  have hpos : 0 < ((efsIDup st i).inode i).refcnt.toInt := by
    have hrefs := hok i
    rw [Efs.refs, if_pos hi] at hrefs
    rw [efsIDup, Efs.modInode_inode_self, toInt_add_one (by omega)]
    omega
  rw [efsIPut, if_pos hpos, efsIDup, modInode_modInode_cancel]
  exact congrArg (fun r => { st.inode i with refcnt := r }) (BitVec.add_sub_cancel ..)

/-- The last link of a file in use is taken off and put back. -/
theorem efsIUnlink_refused (hlink : (st.inode i).di.nlink = 1)
    (href : 0 < (st.inode i).refcnt.toInt) : efsIUnlink st i = .ok (-1, st) := by
  rw [efsIUnlink]
  split
  · rfl
  · dsimp only
    have hzero : ((st.modDi i fun x => { x with nlink := x.nlink - 1 }).inode i).di.nlink = 0 := by
      rw [Efs.modDi, Efs.modInode_inode_self, hlink]
      rfl
    have href' : 0 <
        ((st.modDi i fun x => { x with nlink := x.nlink - 1 }).inode i).refcnt.toInt := by
      rw [Efs.modDi, Efs.modInode_inode_self]
      exact href
    rw [if_pos hzero, if_pos href', Efs.modDi, Efs.modDi, modInode_modInode_cancel]
    exact congrArg (fun n => { st.inode i with di := { (st.inode i).di with nlink := n } })
      (BitVec.sub_add_cancel ..)

theorem unchanged_setInode : Unchanged st (st.modDentry d fun x => { x with inode := some i }) := by
  have hinodeOf (ino : BitVec 32) := @SameMInode.refl st.disk (st.inodeOf ino)
  refine ⟨NodeSim.names ?_ rfl, hinodeOf, fun _ _ => .refl, le_rfl, rfl⟩
  refine nodeSim_of_dentry (show (st.modDentry d _).disk = st.disk from rfl) hinodeOf fun e => ?_
  by_cases he : e = d
  · subst he
    rw [Efs.modDentry_dentry_self]
    exact ⟨rfl, rfl, rfl⟩
  · rw [Efs.modDentry_dentry_of_ne he]
    exact ⟨rfl, rfl, rfl⟩

/-- `efs_d_unlink` of a file in use, once its inode has been found. -/
theorem efsDUnlinkEmpty_of_inode (hroot : (st.dentry d).dd.ino ≠ 1)
    (hinode : efsDInode st d = .ok (i, efsIDup st' i)) (hi : i < st'.inodes) (hok : st'.RefsOk)
    (hlink : (st'.inode i).di.nlink = 1) (href : 0 < (st'.inode i).refcnt.toInt) :
    efsDUnlinkEmpty st d = .ok st' := by
  simp only [efsDUnlinkEmpty, if_neg hroot, hinode, bind, Except.bind, efsIPut_efsIDup hi hok,
    efsIUnlink_refused hlink href]
  exact if_neg (by decide)

/-- `efs_d_unlink` of the root or of a file in use, behind the check for children. -/
theorem efsDUnlinkEmpty_unchanged (hst : st.Consistent) (hd : st.InTree (.mem d))
    (h : d = 0 ∨ 0 < (st.inodeOf (st.dentry d).dd.ino).refcnt.toInt) :
    ∃ st', efsDUnlinkEmpty st d = .ok st' ∧ Unchanged st st' := by
  by_cases hroot : (st.dentry d).dd.ino = 1
  · exact ⟨st, by rw [efsDUnlinkEmpty, if_pos hroot], .refl⟩
  have href := h.resolve_left fun h => hroot (h ▸ hst.root)
  have hok := hst.node _ hd
  have hlink : (st.inodeOf (st.dentry d).dd.ino).di.nlink = 1 := hok.nlink
  cases hinode : (st.dentry d).inode with
  | some i =>
    have hfind := hst.cached d hd i hinode
    have hinodeOf : st.inodeOf (st.dentry d).dd.ino = st.inode i := by
      simp only [Efs.inodeOf, hfind]
    rw [hinodeOf] at href hlink
    have hi := hst.wf.ihash _ i (List.mem_of_find?_eq_some hfind)
    exact ⟨st, efsDUnlinkEmpty_of_inode hroot (by rw [efsDInode, hinode]) hi hst.refsOk hlink href,
      .refl⟩
  | none =>
    obtain ⟨st₀, i, hfind, hi, hget, hsame, -, -, hok₀, -, -, -⟩ :=
      exists_inMemory hst.wf hst.refsOk hok.number hok.record
    have hinodeOf := hsame.inodeOf (st.dentry d).dd.ino
    have hfound : st₀.inodeOf (st.dentry d).dd.ino = st₀.inode i := by
      simp only [Efs.inodeOf]
      rw [show hashFindInode st₀ (st.dentry d).dd.ino = some i from hfind]
    rw [hfound] at hinodeOf
    have hget' : efsDInode st d =
        .ok (i, efsIDup (st₀.modDentry d fun x => { x with inode := some i }) i) := by
      have hget : efsIGet st (st.dentry d).dd.ino = .ok (i, efsIDup st₀ i) := hget
      rw [efsDInode, hinode]
      simp only [hget, bind, Except.bind]
      rfl
    refine ⟨_, efsDUnlinkEmpty_of_inode hroot hget' hi ?_ ?_ ?_, hsame.trans unchanged_setInode⟩
    · exact hok₀.congr rfl
    · rw [Efs.modDentry_inode, hinodeOf.di]
      exact hlink
    · rw [Efs.modDentry_inode, hinodeOf.refcnt]
      exact href

/-- In a consistent file system, a deletion that is refused changes nothing: neither the tree of
names nor an inode, wherever they are, nor the superblock with the bitmaps. It does not matter which
part of the file system has been read into memory before. -/
theorem efsDUnlink_unchanged (hst : st.Consistent) (hd : st.InTree (.mem d))
    (h : Refusable st d) : ∃ st', efsDUnlink st (some d) = .ok st' ∧ Unchanged st st' := by
  by_cases htype : (st.dentry d).dd.type = .fDir
  · -- the entries are read first, and only an empty directory gets to the second check
    have hdir : st.IsDir (.mem d) := congrArg FileType.toWord htype
    obtain ⟨st₁, hload, hloaded⟩ := hst.load hd ((hst.node _ hd).readable hdir)
    rw [efsDUnlink, if_pos htype, hload]
    simp only [bind, Except.bind]
    by_cases hchild : (st₁.dentry d).child = []
    · rw [if_neg (not_not.2 hchild)]
      obtain ⟨R, hsim, hR⟩ := hloaded.sim
      have hkids : st.kids (.mem d) = [] := by
        have hmembers := hsim.members _ _ hR
        rw [Efs.members_of_filled hloaded.filled, hchild, List.map_nil,
          List.forall₂_nil_right_iff] at hmembers
        rw [Efs.kids, if_pos hdir, hmembers]
      have hinodeOf := hloaded.unchanged.inodeOf (st.dentry d).dd.ino
      have hdd := hloaded.kept.dd d (hd.lt hst.wf d rfl)
      obtain ⟨st', heq, hsame⟩ := efsDUnlinkEmpty_unchanged hloaded.consistent hloaded.inTree
        (by rw [hdd, hinodeOf.refcnt]; exact h.resolve_left fun h => h.2 hkids)
      exact ⟨st', heq, hloaded.unchanged.trans hsame⟩
    · exact ⟨st₁, if_pos hchild, hloaded.unchanged⟩
  · rw [efsDUnlink, if_neg htype]
    exact efsDUnlinkEmpty_unchanged hst hd (h.resolve_left fun h => htype h.1)

/-- The file `a` is created, written to, written back and opened. Then it is not deleted. -/
theorem efsDUnlink_open_file : ∃ st st', Reachable Efs.Fresh (guarded UseOk UseStep) st ∧
    (st.dentry 0).child = [1] ∧ (st.inode 1).refcnt = 1 ∧
      efsDUnlink st (some 1) = .ok st' ∧ Unchanged st st' := by
  have hends : endsWith (List.foldlM UseEvent.exec · [.call (.creat 0 (cstr [97]) .fReg),
      .call (.write 1 0 3 fun _ => 7), .call (.sync fun _ => 0), .take 1])
      (fun st => (st.dentry 0).child = [1] ∧ (st.inode 1).refcnt = 1 ∧ st.RefsOk ∧
        0 < (st.inodeOf (st.dentry 1).dd.ino).refcnt.toInt) = true := by decide +kernel
  obtain ⟨st₀, st, hfresh, hrun, hend⟩ := exists_of_endsWith hends
  obtain ⟨hchild, href, hok, hopen⟩ := of_decide_eq_true hend
  have hreach : Reachable Efs.Fresh (guarded UseOk UseStep) st :=
    .foldlM (fun _ _ _ => useStep_exec) hrun (.start hfresh.fresh)
  obtain ⟨hst, hlive⟩ := consistent_of_reachable hreach hok
  have hd : st.InTree (.mem 1) := hlive 1 (.child .root (hchild ▸ List.mem_cons_self))
  obtain ⟨st', hunlink, hsame⟩ := efsDUnlink_unchanged hst hd (.inr (.inr hopen))
  exact ⟨st, st', hreach, hchild, href, hunlink, hsame⟩

end RiscvLab.Fs
