import RiscvLab.Fs.Consistent
import RiscvLab.Fs.RunTree

/-!
# Runs are consistent

On a disk that has just been formatted and mounted, a run of calls and passes of `efs_sync`, in
which references to inodes are taken and given back, leads to consistent file systems
(`consistent_of_reachable`). The inodes of the tree of names are all in memory, and a directory
whose entries have not been read is empty, so that the nodes of the tree are the live entries.

A file is in use as long as there are references to its inode. `open` takes one by `efs_d_namei`,
and `close` gives it back by `efs_i_put`.

## Main definitions

* `UseEvent`, `UseStep` : runs in which references are held.

## Main results

* `efsSync_keeps` : a pass gives back the references that it takes.
* `consistent_of_reachable`

Source: `fs/easyfs/dentry.c`, lines 228–380; `fs/easyfs/inode.c`, lines 175–184 and 330–398;
`fs/easyfs/super.c`, lines 89–170.
-/

namespace RiscvLab.Fs

open Library

variable {st st' : Efs} {d i : ℕ}

/-! ### The references of a pass -/

section Pass

variable {pad : ℕ → BitVec 16}

theorem efsSyncSuper_keeps (h : st.Wf) : Keeps Set.univ 0 st (efsSyncSuper st) := by
  rw [efsSyncSuper]
  split
  · have hsb := keeps_setSb (I := Set.univ) { st.sb with dirty := false } h
    exact hsb.trans_zero (keeps_setDisk hsb.wf)
  · exact (Loads.refl (D := ∅) h).keeps

/-- The lists of what is to be written hold no references. -/
theorem keeps_setLists (h : st.Wf) (l l' : List ℕ) :
    Keeps Set.univ 0 st { st with idirty := l, ddirty := l' } :=
  ⟨⟨h.root, h.ihash, h.dhash, h.inode, h.parent, h.child⟩, le_rfl, le_rfl, (add_zero _).symm,
    fun _ _ _ => rfl⟩

theorem efsICdirty_keeps (h : st.Wf) : Keeps Set.univ 0 st (efsICdirty st i) := by
  have hmod : Grows i st (st.modInode i fun x => { x with dirty := false }) :=
    grows_modInode h rfl rfl
  exact (hmod.toKeeps.mono (Set.subset_univ _)).trans_zero (keeps_setLists hmod.wf _ _)

theorem efsDCdirty_keeps (h : st.Wf) : Keeps Set.univ 0 st (efsDCdirty st d) := by
  have hmod : Loads ∅ 0 st (st.modDentry d fun x => { x with dirty := false }) :=
    loads_modDentry h rfl rfl rfl
  exact hmod.keeps.trans_zero (keeps_setLists hmod.wf _ _)

theorem efsIUpdate_keeps {pad : BitVec 16} (h : st.Wf)
    (heq : efsIUpdate st i pad = .ok st') :
    Keeps Set.univ 0 st st' := by
  rw [efsIUpdate] at heq
  split at heq
  · cases heq
  · obtain rfl := Except.ok.inj heq
    exact keeps_setDisk h

theorem efsSyncInodes_keeps {l : List ℕ} (h : st.Wf) (heq : efsSyncInodes pad l st = .ok st') :
    Keeps Set.univ 0 st st' := by
  induction l generalizing st with
  | nil =>
    obtain rfl := Except.ok.inj heq
    exact (Loads.refl (D := ∅) h).keeps
  | cons i l ih =>
    rw [efsSyncInodes] at heq
    obtain ⟨st₁, hupdate, heq⟩ := bind_eq_ok.1 heq
    have hlist := keeps_setLists h l st.ddirty
    have hwrite := hlist.trans_zero (efsIUpdate_keeps hlist.wf hupdate)
    have hclean := hwrite.trans_zero (efsICdirty_keeps (i := i) hwrite.wf)
    exact hclean.trans_zero (ih hclean.wf heq)

theorem efsDUpdateLoop_keeps {ds : List ℕ} {offset : ℕ} (h : st.Wf)
    (heq : efsDUpdateLoop i ds offset st = .ok st') : Keeps Set.univ 0 st st' := by
  induction ds generalizing st offset with
  | nil =>
    obtain rfl := Except.ok.inj heq
    exact (Loads.refl (D := ∅) h).keeps
  | cons d ds ih =>
    rw [efsDUpdateLoop] at heq
    obtain ⟨⟨r, st₁⟩, hwrite, heq⟩ := bind_eq_ok.1 heq
    have hkeeps := ((efsIWrite_spec h).of_eq_ok hwrite).1.mono (Set.subset_univ _)
    exact hkeeps.trans_zero (ih hkeeps.wf heq)

theorem efsDUpdate_keeps (h : st.Wf) (hok : st.RefsOk) (hd : d < st.dentries)
    (heq : efsDUpdate st d = .ok st') : Keeps Set.univ 0 st st' := by
  obtain ⟨⟨i, st₁⟩, hcache, heq⟩ := bind_eq_ok.1 heq
  obtain ⟨-, hload⟩ := (efsDCache_spec h hok hd).of_eq_ok hcache
  exact hload.keeps.trans_zero (efsDUpdateLoop_keeps hload.wf heq)

theorem efsSyncDentries_refs {l : List ℕ} (h : st.Wf) (hok : st.RefsOk)
    (hl : ∀ d ∈ l, d < st.dentries) (heq : efsSyncDentries l st = .ok st') :
    Keeps Set.univ 0 st st' := by
  induction l generalizing st with
  | nil =>
    obtain rfl := Except.ok.inj heq
    exact (Loads.refl (D := ∅) h).keeps
  | cons d l ih =>
    rw [efsSyncDentries] at heq
    obtain ⟨st₁, hupdate, heq⟩ := bind_eq_ok.1 heq
    have hlist := keeps_setLists h st.idirty l
    have hwrite := hlist.trans_zero
      (efsDUpdate_keeps hlist.wf (hok.congr rfl) (hl d List.mem_cons_self) hupdate)
    have hclean := hwrite.trans_zero (efsDCdirty_keeps (d := d) hwrite.wf)
    refine hclean.trans_zero (ih hclean.wf (hok.congr ?_) (fun e he => ?_) heq)
    · rw [hclean.refs, add_zero]
    · exact (hl e (List.mem_cons_of_mem _ he)).trans_le hclean.dentries

/-- A pass of `efs_sync` gives back the references that it takes. Whatever it reads and writes, the
counters of the inodes in memory are the same afterwards. -/
theorem efsSync_keeps (hs : st.view.Sane) (h : st.Wf) (hok : st.RefsOk)
    (heq : efsSync st pad = .ok st') : Keeps Set.univ 0 st st' := by
  obtain ⟨st₁, hinodes, heq⟩ := bind_eq_ok.1 heq
  have hsuper := efsSyncSuper_keeps h
  have h₁ := hsuper.trans_zero (efsSyncInodes_keeps hsuper.wf hinodes)
  obtain ⟨-, -, hs₁⟩ := hs.syncInodes hinodes
  refine h₁.trans_zero (efsSyncDentries_refs h₁.wf (hok.congr ?_)
    (fun d hd => (hs₁.lists.inode d hd).1) heq)
  rw [h₁.refs, add_zero]

end Pass

/-! ### Runs -/

/-- A call or a pass, a reference that is taken to the inode of the entry `d`, or one to the inode
`i` that is given back. -/
inductive UseEvent
  | call (ev : FsEvent)
  | take (d : ℕ)
  | give (i : ℕ)

/-- Calls are for entries that can be reached from the root, and `efs_i_write` is not called for
directories. -/
def UseStep (st : Efs) : UseEvent → Efs → Prop
  | .call ev, st' => FilesOnly st ev ∧ FsStep st ev st'
  | .take d, st' => Live st d ∧ ∃ i, efsDInode st d = .ok (i, st')
  | .give i, st' => i < st.inodes ∧ efsIPut st i = .ok st'

/-- The next call can take a reference to any inode. -/
def UseOk (st : Efs) (_ : UseEvent) : Prop := st.RefsOk

theorem Live.lt_dentries (h : st.Wf) (hd : Live st d) : d < st.dentries := by
  induction hd with
  | root => exact h.root.2
  | child _ hc ih => exact h.child _ ih _ hc

/-- Every step keeps the directory tree sound and pointers in memory. -/
theorem UseStep.sane_wf {ev : UseEvent} (hs : st.view.Sane) (h : st.Wf) (hok : st.RefsOk)
    (hstep : UseStep st ev st') : st'.view.Sane ∧ st'.Wf := by
  cases ev with
  | call ev =>
    refine ⟨hs.step hstep.1 hstep.2, ?_⟩
    cases ev with
    | creat pd name type =>
      obtain ⟨-, hlive, r, heq⟩ := hstep
      exact (efsDCreat_keeps h hok (hlive.lt_dentries h) heq).wf
    | write d offset len vaddr =>
      obtain ⟨-, -, i, r, -, heq⟩ := hstep
      exact ((efsIWrite_spec h).of_eq_ok heq).1.wf
    | unlink d =>
      obtain ⟨-, hlive, heq⟩ := hstep
      exact ((efsDUnlink_spec h hok (hlive.lt_dentries h)).of_eq_ok heq).wf
    | rename d name =>
      obtain ⟨-, hlive, heq⟩ := hstep
      exact ((efsDRename_spec h hok (hlive.lt_dentries h)).of_eq_ok heq).wf
    | sync pad => exact (efsSync_keeps hs h hok hstep.2).wf
  | take d =>
    obtain ⟨hlive, i, heq⟩ := hstep
    have hd := hlive.linked_view hs.tree
    obtain ⟨hf, hv⟩ := find_efsDInode hs.tree hd heq
    obtain ⟨-, -, hload⟩ :=
      (efsDInode_spec h (hlive.lt_dentries h) (Set.mem_univ d)).of_eq_ok heq
    rw [hv]
    exact ⟨hs.load hd hf (by rintro ⟨⟩), hload.wf⟩
  | give i =>
    obtain ⟨hi, heq⟩ := hstep
    rw [view_efsIPut heq]
    refine ⟨hs, ?_⟩
    rw [efsIPut] at heq
    split at heq
    · obtain rfl := Except.ok.inj heq
      exact wf_modInode h
    · cases heq

/-! ### The tree of names in a run -/

section Tree

variable (hs : st.view.Sane)

include hs

/-- The inode of a live entry is in memory and has one link. A directory whose entries have not been
read has none. -/
theorem inode_of_live (hd : Live st d) : ∃ i, hashFindInode st (st.dentry d).dd.ino = some i ∧
    (st.inodeOf (st.dentry d).dd.ino).di.nlink = 1 ∧
      (st.IsDir (.mem d) → (st.dentry d).filled = false →
        (st.inodeOf (st.dentry d).dd.ino).di.size = 0) := by
  have hlinked := hd.linked_view hs.tree
  obtain ⟨i, hf, hsize⟩ := hs.tree.found d hlinked
  have hinodeOf : st.inodeOf (st.dentry d).dd.ino = st.inode i := by
    rw [Efs.inodeOf, show hashFindInode st (st.dentry d).dd.ino = some i from hf]
  rw [hinodeOf]
  refine ⟨i, hf, hs.nlink i ⟨d, hlinked, hf⟩, fun hdir hfilled => ?_⟩
  have htype : (st.dentry d).dd.type = .fDir := FileType.toWord_injective hdir
  exact (hs.seesDirs d i hlinked htype hf _ rfl).symm.trans (hsize hfilled)

/-- The nodes of the tree are the live entries. -/
theorem exists_live_of_inTree {x : Node} (hx : st.InTree x) : ∃ d, x = .mem d ∧ Live st d := by
  induction hx with
  | root => exact ⟨0, rfl, .root⟩
  | @kid x y _ hy ih =>
    obtain ⟨d, rfl, hd⟩ := ih
    rw [Efs.kids] at hy
    split at hy
    · next hdir =>
      rw [Efs.members] at hy
      split at hy
      · obtain ⟨c, hc, rfl⟩ := List.mem_map.1 hy
        exact ⟨c, rfl, hd.child hc⟩
      · -- a directory that has not been read is new and has no entries
        next hfilled =>
        obtain ⟨i, -, -, hsize⟩ := inode_of_live hs hd
        have hzero : st.listing (st.dentry d).dd.ino = [] := by
          rw [Efs.listing, MInode.length_file, hsize hdir (Bool.eq_false_of_not_eq_true hfilled)]
          rfl
        rw [hzero] at hy
        cases hy
    · cases hy

theorem Live.inTree (hd : Live st d) : st.InTree (.mem d) := by
  induction hd with
  | root => exact .root
  | @child p c hp hc ih =>
    have hplt := hs.tree.lt_dentries (hp.linked_view hs.tree)
    have hfilled : (st.dentry p).filled = true := hs.tree.filled_of_child hplt hc
    have hdir : st.IsDir (.mem p) := congrArg FileType.toWord (hs.tree.dir p hplt hfilled)
    refine ih.kid ?_
    rw [Efs.kids, if_pos hdir, Efs.members_of_filled hfilled]
    exact List.mem_map_of_mem hc

theorem toInt_ino_pos (hd : Live st d) : 0 < (st.dentry d).dd.ino.toInt := by
  have hlinked := hd.linked_view hs.tree
  by_cases hzero : d = 0
  · have hroot : (st.dentry 0).dd.ino = 1 := hs.numbered.root
    rw [hzero, hroot]
    decide
  · have hpos : 0 < (st.dentry d).dd.ino.toNat := hs.numbered.pos d hlinked
    have hle : ((st.dentry d).dd.ino.toNat : ℤ) ≤ _ := hs.tree.le d hlinked hzero
    have hbound := hs.tree.bound
    rw [BitVec.toInt_eq_toNat_of_lt (by omega)]
    omega

theorem View.Sane.consistent (h : st.Wf) (hok : st.RefsOk) : st.Consistent where
  wf := h
  refsOk := hok
  root := hs.numbered.root
  node x hx := by
    obtain ⟨d, rfl, hd⟩ := exists_live_of_inTree hs hx
    obtain ⟨i, hf, hnlink, hsize⟩ := inode_of_live hs hd
    refine ⟨toInt_ino_pos hs hd, fun hnone => ?_, hnlink, fun hdir hfilled l hl => ?_⟩
    · cases hf.symm.trans hnone
    · rw [hsize hdir hfilled] at hl
      exact absurd hl (Nat.not_lt_zero _)
  cached d hx i hi := by
    obtain ⟨e, heq, hd⟩ := exists_live_of_inTree hs hx
    cases heq
    have hlinked := hd.linked_view hs.tree
    exact (hs.tree.cached d (hs.tree.lt_dentries hlinked) i hi).2.1 hlinked
  unfilled d hx hfilled := by
    obtain ⟨e, heq, hd⟩ := exists_live_of_inTree hs hx
    cases heq
    exact hs.tree.unfilled d (hs.tree.lt_dentries (hd.linked_view hs.tree)) hfilled

end Tree

/-- The file system is consistent in every run from a fresh disk, as long as the reference counts
have room. -/
theorem consistent_of_reachable (h : Reachable Efs.Fresh (guarded UseOk UseStep) st)
    (hok : st.RefsOk) : st.Consistent ∧ ∀ d, Live st d → st.InTree (.mem d) := by
  have hinv : st.view.Sane ∧ st.Wf := by
    refine h.invariant (P := fun st => st.view.Sane ∧ st.Wf) ?_ ?_
    · rintro st ⟨disk, hfresh⟩
      obtain ⟨diskSize, ipages, bpages, hmounted⟩ := Efs.FreshOn.mounted hfresh
      obtain ⟨-, disk', dev, ipages, bpages, junk, -, hfits, hmount⟩ := hfresh
      exact ⟨hmounted.sane, (Efs.Mounted.wf_refs ⟨_, _, _, _, _, hfits, hmount⟩).1⟩
    · rintro st ev st' ⟨hs, h⟩ ⟨hok, hstep⟩
      exact hstep.sane_wf hs h hok
  exact ⟨hinv.1.consistent hinv.2 hok, fun d hd => hd.inTree hinv.1⟩

/-! ### Runs that are executed -/

theorem refsOk_iff : st.RefsOk ↔ ∀ i < st.inodes,
    0 ≤ (st.inode i).refcnt.toInt ∧ (st.inode i).refcnt.toInt < 2 ^ 31 - 1 := by
  refine forall_congr' fun i => ?_
  rw [Efs.refs]
  split
  · next hi => exact ⟨fun h _ => h, fun h => h hi⟩
  · next hi => exact ⟨fun _ h => absurd h hi, fun _ => by decide⟩

instance : Decidable st.RefsOk := decidable_of_iff' _ refsOk_iff

instance (st : Efs) : (ev : FsEvent) → Decidable (FilesOnly st ev)
  | .write .. => inferInstanceAs (Decidable (_ ≠ _))
  | .creat .. | .unlink .. | .rename .. | .sync .. => .isTrue trivial

/-- An event for the root directory or one of its entries is executed. -/
def UseEvent.exec (st : Efs) : UseEvent → Except Panic Efs
  | .call ev => if st.RefsOk ∧ FilesOnly st ev then ev.exec st else .error .null
  | .take d =>
    if st.RefsOk ∧ d ∈ (st.dentry 0).child then do
      let (_, st) ← efsDInode st d
      .ok st
    else .error .null
  | .give i => if st.RefsOk ∧ i < st.inodes then efsIPut st i else .error .null

theorem useStep_exec {ev : UseEvent} (h : ev.exec st = .ok st') :
    guarded UseOk UseStep st ev st' := by
  cases ev with
  | call ev =>
    rw [UseEvent.exec] at h
    split at h
    · next hok => exact ⟨hok.1, hok.2, fsStep_exec h⟩
    · cases h
  | take d =>
    rw [UseEvent.exec] at h
    split at h
    · next hok =>
      obtain ⟨⟨i, st₁⟩, hinode, h⟩ := bind_eq_ok.1 h
      obtain rfl := Except.ok.inj h
      exact ⟨hok.1, .child .root hok.2, i, hinode⟩
    · cases h
  | give i =>
    rw [UseEvent.exec] at h
    split at h
    · next hok => exact ⟨hok.1, hok.2, h⟩
    · cases h

end RiscvLab.Fs
