import RiscvLab.Fs.NameTree

/-!
# Consistent file systems

What the calls below assume of a file system, any part of which may be in memory. It is said of the
nodes of the tree of names, whether they are in memory or on the disk only: a node has a number, the
inode with this number is in the hash table or its record is on the disk, it has one link, and the
file of a directory has no holes. `efs_i_new` sets `i_nlink` to one, and there is no call that makes
a second link.

Reading the entries of a directory keeps a file system consistent, and what has been read before
stays in memory (`Efs.Consistent.load`). The nodes before and after are related by `FillRel`, and
each part of the consistency is carried over along this relation.

## Main definitions

* `Efs.InTree` : the nodes of the tree of names.
* `NodeOk`, `Efs.Consistent`
* `Kept` : what has been read stays in memory.

## Main results

* `Efs.Consistent.load` : `efs_d_fill` keeps a file system consistent.

Source: `fs/easyfs/dentry.c`, lines 96–136; `fs/easyfs/inode.c`, lines 330–359.
-/

namespace RiscvLab.Fs

open Library

variable {st st' st₁ : Efs} {d pd : ℕ} {x y : Node} {ds : List ℕ}

namespace Efs

/-- The nodes of the tree of names. -/
inductive InTree (st : Efs) : Node → Prop
  | root : InTree st (.mem 0)
  | kid {x y : Node} (hx : InTree st x) (hy : y ∈ st.kids x) : InTree st y

end Efs

/-- A node and its inode. -/
structure NodeOk (st : Efs) (x : Node) : Prop where
  number : 0 < (st.label x).1.toInt
  /-- If the inode is not in the hash table, it is on the disk. -/
  record : hashFindInode st (st.label x).1 = none →
    (DInode.read st.disk (inodeAddr st.sb.ds (st.label x).1)).no = (st.label x).1
  nlink : (st.inodeOf (st.label x).1).di.nlink = 1
  readable : st.IsDir x → st.Readable x

/-- A file system, of which any part may be in memory. Reference counts have room for one more. -/
structure Efs.Consistent (st : Efs) : Prop where
  wf : st.Wf
  refsOk : st.RefsOk
  root : (st.dentry 0).dd.ino = 1
  node : ∀ x, st.InTree x → NodeOk st x
  cached : ∀ d, st.InTree (.mem d) → ∀ i, (st.dentry d).inode = some i →
    hashFindInode st (st.dentry d).dd.ino = some i
  unfilled : ∀ d, st.InTree (.mem d) → (st.dentry d).filled = false → (st.dentry d).child = []

/-- The entries in memory stay, and those of a directory stay once they have been read. -/
structure Kept (st st' : Efs) : Prop where
  dentries : st.dentries ≤ st'.dentries
  dd : ∀ d < st.dentries, (st'.dentry d).dd = (st.dentry d).dd
  filled : ∀ d < st.dentries, (st.dentry d).filled = true →
    (st'.dentry d).filled = true ∧ (st'.dentry d).child = (st.dentry d).child

theorem Kept.refl : Kept st st := ⟨le_rfl, fun _ _ => rfl, fun _ _ h => ⟨h, rfl⟩⟩

theorem Kept.trans (h : Kept st st₁) (h' : Kept st₁ st') : Kept st st' where
  dentries := h.dentries.trans h'.dentries
  dd d hd := (h'.dd d (hd.trans_le h.dentries)).trans (h.dd d hd)
  filled d hd hfilled := by
    obtain ⟨hfilled₁, hchild₁⟩ := h.filled d hd hfilled
    obtain ⟨hfilled', hchild'⟩ := h'.filled d (hd.trans_le h.dentries) hfilled₁
    exact ⟨hfilled', hchild'.trans hchild₁⟩

theorem Efs.members_of_filled (h : (st.dentry d).filled = true) :
    st.members (.mem d) = (st.dentry d).child.map .mem := by
  rw [Efs.members, if_pos h]

theorem Efs.kids_subset : st.kids x ⊆ st.members x := by
  rw [Efs.kids]
  split
  · exact List.Subset.refl _
  · exact List.nil_subset _

theorem Efs.InTree.lt (hwf : st.Wf) (h : st.InTree x) : ∀ d, x = .mem d → d < st.dentries := by
  induction h with
  | root =>
    rintro _ ⟨⟩
    exact hwf.root.2
  | @kid x y _ hy ih =>
    rintro d rfl
    have hmem := Efs.kids_subset hy
    cases x with
    | mem e =>
      rw [Efs.members] at hmem
      split at hmem
      · obtain ⟨c, hc, heq⟩ := List.mem_map.1 hmem
        cases heq
        exact hwf.child e (ih e rfl) d hc
      · obtain ⟨e, -, heq⟩ := List.mem_map.1 hmem
        cases heq
    | disk e =>
      obtain ⟨e, -, heq⟩ := List.mem_map.1 hmem
      cases heq

/-! ### Reading the entries of a directory -/

namespace NodeSim

variable {R : Node → Node → Prop}

/-- The nodes of the trees correspond if their roots do. -/
theorem inTree (h : NodeSim R st st') (hroot : R (.mem 0) (.mem 0)) :
    (∀ y, st'.InTree y → ∃ x, st.InTree x ∧ R x y) ∧
      ∀ x, st.InTree x → ∃ y, st'.InTree y ∧ R x y := by
  constructor
  · intro y hy
    induction hy with
    | root => exact ⟨_, .root, hroot⟩
    | kid _ hz ih =>
      obtain ⟨x, hx, hxy⟩ := ih
      obtain ⟨w, hw, hwz⟩ := exists_of_forall₂ (h.kids hxy) hz
      exact ⟨w, hx.kid hw, hwz⟩
  · intro x hx
    induction hx with
    | root => exact ⟨_, .root, hroot⟩
    | kid _ hw ih =>
      obtain ⟨y, hy, hxy⟩ := ih
      obtain ⟨z, hz, hwz⟩ := exists_of_forall₂ (R := flip R) (h.kids hxy).flip hw
      exact ⟨z, hy.kid hz, hwz⟩

/-- What holds of a node holds of one that corresponds to it. -/
theorem nodeOk (h : NodeSim R st st') (hsame : Unchanged st st')
    (hknows : Knows st st') (hdisk : st'.disk = st.disk) (hxy : R x y) (hx : NodeOk st x) :
    NodeOk st' y := by
  have hlabel := h.label x y hxy
  refine ⟨hlabel ▸ hx.number, fun hnone => ?_, ?_, fun hdir => ?_⟩
  · rw [hlabel] at hnone ⊢
    rw [hdisk, hsame.sb]
    refine hx.record ?_
    cases hfind : hashFindInode st (st.label x).1 with
    | none => rfl
    | some i =>
      rw [hknows _ i hfind] at hnone
      cases hnone
  · rw [hlabel, (hsame.inodeOf _).di]
    exact hx.nlink
  · exact h.readable x y hxy (hx.readable ((h.isDir_iff hxy).1 hdir))

end NodeSim

/-- The entries of `d` are in memory. The file system means the same, and is consistent. -/
structure Loaded (st st' : Efs) (d : ℕ) : Prop where
  unchanged : Unchanged st st'
  consistent : st'.Consistent
  kept : Kept st st'
  filled : (st'.dentry d).filled = true
  inTree : st'.InTree (.mem d)
  sim : ∃ R, NodeSim R st st' ∧ R (.mem d) (.mem d)

theorem ReadIn.kept (h : ReadIn st st' pd ds) (hunfilled : (st.dentry pd).filled = false)
    (hle : st.dentries ≤ st'.dentries) : Kept st st' := by
  refine ⟨hle, fun d hd => ?_, fun d hd hfilled => ?_⟩
  · by_cases hpd : d = pd
    · rw [hpd, h.dd]
    · rw [h.other d hd hpd]
  · have hpd : d ≠ pd := by
      rintro rfl
      rw [hunfilled] at hfilled
      cases hfilled
    rw [h.other d hd hpd]
    exact ⟨hfilled, rfl⟩

/-- The entries of a node of the tree are read, which has not been done before. -/
theorem Efs.Consistent.fill (hst : st.Consistent) (hd : st.InTree (.mem d))
    (hread : st.Readable (.mem d)) (hfilled : (st.dentry d).filled = false) :
    ∃ st', efsDLoad st d = .ok st' ∧ Loaded st st' d := by
  have hlt := hd.lt hst.wf d rfl
  have hok := hst.node _ hd
  obtain ⟨st', ds, i, hload, hsame, hin, hknows, hinode, hfind⟩ := efsDLoad_unchanged hst.wf
    hst.refsOk hlt hfilled (hst.unfilled d hd hfilled) rfl hok.number hok.record (hread hfilled)
  have hloads := (efsDLoad_spec hst.wf hst.refsOk hlt (Set.mem_univ d)).of_eq_ok hload
  have hsim := hin.nodeSim hst.wf hfilled hloads.disk hsame.inodeOf
  obtain ⟨hnodes, hnodes'⟩ := hsim.inTree (.mem hst.wf.root.2)
  have hkept := hin.kept hfilled hloads.dentries
  refine ⟨st', hload, hsame, ⟨hloads.wf, ?_, ?_, fun y hy => ?_, fun e he j hj => ?_,
    fun e he hempty => ?_⟩, hkept, hin.filled, ?_, _, hsim, .mem hlt⟩
  · exact hst.refsOk.congr (by rw [hloads.refs, add_zero])
  · rw [hkept.dd 0 hst.wf.root.2]
    exact hst.root
  · obtain ⟨x, hx, hxy⟩ := hnodes y hy
    exact hsim.nodeOk hsame hknows hloads.disk hxy (hst.node x hx)
  · obtain ⟨x, hx, hxy⟩ := hnodes _ he
    cases hxy with
    | mem hlt' =>
      by_cases hed : e = d
      · subst hed
        rw [hinode] at hj
        rw [hin.dd, hfind, hj]
      · rw [hin.other e hlt' hed] at hj ⊢
        exact hknows _ j (hst.cached e hx j hj)
    | loaded hunread =>
      rw [hunread.2.1] at hj
      cases hj
  · obtain ⟨x, hx, hxy⟩ := hnodes _ he
    cases hxy with
    | mem hlt' =>
      by_cases hed : e = d
      · subst hed
        rw [hin.filled] at hempty
        cases hempty
      · rw [hin.other e hlt' hed] at hempty ⊢
        exact hst.unfilled e hx hempty
    | loaded hunread => exact hunread.2.2
  · obtain ⟨y, hy, hdy⟩ := hnodes' _ hd
    cases hdy
    exact hy

/-- The entries of a node of the tree that can be read are in memory after `efs_d_fill`, and a file
system that is consistent stays so. -/
theorem Efs.Consistent.load (hst : st.Consistent) (hd : st.InTree (.mem d))
    (hread : st.Readable (.mem d)) : ∃ st', efsDLoad st d = .ok st' ∧ Loaded st st' d := by
  by_cases hfilled : (st.dentry d).filled = true
  · refine ⟨st, by rw [efsDLoad, if_pos hfilled], .refl, hst, .refl, hfilled, hd, Eq, .refl, rfl⟩
  · exact hst.fill hd hread (Bool.eq_false_of_not_eq_true hfilled)

end RiscvLab.Fs
