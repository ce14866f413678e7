import RiscvLab.Fs.DirCodec
import RiscvLab.Fs.DirTree
import RiscvLab.Library.Unfolding

/-!
# The tree of names

What a file system means, whether its parts are in memory or on the disk only. An inode is the one
that the hash table has for its number, or else the record on the disk. The children of a directory
are those in memory if they have been read, or else the entries in its file, decoded from its bytes.
The tree of names is the unfolding of this from the root, and a path leads to a node of it.

Reading an inode or the children of a directory into memory changes none of this
(`unchanged_withInode`, `efsDFill_unchanged`).

## Main definitions

* `Efs.inodeOf` : the inode with a number.
* `Efs.members` : the entries of a directory, or what the bytes of another file are read as.
* `Efs.names` : the tree of names.
* `Efs.lookup` : the node that a path names.
* `NodeSim` : the nodes of two file systems correspond.
* `Unchanged` : the tree, the inodes and the superblock are the same.

## Main results

* `efsDLoad_unchanged` : reading the entries of a directory leaves the tree as it is.
* `Unchanged.lookup` : a path names the same in a file system that means the same.
-/

namespace RiscvLab.Fs

open Library

variable {st st' st₁ : Efs} {i j d pd : ℕ} {ino : BitVec 32}

/-! ### Inodes by number -/

/-- The inode with the number `ino`, in memory or on the disk. -/
def Efs.inodeOf (st : Efs) (ino : BitVec 32) : MInode :=
  match hashFindInode st ino with
  | some i => st.inode i
  | none => ⟨.read st.disk (inodeAddr st.sb.ds ino), 0, false, true, none⟩

/-- The inodes have the same record, the same count of references and the same blocks. -/
structure SameMInode (disk disk' : Disk) (x x' : MInode) : Prop where
  di : x'.di = x.di
  refcnt : x'.refcnt = x.refcnt
  block : x'.block disk' = x.block disk

theorem SameMInode.refl {disk : Disk} {x : MInode} : SameMInode disk disk x x := ⟨rfl, rfl, rfl⟩

theorem SameMInode.trans {disk disk₁ disk' : Disk} {x x₁ x' : MInode}
    (h : SameMInode disk disk₁ x x₁) (h' : SameMInode disk₁ disk' x₁ x') :
    SameMInode disk disk' x x' :=
  ⟨h'.di.trans h.di, h'.refcnt.trans h.refcnt, h'.block.trans h.block⟩

theorem SameMInode.file {disk : Disk} {x x' : MInode} (h : SameMInode disk disk x x') :
    x'.file disk = x.file disk := by
  rw [MInode.file, MInode.file, h.di]
  refine slice_congr fun o _ => ?_
  rw [MInode.byte, MInode.byte, h.block]

/-! ### Names -/

/-- A directory or a file: its entry is in memory, or in the file of a directory only. -/
inductive Node
  | mem (d : ℕ)
  | disk (e : DirEntry)
  deriving DecidableEq

namespace Efs

/-- The entries in the file of the inode `ino`. -/
def listing (st : Efs) (ino : BitVec 32) : List DirEntry :=
  let file := (st.inodeOf ino).file st.disk
  fileEntries (file.length / direntSize) file

def label (st : Efs) : Node → DirEntry
  | .mem d => (st.dentry d).dd.entry
  | .disk e => e

/-- The entries of a node: those in memory once they have been read, or else those in its file. The
file of any node is read as an array of entries. -/
def members (st : Efs) : Node → List Node
  | .mem d =>
    if (st.dentry d).filled then (st.dentry d).child.map .mem
    else (st.listing (st.dentry d).dd.ino).map .disk
  | .disk e => (st.listing e.1).map .disk

/-- The type of the entry is `F_DIR`. -/
def IsDir (st : Efs) (x : Node) : Prop := (st.label x).2.1 = FileType.fDir.toWord

instance (st : Efs) (x : Node) : Decidable (st.IsDir x) := inferInstanceAs (Decidable (_ = _))

/-- The children of a directory. Other files have none. -/
def kids (st : Efs) (x : Node) : List Node := if st.IsDir x then st.members x else []

/-- The names below a node, with numbers and types, to the depth `n`. -/
def names (st : Efs) (n : ℕ) (x : Node) : RoseTree DirEntry := unfolding st.label st.kids n x

/-- The name of an entry, which ends before the first zero among its 16 bytes, consists of the first
16 bytes of `c`. -/
def hasName (c : List (BitVec 8)) (e : DirEntry) : Bool :=
  e.2.2.takeWhile (· ≠ 0) = c.take dirMaxlen

/-- The first of some nodes with the name `c`. -/
def named (st : Efs) (c : List (BitVec 8)) (xs : List Node) : Option Node :=
  xs.find? fun x => hasName c (st.label x)

/-- The node to which the components of a path lead from `x`: each of them names a child of the
directory before it. -/
def lookup (st : Efs) (x : Node) (cs : List (List (BitVec 8))) : Option Node :=
  descend st.label st.kids hasName x cs

@[simp]
theorem lookup_nil (st : Efs) (x : Node) : st.lookup x [] = some x := rfl

theorem lookup_cons (st : Efs) (x : Node) (c : List (BitVec 8)) (cs : List (List (BitVec 8))) :
    st.lookup x (c :: cs) = (st.named c (st.kids x)).bind fun y => st.lookup y cs := rfl

/-- The file of the inode `ino` has a block for each of its bytes. -/
def NoHoles (st : Efs) (ino : BitVec 32) : Prop :=
  ∀ l, l * blockSize < (st.inodeOf ino).di.size.toNat → (st.inodeOf ino).block st.disk l ≠ 0

/-- The entries of a node have been read, or its file has no holes. -/
def Readable (st : Efs) : Node → Prop
  | .mem d => (st.dentry d).filled = false → st.NoHoles (st.dentry d).dd.ino
  | .disk e => st.NoHoles e.1

end Efs

/-- `R` relates nodes of two file systems that have the same label, and entries that are related
again. -/
structure NodeSim (R : Node → Node → Prop) (st st' : Efs) : Prop where
  label : ∀ x y, R x y → st'.label y = st.label x
  readable : ∀ x y, R x y → st.Readable x → st'.Readable y
  members : ∀ x y, R x y → List.Forall₂ R (st.members x) (st'.members y)

namespace NodeSim

variable {R : Node → Node → Prop} {x y : Node}

theorem refl : NodeSim Eq st st := by
  refine ⟨?_, ?_, ?_⟩ <;> rintro x _ rfl
  · rfl
  · exact id
  · exact List.forall₂_same.2 fun _ _ => rfl

theorem isDir_iff (h : NodeSim R st st') (hxy : R x y) : st'.IsDir y ↔ st.IsDir x := by
  rw [Efs.IsDir, Efs.IsDir, h.label x y hxy]

theorem kids (h : NodeSim R st st') (hxy : R x y) :
    List.Forall₂ R (st.kids x) (st'.kids y) := by
  rw [Efs.kids, Efs.kids, if_congr (h.isDir_iff hxy) rfl rfl]
  split
  · exact h.members x y hxy
  · exact .nil

/-- Related nodes have the same names below them. -/
theorem names (h : NodeSim R st st') (hxy : R x y) (n : ℕ) : st'.names n y = st.names n x :=
  unfolding_eq_of_sim h.label (fun _ _ => h.kids) hxy n

end NodeSim

/-- The file system means the same. -/
structure Unchanged (st st' : Efs) : Prop where
  names : ∀ n, st'.names n (.mem 0) = st.names n (.mem 0)
  inodeOf : ∀ ino, SameMInode st.disk st'.disk (st.inodeOf ino) (st'.inodeOf ino)
  /-- So are the inodes in memory that have lost their number. -/
  inode : ∀ i < st.inodes, SameMInode st.disk st'.disk (st.inode i) (st'.inode i)
  inodes : st.inodes ≤ st'.inodes
  sb : st'.sb = st.sb

namespace Unchanged

theorem refl : Unchanged st st :=
  ⟨fun _ => rfl, fun _ => .refl, fun _ _ => .refl, le_rfl, rfl⟩

theorem trans (h : Unchanged st st₁) (h' : Unchanged st₁ st') : Unchanged st st' :=
  ⟨fun n => (h'.names n).trans (h.names n), fun ino => (h.inodeOf ino).trans (h'.inodeOf ino),
    fun i hi => (h.inode i hi).trans (h'.inode i (hi.trans_le h.inodes)),
    h.inodes.trans h'.inodes, h'.sb.trans h.sb⟩

/-- A path names the same entry before and after. The entry may have been on the disk before and be
in memory now, so that labels are compared and not nodes. -/
theorem lookup (h : Unchanged st st') (cs : List (List (BitVec 8))) :
    (st'.lookup (.mem 0) cs).map st'.label = (st.lookup (.mem 0) cs).map st.label :=
  map_label_descend h.names cs

end Unchanged

section Names

variable (hdisk : st'.disk = st.disk)
  (hinodeOf : ∀ ino, SameMInode st.disk st'.disk (st.inodeOf ino) (st'.inodeOf ino))

include hdisk hinodeOf

theorem listing_eq (ino : BitVec 32) : st'.listing ino = st.listing ino := by
  have hfile := hinodeOf ino
  rw [hdisk] at hfile
  rw [Efs.listing, Efs.listing, hdisk, hfile.file]

theorem noHoles_iff (ino : BitVec 32) : st'.NoHoles ino ↔ st.NoHoles ino := by
  have hinode := hinodeOf ino
  rw [hdisk] at hinode
  rw [Efs.NoHoles, Efs.NoHoles, hinode.di, hdisk, hinode.block]

/-- The names do not depend on other parts of an entry in memory. -/
theorem nodeSim_of_dentry (hdentry : ∀ d, (st'.dentry d).dd = (st.dentry d).dd ∧
    (st'.dentry d).filled = (st.dentry d).filled ∧ (st'.dentry d).child = (st.dentry d).child) :
    NodeSim Eq st st' := by
  have hlisting := listing_eq hdisk hinodeOf
  have hholes := noHoles_iff hdisk hinodeOf
  refine ⟨?_, ?_, ?_⟩ <;> rintro (d | e) _ rfl
  · rw [Efs.label, Efs.label, (hdentry d).1]
  · rfl
  · rw [Efs.Readable, Efs.Readable, (hdentry d).1, (hdentry d).2.1, hholes]
    exact id
  · exact (hholes e.1).2
  · obtain ⟨hdd, hfilled, hchild⟩ := hdentry d
    rw [Efs.members, Efs.members, hdd, hfilled, hchild, hlisting]
    exact List.forall₂_same.2 fun _ _ => rfl
  · rw [Efs.members, Efs.members, hlisting]
    exact List.forall₂_same.2 fun _ _ => rfl

end Names

/-! ### Reading into memory -/

/-- The hash table after an inode has been read. -/
theorem hashFindInode_withInode (hwf : st.Wf)
    (hrecord : (DInode.read st.disk (inodeAddr st.sb.ds ino)).no = ino) (ino' : BitVec 32) :
    hashFindInode (st.withInode ino) ino' =
      if ino' = ino then some st.inodes else hashFindInode st ino' := by
  have hnew : ((st.withInode ino).inode st.inodes).di.no = ino := by
    simp only [Efs.withInode, Function.update_self, hrecord]
  have hold : (st.ihash (ino'.toNat % buckets)).find?
      (fun i => ((st.withInode ino).inode i).di.no = ino') = hashFindInode st ino' := by
    refine List.find?_congr fun i hi => ?_
    have hne : i ≠ st.inodes := (hwf.ihash _ i hi).ne
    simp only [Efs.withInode, Function.update_of_ne hne]
  by_cases hb : ino'.toNat % buckets = ino.toNat % buckets
  · have hbucket : (st.withInode ino).ihash (ino'.toNat % buckets) =
        st.inodes :: st.ihash (ino'.toNat % buckets) := by
      rw [hb]
      exact Function.update_self ..
    rw [hashFindInode, hbucket]
    by_cases heq : ino' = ino
    · rw [List.find?_cons_of_pos (by rw [hnew, heq]; simp), if_pos heq]
    · rw [List.find?_cons_of_neg (by rw [hnew]; simpa using fun h => heq h.symm), if_neg heq, hold]
  · have hbucket : (st.withInode ino).ihash (ino'.toNat % buckets) =
        st.ihash (ino'.toNat % buckets) := Function.update_of_ne hb ..
    rw [hashFindInode, hbucket, hold, if_neg fun heq => hb (by rw [heq])]

theorem unchanged_withInode (hwf : st.Wf) (hfind : hashFindInode st ino = none)
    (hrecord : (DInode.read st.disk (inodeAddr st.sb.ds ino)).no = ino) :
    Unchanged st (st.withInode ino) := by
  have hold (i : ℕ) (hi : i < st.inodes) : (st.withInode ino).inode i = st.inode i :=
    Function.update_of_ne hi.ne ..
  have hnew : (st.withInode ino).inode st.inodes =
      ⟨.read st.disk (inodeAddr st.sb.ds ino), 0, false, true, none⟩ := Function.update_self ..
  have hfind' := hashFindInode_withInode hwf hrecord
  have hinodeOf (ino' : BitVec 32) : (st.withInode ino).inodeOf ino' = st.inodeOf ino' := by
    by_cases heq : ino' = ino
    · subst heq
      simp only [Efs.inodeOf, hfind', if_true, hnew, hfind]
    · simp only [Efs.inodeOf, hfind', if_neg heq]
      cases hfind' : hashFindInode st ino' with
      | none => rfl
      | some i => exact hold i (hwf.ihash _ i (List.mem_of_find?_eq_some hfind'))
  have hsame (ino' : BitVec 32) : SameMInode st.disk (st.withInode ino).disk (st.inodeOf ino')
      ((st.withInode ino).inodeOf ino') := by
    rw [hinodeOf]
    exact .refl
  have hdisk : (st.withInode ino).disk = st.disk := rfl
  refine ⟨(nodeSim_of_dentry hdisk hsame fun _ => ⟨rfl, rfl, rfl⟩).names rfl, hsame,
    fun i hi => ?_, Nat.le_succ _, rfl⟩
  rw [hold i hi]
  exact .refl

/-- Nodes before and after the children of an entry have been read. -/
inductive FillRel (st st' : Efs) : Node → Node → Prop
  | mem {d : ℕ} (hd : d < st.dentries) : FillRel st st' (.mem d) (.mem d)
  | disk (e : DirEntry) : FillRel st st' (.disk e) (.disk e)
  | loaded {d : ℕ} (hunread : (st'.dentry d).Unread) :
    FillRel st st' (.disk (st'.dentry d).dd.entry) (.mem d)

section Fill

variable {ds : List ℕ}

/-- The children of `pd` have been read. -/
structure ReadIn (st st' : Efs) (pd : ℕ) (ds : List ℕ) : Prop where
  other : ∀ e < st.dentries, e ≠ pd → st'.dentry e = st.dentry e
  dd : (st'.dentry pd).dd = (st.dentry pd).dd
  filled : (st'.dentry pd).filled = true
  child : (st'.dentry pd).child = ds
  fresh : ∀ d ∈ ds, (st'.dentry d).Unread
  entries : ds.map (fun d => (st'.dentry d).dd.entry) = st.listing (st.dentry pd).dd.ino

theorem ReadIn.label_eq (h : ReadIn st st' pd ds) {x y : Node} (hxy : FillRel st st' x y) :
    st'.label y = st.label x := by
  cases hxy with
  | @mem d hd =>
    by_cases hpd : d = pd
    · rw [Efs.label, Efs.label, hpd, h.dd]
    · rw [Efs.label, Efs.label, h.other d hd hpd]
  | disk e => rfl
  | loaded => rfl

theorem forall₂_disk (es : List DirEntry) :
    List.Forall₂ (FillRel st st') (es.map .disk) (es.map .disk) := by
  rw [List.forall₂_map_left_iff, List.forall₂_map_right_iff, List.forall₂_same]
  exact fun e _ => .disk e

theorem ReadIn.members_eq (h : ReadIn st st' pd ds) (hwf : st.Wf)
    (hunfilled : (st.dentry pd).filled = false)
    (hlisting : ∀ ino, st'.listing ino = st.listing ino) {x y : Node}
    (hxy : FillRel st st' x y) :
    List.Forall₂ (FillRel st st') (st.members x) (st'.members y) := by
  cases hxy with
  | @mem d hd =>
    by_cases hpd : d = pd
    · subst hpd
      rw [Efs.members, Efs.members, h.filled, hunfilled, h.child, ← h.entries]
      simp only [if_true, Bool.false_eq_true, if_false, List.forall₂_map_left_iff,
        List.forall₂_map_right_iff, List.map_map, List.forall₂_same]
      exact fun c hc => .loaded (h.fresh c hc)
    · rw [Efs.members, Efs.members, h.other d hd hpd, hlisting]
      split
      · rw [List.forall₂_map_left_iff, List.forall₂_map_right_iff, List.forall₂_same]
        exact fun c hc => .mem (hwf.child d hd c hc)
      · exact forall₂_disk _
  | disk e =>
    rw [Efs.members, Efs.members, hlisting]
    exact forall₂_disk _
  | @loaded d hunread =>
    rw [Efs.members, Efs.members, hunread.1, hlisting]
    exact forall₂_disk _

theorem ReadIn.readable (h : ReadIn st st' pd ds)
    (hholes : ∀ ino, st'.NoHoles ino ↔ st.NoHoles ino) {x y : Node} (hxy : FillRel st st' x y)
    (hx : st.Readable x) : st'.Readable y := by
  cases hxy with
  | @mem d hd =>
    intro hfilled
    rw [hholes]
    by_cases hpd : d = pd
    · subst hpd
      rw [h.filled] at hfilled
      cases hfilled
    · rw [h.other d hd hpd] at hfilled ⊢
      exact hx hfilled
  | disk e => exact (hholes _).2 hx
  | loaded hunread => exact fun _ => (hholes _).2 hx

/-- Reading the children of an entry leaves the names as they are. -/
theorem ReadIn.nodeSim (h : ReadIn st st' pd ds) (hwf : st.Wf)
    (hunfilled : (st.dentry pd).filled = false) (hdisk : st'.disk = st.disk)
    (hinodeOf : ∀ ino, SameMInode st.disk st'.disk (st.inodeOf ino) (st'.inodeOf ino)) :
    NodeSim (FillRel st st') st st' where
  label _ _ hxy := h.label_eq hxy
  readable _ _ hxy := h.readable (noHoles_iff hdisk hinodeOf) hxy
  members _ _ hxy := h.members_eq hwf hunfilled (listing_eq hdisk hinodeOf) hxy

end Fill

/-! ### Inodes in memory -/

/-- Inodes are found by their numbers as before if they have changed in memory only. -/
theorem sameMInode_inodeOf (hdisk : st'.disk = st.disk) (hsb : st'.sb = st.sb)
    (hihash : st'.ihash = st.ihash)
    (hinode : ∀ j, SameMInode st.disk st'.disk (st.inode j) (st'.inode j)) (ino : BitVec 32) :
    SameMInode st.disk st'.disk (st.inodeOf ino) (st'.inodeOf ino) := by
  have hfind := hashFindInode_congr hihash (fun j => congrArg DInode.no (hinode j).di) ino
  simp only [Efs.inodeOf, hfind]
  cases hashFindInode st ino with
  | none =>
    rw [hdisk, hsb]
    exact .refl
  | some i => exact hinode i

/-- The inodes that the hash table has are still found there. -/
def Knows (st st' : Efs) : Prop :=
  ∀ ino i, hashFindInode st ino = some i → hashFindInode st' ino = some i

/-- `efs_i_get` returns the inode, with one reference more, in a state that has it in memory. -/
theorem exists_inMemory (hwf : st.Wf) (hok : st.RefsOk) (hnumber : 0 < ino.toInt)
    (hrecord : hashFindInode st ino = none →
      (DInode.read st.disk (inodeAddr st.sb.ds ino)).no = ino) :
    ∃ st₀ i, hashFindInode st₀ ino = some i ∧ i < st₀.inodes ∧
      efsIGet st ino = .ok (i, efsIDup st₀ i) ∧ Unchanged st st₀ ∧ Knows st st₀ ∧ st₀.Wf ∧
        st₀.RefsOk ∧ st₀.disk = st.disk ∧ st₀.dentry = st.dentry ∧ st₀.dentries = st.dentries := by
  cases hfind : hashFindInode st ino with
  | some i =>
    exact ⟨st, i, hfind, hwf.ihash _ i (List.mem_of_find?_eq_some hfind),
      efsIGet_of_find hnumber.le hfind, .refl, fun _ _ => id, hwf, hok, rfl, rfl, rfl⟩
  | none =>
    have hloads : Loads ∅ 0 st (st.withInode ino) := withInode_loads hwf
    have hfind' : hashFindInode (st.withInode ino) ino = some st.inodes := by
      rw [hashFindInode_withInode hwf (hrecord hfind), if_pos rfl]
    refine ⟨st.withInode ino, st.inodes, hfind', Nat.lt_succ_self _, efsIGet_of_none hfind hnumber,
      unchanged_withInode hwf hfind (hrecord hfind), fun ino' j hj => ?_, hloads.wf, ?_, rfl, rfl,
      rfl⟩
    · rw [hashFindInode_withInode hwf (hrecord hfind), if_neg, hj]
      rintro rfl
      rw [hfind] at hj
      cases hj
    · exact hok.congr (by rw [hloads.refs, add_zero])

/-! ### Reading the children of a directory -/

/-- An inode whose reference has been taken and given back, and whose indirect block may have been
read in between. -/
theorem sameMInode_of_filled {ds : List ℕ} {es : List DirEntry}
    (h : Filled ((efsIDup st i).modDentry pd fun x => { x with inode := some i }) st₁ pd ds es)
    (j : ℕ) : SameMInode st.disk st₁.disk (st.inode j)
      ((st₁.modInode i fun x => { x with refcnt := x.refcnt - 1 }).inode j) := by
  have hdisk : st₁.disk = st.disk := h.frame.disk
  have hframe := h.frame.inode j
  rw [hdisk]
  by_cases hj : j = i
  · subst hj
    rw [Efs.modInode_inode_self]
    rw [Efs.modDentry_inode, efsIDup, Efs.modInode_inode_self] at hframe
    rcases hframe with h | ⟨-, h⟩ <;> rw [h] <;> exact ⟨rfl, BitVec.add_sub_cancel .., rfl⟩
  · rw [Efs.modInode_inode_of_ne hj]
    rw [Efs.modDentry_inode, efsIDup, Efs.modInode_inode_of_ne hj] at hframe
    rcases hframe with h | ⟨-, h⟩ <;> rw [h] <;> exact ⟨rfl, rfl, rfl⟩

/-- The children of an entry, once its inode has been found and its flag has been set. -/
theorem readIn_of_filled {ds : List ℕ} (hpd : pd < st.dentries) (hchild : (st.dentry pd).child = [])
    (h : Filled ((efsIDup st i).modDentry pd fun x => { x with inode := some i }) st₁ pd ds
      (st.listing (st.dentry pd).dd.ino))
    (hst' : st' = ((st₁.modInode i fun x => { x with refcnt := x.refcnt - 1 }).modDentry pd
      fun x => { x with filled := true })) :
    ReadIn st st' pd ds ∧ (st'.dentry pd).inode = some i := by
  have hself : st'.dentry pd =
      { st.dentry pd with inode := some i, child := ds, filled := true } := by
    rw [hst', Efs.modDentry_dentry_self, Efs.modInode_dentry, h.self, Efs.modDentry_dentry_self]
    simp only [efsIDup, Efs.modInode_dentry, hchild, List.nil_append]
  have hother (e : ℕ) (hne : e ≠ pd) : st'.dentry e = st₁.dentry e := by
    rw [hst', Efs.modDentry_dentry_of_ne hne, Efs.modInode_dentry]
  have hfresh (d : ℕ) (hd : d ∈ ds) : d ≠ pd := by
    obtain ⟨hle, -⟩ := h.fresh d hd
    exact (hpd.trans_le hle).ne'
  refine ⟨⟨fun e he hne => ?_, by rw [hself], by rw [hself], by rw [hself], fun d hd => ?_, ?_⟩,
    by rw [hself]⟩
  · rw [hother e hne, h.other e he hne, Efs.modDentry_dentry_of_ne hne]
    rfl
  · rw [hother d (hfresh d hd)]
    exact (h.fresh d hd).2.2
  · rw [← h.entries]
    exact List.map_congr_left fun d hd => by rw [hother d (hfresh d hd)]

section Load

variable (hwf : st.Wf) (hok : st.RefsOk) (hpd : pd < st.dentries)
  (hunfilled : (st.dentry pd).filled = false) (hchild : (st.dentry pd).child = [])
  (hino : (st.dentry pd).dd.ino = ino) (hnumber : 0 < ino.toInt)

include hwf hok hpd hunfilled hchild hino hnumber

/-- `efs_d_fill` of an entry whose inode is in memory, and the flag that is set behind it. -/
theorem efsDFill_unchanged (hfind : hashFindInode st ino = some i)
    (hholes : ∀ l, l * blockSize < (st.inode i).di.size.toNat → st.block i l ≠ 0) :
    ∃ st₁ st' ds, efsDFill st pd = .ok st₁ ∧
      st' = (st₁.modDentry pd fun x => { x with filled := true }) ∧ Unchanged st st' ∧
        ReadIn st st' pd ds ∧ (st'.dentry pd).inode = some i ∧ Knows st st' := by
  have hi : i < st.inodes := hwf.ihash _ i (List.mem_of_find?_eq_some hfind)
  have hrefcnt : (st.inode i).refcnt.toNat < 2 ^ 31 - 1 := by
    have hrefs := hok i
    rw [Efs.refs, if_pos hi, BitVec.toInt_eq_toNat_cond] at hrefs
    split at hrefs <;> omega
  have hholds : Holds st i 0 (st.file i) := ⟨hholes, by rw [Nat.zero_mul, List.drop_zero]⟩
  obtain ⟨st₁, ds, hfill, hfilled⟩ := efsDFill_of_find hpd hino hfind (by omega) hrefcnt hholds
    MInode.length_file.symm
  have hlisting : st.listing (st.dentry pd).dd.ino =
      fileEntries ((st.file i).length / direntSize) (st.file i) := by
    simp only [hino, Efs.listing, Efs.inodeOf, hfind]
    rfl
  rw [← hlisting] at hfilled
  refine ⟨_, _, ds, hfill, rfl, ?_⟩
  generalize hst' : ((st₁.modInode i fun x => { x with refcnt := x.refcnt - 1 }).modDentry pd
    fun x => { x with filled := true }) = st'
  obtain ⟨hread, hinodeSome⟩ := readIn_of_filled hpd hchild hfilled hst'.symm
  have hdisk : st'.disk = st.disk := by
    rw [← hst']
    exact hfilled.frame.disk
  have hsb : st'.sb = st.sb := by
    rw [← hst']
    exact hfilled.frame.sb
  have hihash : st'.ihash = st.ihash := by
    rw [← hst']
    exact hfilled.ihash
  have hinodes : st'.inodes = st.inodes := by
    rw [← hst']
    exact hfilled.frame.inodes
  have hinode (j : ℕ) : SameMInode st.disk st'.disk (st.inode j) (st'.inode j) := by
    rw [← hst']
    exact sameMInode_of_filled hfilled j
  have hinodeOf := sameMInode_inodeOf hdisk hsb hihash hinode
  refine ⟨⟨(hread.nodeSim hwf hunfilled hdisk hinodeOf).names (.mem hwf.root.2), hinodeOf,
    fun j _ => hinode j, hinodes.ge, hsb⟩, hread, hinodeSome, fun ino' j hj => ?_⟩
  rw [hashFindInode_congr hihash fun j => congrArg DInode.no (hinode j).di, hj]

/-- The children of an entry are read when they are needed first. The call returns, and the tree of
the names is the same, since the entries were its nodes before they were read. -/
theorem efsDLoad_unchanged (hrecord : hashFindInode st ino = none →
      (DInode.read st.disk (inodeAddr st.sb.ds ino)).no = ino)
    (hholes : st.NoHoles ino) :
    ∃ st' ds i, efsDLoad st pd = .ok st' ∧ Unchanged st st' ∧ ReadIn st st' pd ds ∧
      Knows st st' ∧ (st'.dentry pd).inode = some i ∧ hashFindInode st' ino = some i := by
  obtain ⟨st₀, i, hfind, -, hget, hsame, hknows, hwf₀, hok₀, hdisk, hdentry, hdentries⟩ :=
    exists_inMemory hwf hok hnumber hrecord
  have hinodeOf : st₀.inodeOf ino = st₀.inode i := by simp only [Efs.inodeOf, hfind]
  have hi := hsame.inodeOf ino
  rw [hinodeOf] at hi
  obtain ⟨st₁, st', ds, hfill, rfl, hsame', hread, hinode, hknows'⟩ := efsDFill_unchanged hwf₀ hok₀
    (hdentries ▸ hpd) (hdentry ▸ hunfilled) (hdentry ▸ hchild) (hdentry ▸ hino) hnumber hfind
    (by rw [hi.di, Efs.block, hi.block]; exact hholes)
  refine ⟨_, ds, i, ?_, hsame.trans hsame', ?_, fun ino j hj => hknows' _ _ (hknows ino j hj),
    hinode, hknows' ino i hfind⟩
  · have heq : efsDFill st pd = efsDFill st₀ pd := by
      rw [efsDFill, efsDFill, hdentry, hino, hget, efsIGet_of_find hnumber.le hfind]
    rw [efsDLoad, if_neg (by simp [hunfilled]), heq, hfill]
    rfl
  · refine ⟨fun e he hne => ?_, ?_, hread.filled, hread.child, hread.fresh, ?_⟩
    · rw [hread.other e (hdentries ▸ he) hne, hdentry]
    · rw [hread.dd, hdentry]
    · rw [hread.entries, hdentry, listing_eq hdisk hsame.inodeOf]

end Load

end RiscvLab.Fs
