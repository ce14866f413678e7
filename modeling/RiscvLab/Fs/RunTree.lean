import RiscvLab.Fs.Sync

/-!
# The directory tree in runs with write-back

The calls and the passes of a run keep the directory tree sound. Of the sizes, only those of
directories are part of the tree: a directory is written by `efs_d_update` only, which does not
change its size. The lists of what is to be written back have no member twice, and the inode of a
directory on `s_ddirty_list` is recorded, so that `efs_d_update` finds it.

## Main definitions

* `View.LiveInode` : the inodes of the entries of the tree.
* `View.Sane` : the tree is sound, the types of inodes and entries agree, the inodes have one link
  and numbers that are not zero, and the lists fit.
* `KeptByWrites` : what the writes of a pass keep.

## Main results

* `View.Sane.step` : every step of a run keeps a file system sane.
* `KeptByWrites.efsSyncDentries` : the rule for the loop over `s_ddirty_list`.

Source: `fs/easyfs/super.c`, lines 89–170; `fs/easyfs/dentry.c`, lines 119–136 and 268–380.
-/

namespace RiscvLab.Fs

open Library Relation

/-! ### The directory tree -/

/-- What is seen of the size of an inode: the sizes of files are hidden. -/
def dirSize (x : DInode) : BitVec 32 := if x.type = .fDir then x.size else 0

theorem sizeView_dirSize : SizeView dirSize where
  congr x y htype hsize := by rw [dirSize, dirSize, htype, hsize]
  zero x hx := by
    rw [dirSize, hx]
    exact ite_self _

namespace View

/-- The members of `s_idirty_list` and `s_ddirty_list` are different, and the inodes of the latter
are recorded. -/
structure Lists (v : View) : Prop where
  known : ∀ i ∈ v.idirty, i < v.inodes
  idirty : v.idirty.Nodup
  ddirty : v.ddirty.Nodup
  inode : ∀ d ∈ v.ddirty, d < v.dentries ∧ (v.entry d).inode.isSome

/-- The inode of an entry that is the root or the child of some entry. -/
def LiveInode (v : View) (i : ℕ) : Prop :=
  ∃ d, (v.tree dirSize).Linked d ∧ v.find (v.ino d) = some i

/-- The root has the number 1, and zero is not given out. -/
structure Numbered (v : View) : Prop where
  root : v.ino 0 = 1
  pos : ∀ d, (v.tree dirSize).Linked d → 0 < (v.ino d).toNat
  hint : 0 < v.sb.imap.allocation

/-- The directory tree is sound, where the sizes of files are left out, and so are the numbers and
the lists. The inodes of the tree have one link: `efs_i_new` sets `i_nlink` to one, and no call adds
a link. -/
structure Sane (v : View) : Prop where
  tree : (v.tree dirSize).Inv
  types : ∀ d i, (v.tree dirSize).Linked d → v.find (v.ino d) = some i →
    (v.di i).type = (v.entry d).dd.type
  nlink : ∀ i, v.LiveInode i → (v.di i).nlink = 1
  numbered : v.Numbered
  lists : v.Lists

variable {v v' : View} {d i j p pi k s e : ℕ}

theorem Sane.seesDirs (h : v.Sane) : v.SeesDirs dirSize := by
  intro d i hd hdir hf x hx
  rw [h.types d i hd hf, hdir] at hx
  exact if_pos hx

theorem Sane.size_eq (h : v.Sane) (hd : d < v.dentries) (hchild : (v.entry d).child ≠ [])
    (hinode : (v.entry d).inode = some i) : v.find (v.ino d) = some i ∧
      (v.tree dirSize).Linked d ∧ (v.di i).size.toNat = (v.entry d).child.length * direntSize := by
  have hlinked := h.tree.linked d hd hchild
  have hf : v.find (v.ino d) = some i := (h.tree.cached d hd i hinode).2.1 hlinked
  have hfilled : (v.entry d).filled = true := by
    by_contra hne
    exact hchild (h.tree.unfilled d hd (Bool.eq_false_of_not_eq_true hne))
  obtain ⟨j, hj, hsize⟩ := h.tree.sized d hd hfilled
  obtain rfl := Option.some.inj (hinode.symm.trans hj)
  have hseen := h.seesDirs d i hlinked (h.tree.dir d hd hfilled) hf (v.di i) rfl
  refine ⟨hf, hlinked, ?_⟩
  rw [← hseen, Nat.mul_comm]
  exact hsize

theorem Sane.length_child_le (h : v.Sane) (hd : d < v.dentries) :
    (v.entry d).child.length * direntSize ≤ maxFileSize := by
  have hle : (v.entry d).child.length ≤ 2 ^ 15 + 1 := h.tree.length_child_le hd
  simp only [maxFileSize, blockSize, nDirect, nIndirect, direntSize]
  omega

/-! ### Live inodes -/

theorem LiveInode.lt (h : v.LiveInode i) (hI : (v.tree dirSize).Inv) : i < v.inodes := by
  obtain ⟨d, -, hf⟩ := h
  exact hI.find_lt hf

theorem ino_load {full : Bool} : (v.load d i full).ino e = v.ino e := by
  rw [ino, ino, (load_entry full e).1]

/-! ### A new entry -/

/-- An entry for a new inode with the number `k` is made in the directory `p`, whose inode is
`pi`. -/
structure Enters (v : View) (p pi k : ℕ) (sb : Super) : Prop where
  sane : v.Sane
  linked : (v.tree dirSize).Linked p
  inode : (v.entry p).inode = some pi
  seen : v.Seen dirSize pi
  alloc : efsImapAlloc v.sb = .ok ((k : ℤ), sb)

section Create

variable {sb : Super} {type : FileType} {name : ℕ → BitVec 8}

theorem di_create_new (hpi : pi < v.inodes) : (v.create p pi k sb type name).di v.inodes =
    ⟨BitVec.ofNat 32 k, type, v.dev, 0, fun _ => 0, 1⟩ := by
  have hne : v.inodes ≠ pi := hpi.ne'
  simp [create, enter, addEntry, View.iSdirty, modDi, addInode, View.dSdirty, hne]

theorem di_create_of_ne (hj : j ≠ v.inodes) : (v.create p pi k sb type name).di j =
    { v.di j with size := if j = pi then (v.di j).size + 24 else (v.di j).size } := by
  by_cases hjpi : j = pi
  · subst hjpi
    simp [create, enter, addEntry, View.iSdirty, modDi, addInode, View.dSdirty, hj]
  · simp [create, enter, addEntry, View.iSdirty, modDi, addInode, View.dSdirty, hj, hjpi]

private theorem entry_create_eq : (v.create p pi k sb type name).entry =
    ((v.tree DInode.size).create p pi k type name).entry := by
  have hno : ((v.addInode k sb).di v.inodes).no = BitVec.ofNat 32 k := by simp [addInode]
  rw [create, enter, hno]
  rfl

theorem entry_create_new (hp : p < v.dentries) : (v.create p pi k sb type name).entry v.dentries =
    ⟨⟨BitVec.ofNat 32 k, type, name⟩, none, some p, [], false, false⟩ := by
  rw [entry_create_eq]
  exact Tree.create_entry_new hp

theorem entry_create (he : e < v.dentries) : (v.create p pi k sb type name).entry e =
    { v.entry e with
      child := if e = p then (v.entry e).child ++ [v.dentries] else (v.entry e).child } := by
  rw [entry_create_eq]
  exact Tree.create_entry he

namespace Enters

variable (h : v.Enters p pi k sb)

include h

theorem lt : p < v.dentries := h.sane.tree.lt_dentries h.linked

theorem inode_lt : pi < v.inodes := (h.sane.tree.cached p h.lt pi h.inode).1

theorem number : v.sb.imap.test k = false ∧ (k : ℤ) ≤ v.sb.imap.size ∧
    sb.imap = v.sb.imap.grab k ∧ v.sb.imap.allocation ≤ k := by
  obtain ⟨k', hk', hnumber⟩ := efsImapAlloc_cases h.alloc
  obtain rfl := Int.ofNat.inj hk'
  exact hnumber

theorem toNat_number : (BitVec.ofNat 32 k).toNat = k := by
  have hbound : v.sb.imap.size ≤ 2 ^ 15 := h.sane.tree.bound
  have hle := h.number.2.1
  rw [BitVec.toNat_ofNat, Nat.mod_eq_of_lt (by omega)]

theorem tree_eq : (v.create p pi k sb type name).tree dirSize =
    (v.tree dirSize).create p pi k type name :=
  tree_create sizeView_dirSize h.inode_lt h.seen h.number.2.2.1

/-- The entries of the tree are the old ones, with their inodes, and the new one. -/
theorem cases (he : ((v.create p pi k sb type name).tree dirSize).Linked e)
    (hf : (v.create p pi k sb type name).find ((v.create p pi k sb type name).ino e) = some i) :
    (v.tree dirSize).Linked e ∧ v.find (v.ino e) = some i ∨ e = v.dentries ∧ i = v.inodes := by
  obtain ⟨hclear, hle, -, -⟩ := h.number
  have hf' : ((v.tree dirSize).create p pi k type name).find
      (((v.tree dirSize).create p pi k type name).ino e) = some i := by
    rw [← h.tree_eq]
    exact hf
  rw [h.tree_eq, Tree.linked_create h.lt] at he
  rcases he with he | rfl
  · rw [h.sane.tree.find_create_ino hclear hle he] at hf'
    exact .inl ⟨he, hf'⟩
  · rw [h.sane.tree.find_create_new hle h.lt] at hf'
    exact .inr ⟨rfl, (Option.some.inj hf').symm⟩

theorem liveInode :
    (v.create p pi k sb type name).LiveInode j ↔ v.LiveInode j ∨ j = v.inodes := by
  obtain ⟨hclear, hle, -, -⟩ := h.number
  constructor
  · rintro ⟨e, he, hf⟩
    exact (h.cases he hf).imp (fun hold => ⟨e, hold⟩) And.right
  · have hlive (e : ℕ) (he : ((v.tree dirSize).create p pi k type name).Linked e)
        (hf : ((v.tree dirSize).create p pi k type name).find
          (((v.tree dirSize).create p pi k type name).ino e) = some j) :
        (v.create p pi k sb type name).LiveInode j := by
      rw [← h.tree_eq] at he hf
      exact ⟨e, he, hf⟩
    rintro (⟨e, he, hf⟩ | rfl)
    · refine hlive e ((Tree.linked_create h.lt).2 (.inl he)) ?_
      rw [h.sane.tree.find_create_ino hclear hle he]
      exact hf
    · exact hlive _ ((Tree.linked_create h.lt).2 (.inr rfl))
        (h.sane.tree.find_create_new hle h.lt)

theorem numbered : (v.create p pi k sb type name).Numbered := by
  obtain ⟨-, -, himap, hhint⟩ := h.number
  refine ⟨?_, fun e he => ?_, ?_⟩
  · rw [ino, entry_create h.sane.tree.pos]
    exact h.sane.numbered.root
  · rw [h.tree_eq, Tree.linked_create h.lt] at he
    rcases he with he | rfl
    · rw [ino, entry_create (h.sane.tree.lt_dentries he)]
      exact h.sane.numbered.pos e he
    · have hpos := h.sane.numbered.hint
      change 0 < ((v.create p pi k sb type name).ino v.dentries).toNat
      rw [ino, entry_create_new h.lt, h.toNat_number]
      omega
  · change 0 < sb.imap.allocation
    rw [himap, Bitmap.grab_allocation]
    exact Nat.succ_pos _

end Enters

end Create

/-! ### Views with the same entries and numbers -/

/-- The tree but for the sizes is the same, and no entry is linked that was not. -/
structure Same (v v' : View) : Prop where
  linked : ∀ e, (v'.tree dirSize).Linked e → (v.tree dirSize).Linked e
  ino : ∀ e, v'.ino e = v.ino e
  kind : ∀ e, (v'.entry e).dd.type = (v.entry e).dd.type
  ihash : v'.ihash = v.ihash
  no : ∀ j, (v'.di j).no = (v.di j).no
  type : ∀ j, (v'.di j).type = (v.di j).type

theorem Same.find (h : v.Same v') : v'.find = v.find := by
  funext ino
  simp only [View.find, h.ihash, h.no]

theorem Same.types (h : v.Same v') (hs : v.Sane) (d i : ℕ) (hd : (v'.tree dirSize).Linked d)
    (hf : v'.find (v'.ino d) = some i) : (v'.di i).type = (v'.entry d).dd.type := by
  rw [h.find, h.ino] at hf
  rw [h.type, h.kind]
  exact hs.types d i (h.linked d hd) hf

theorem Same.liveInode (h : v.Same v') (hj : v'.LiveInode j) : v.LiveInode j := by
  obtain ⟨d, hd, hf⟩ := hj
  rw [h.find, h.ino] at hf
  exact ⟨d, h.linked d hd, hf⟩

theorem Same.numbered (h : v.Same v') (hn : v.Numbered) (hhint : 0 < v'.sb.imap.allocation) :
    v'.Numbered :=
  ⟨(h.ino 0).trans hn.root, fun d hd => (h.ino d).symm ▸ hn.pos d (h.linked d hd), hhint⟩

theorem Same.sane (h : v.Same v') (hs : v.Sane) (htree : (v'.tree dirSize).Inv)
    (hnlink : ∀ j, (v'.di j).nlink = (v.di j).nlink) (himap : v'.sb.imap = v.sb.imap)
    (hlists : v'.Lists) : v'.Sane where
  tree := htree
  types := h.types hs
  nlink j hj := (hnlink j).trans (hs.nlink j (h.liveInode hj))
  numbered := h.numbered hs.numbered (himap ▸ hs.numbered.hint)
  lists := hlists

theorem Same.liveInode_of (h : v.Same v')
    (hlinked : ∀ e, (v.tree dirSize).Linked e → (v'.tree dirSize).Linked e) (hj : v.LiveInode j) :
    v'.LiveInode j := by
  obtain ⟨d, hd, hf⟩ := hj
  refine ⟨d, hlinked d hd, ?_⟩
  rw [h.find, h.ino]
  exact hf

theorem same_load {full : Bool} : v.Same (v.load d i full) where
  linked e he := by
    rw [tree_load, Tree.linked_load] at he
    exact he
  ino _ := ino_load
  kind e := by rw [(load_entry full e).1]
  ihash := rfl
  no _ := rfl
  type _ := rfl

theorem Same.refl : v.Same v :=
  ⟨fun _ he => he, fun _ => rfl, fun _ => rfl, rfl, fun _ => rfl, fun _ => rfl⟩

theorem same_rest {disk : Disk} {sb : Super} {idirty ddirty : List ℕ} :
    v.Same { v with disk := disk, sb := sb, idirty := idirty, ddirty := ddirty } :=
  ⟨fun _ he => he, fun _ => rfl, fun _ => rfl, rfl, fun _ => rfl, fun _ => rfl⟩

theorem Same.trans {v₁ : View} (h : v.Same v₁) (h' : v₁.Same v') : v.Same v' where
  linked e he := h.linked e (h'.linked e he)
  ino e := (h'.ino e).trans (h.ino e)
  kind e := (h'.kind e).trans (h.kind e)
  ihash := h'.ihash.trans h.ihash
  no j := (h'.no j).trans (h.no j)
  type j := (h'.type j).trans (h.type j)

theorem same_modDi {f : DInode → DInode} (hno : (f (v.di i)).no = (v.di i).no)
    (htype : (f (v.di i)).type = (v.di i).type) : v.Same (v.modDi i f) :=
  ⟨fun _ he => he, fun _ => rfl, fun _ => rfl, rfl, modDi_congr DInode.no hno,
    modDi_congr DInode.type htype⟩

theorem same_remove : v.Same (v.remove d p pi) := by
  have hmod : (v.modEntry p fun x => { x with child := x.child.erase d }).Same
      (v.remove d p pi) := by
    have h := same_modDi (v := v.modEntry p fun x => { x with child := x.child.erase d })
      (i := pi) (f := fun x => { x with size := x.size - 24 }) rfl rfl
    exact { h with }
  have hentry (e : ℕ) : ((v.remove d p pi).entry e).dd = (v.entry e).dd ∧
      ((v.remove d p pi).entry e).child ⊆ (v.entry e).child := by
    by_cases he : e = p
    · subst he
      simp only [remove, modEntry, modDi, dSdirty, Function.update_self]
      exact ⟨trivial, List.erase_subset⟩
    · simp only [remove, modEntry, modDi, dSdirty, Function.update_of_ne he]
      exact ⟨trivial, List.Subset.refl _⟩
  refine ⟨?_, fun e => ?_, fun e => ?_, rfl, hmod.no, hmod.type⟩
  · rintro e (rfl | ⟨q, hq, he⟩)
    · exact .inl rfl
    · exact .inr ⟨q, hq, (hentry q).2 he⟩
  · rw [ino, ino, (hentry e).1]
  · rw [(hentry e).1]

theorem same_release {sb : Super} : v.Same (v.release i sb) :=
  { same_modDi (v := v) (i := i) (f := fun x => { x with nlink := x.nlink - 1, size := 0 })
      rfl rfl with }

theorem same_released {sb : Super} : v.Same ((v.release i sb).remove d p pi) :=
  same_release.trans same_remove

/-- The entry `d` is removed from the directory `p`, whose inode is `pi`, and its inode `i` is given
up. -/
structure Releases (v : View) (d i p pi : ℕ) (sb sb' : Super) : Prop where
  sane : v.Sane
  find : v.find (v.ino d) = some i
  parent : p < v.dentries
  mem : d ∈ (v.entry p).child
  inode : (v.entry p).inode = some pi
  empty : (v.entry d).child = []
  frees : FreesBlocks v i sb
  imap : efsImapFree sb (v.di i).no.toInt = .ok sb'

namespace Releases

variable {sb sb' : Super} (h : v.Releases d i p pi sb sb')

include h

theorem linked : (v.tree dirSize).Linked d := .inr ⟨p, h.parent, h.mem⟩

theorem live : v.LiveInode i := ⟨d, h.linked, h.find⟩

theorem imap_eq : sb'.imap = v.sb.imap.drop (v.di i).no.toNat := by
  rw [efsImapFree_cases h.imap, h.frees.imap]

/-- An inode that is given up is not live any more. -/
theorem liveInode : ((v.release i sb').remove d p pi).LiveInode j ↔ v.LiveInode j ∧ j ≠ i := by
  have hsame : v.Same ((v.release i sb').remove d p pi) := same_released
  have hremove (e : ℕ) : ((v.tree dirSize).remove d p pi).Linked e ↔
      (v.tree dirSize).Linked e ∧ e ≠ d := h.sane.tree.linked_remove h.parent h.mem
  constructor
  · rintro ⟨e, he, hfe⟩
    rw [hsame.find, hsame.ino] at hfe
    obtain ⟨he', hne⟩ := (hremove e).1 he
    refine ⟨⟨e, he', hfe⟩, ?_⟩
    rintro rfl
    exact hne (h.sane.tree.eq_of_find he' h.linked hfe h.find)
  · rintro ⟨⟨e, he, hfe⟩, hji⟩
    refine ⟨e, (hremove e).2 ⟨he, ?_⟩, ?_⟩
    · rintro rfl
      exact hji (Option.some.inj (hfe.symm.trans h.find))
    · rw [hsame.find, hsame.ino]
      exact hfe

end Releases

theorem rename_entry {name : ℕ → BitVec 8} (e : ℕ) :
    (((v.load d i false).rename d name).entry e).inode = ((v.load d i false).entry e).inode ∧
      (((v.load d i false).rename d name).entry e).child = (v.entry e).child ∧
        (((v.load d i false).rename d name).entry e).dd =
          if e = d then { (v.entry e).dd with name := name } else (v.entry e).dd := by
  by_cases he : e = d
  · subst he
    simp [View.rename, View.load, modEntry]
  · simp [View.rename, View.load, modEntry, he]

theorem same_of_renames (h : v.Renames d v') : v.Same v' := by
  cases h with
  | same => exact .refl
  | @rename i p name hf hp hd hname =>
    refine ⟨?_, fun e => ?_, fun e => ?_, rfl, fun _ => rfl, fun _ => rfl⟩
    · rintro e (rfl | ⟨q, hq, he⟩)
      · exact .inl rfl
      · exact .inr ⟨q, hq, (rename_entry q).2.1 ▸ he⟩
    · rw [ino, ino, (rename_entry e).2.2]
      split <;> rfl
    · rw [(rename_entry e).2.2]
      split <;> rfl

theorem liveInode_of_renames (h : v.Renames d v') (hj : v.LiveInode j) : v'.LiveInode j := by
  have hsame := same_of_renames h
  cases h with
  | same => exact hj
  | @rename i p name hf hp hd hname =>
    refine hsame.liveInode_of ?_ hj
    rintro e (rfl | ⟨q, hq, he⟩)
    · exact .inl rfl
    · exact .inr ⟨q, hq, (rename_entry q).2.1.symm ▸ he⟩

theorem FileFrame.same (h : FileFrame i v v') : v.Same v' where
  linked e he := by
    rcases he with rfl | ⟨q, hq, he⟩
    · exact .inl rfl
    · have hq' : q < v.dentries := h.dentries ▸ hq
      have he' : e ∈ (v.entry q).child := h.entry ▸ he
      exact .inr ⟨q, hq', he'⟩
  ino e := by rw [ino, ino, h.entry]
  kind e := by rw [h.entry]
  ihash := h.ihash
  no := h.no
  type := h.type

/-- A write changes neither the entries nor the numbers of the inodes. -/
theorem FileFrame.liveInode (h : FileFrame i v v') : v'.LiveInode j ↔ v.LiveInode j := by
  refine ⟨h.same.liveInode, h.same.liveInode_of fun d hd => ?_⟩
  rcases hd with rfl | ⟨q, hq, he⟩
  · exact .inl rfl
  · have hq' : q < v'.dentries := h.dentries.symm ▸ hq
    have he' : d ∈ (v'.entry q).child := h.entry.symm ▸ he
    exact .inr ⟨q, hq', he'⟩

/-! ### The lists -/

namespace Lists

variable (h : v.Lists)

include h

/-- The inode of the first directory on the list is recorded. -/
theorem head {l : List ℕ} (hl : v.ddirty = d :: l) : d < v.dentries ∧ (v.entry d).inode.isSome :=
  h.inode d (hl ▸ List.mem_cons_self)

theorem load {full : Bool} : (v.load d i full).Lists := by
  refine ⟨h.known, h.idirty, h.ddirty, fun e he => ⟨(h.inode e he).1, ?_⟩⟩
  by_cases hed : e = d
  · subst hed
    simp [View.load, modEntry]
  · rw [load_entry_of_ne hed]
    exact (h.inode e he).2

theorem iSdirty (hi : i < v.inodes) : (v.iSdirty i).Lists := by
  refine ⟨fun j hj => ?_, h.idirty.insert, h.ddirty, h.inode⟩
  rcases List.mem_insert_iff.1 hj with rfl | hj
  · exact hi
  · exact h.known j hj

theorem dSdirty (hd : d < v.dentries) (hinode : (v.entry d).inode = some i) :
    (v.dSdirty d).Lists := by
  refine ⟨h.known, h.idirty, h.ddirty.insert, fun e he => ?_⟩
  rcases List.mem_insert_iff.1 he with rfl | he
  · exact ⟨hd, Option.isSome_of_mem hinode⟩
  · exact h.inode e he

theorem modEntry {f : Dentry → Dentry} (hf : (f (v.entry d)).inode = (v.entry d).inode) :
    (v.modEntry d f).Lists := by
  refine ⟨h.known, h.idirty, h.ddirty, fun e he => ⟨(h.inode e he).1, ?_⟩⟩
  have hsome := (h.inode e he).2
  by_cases hed : e = d
  · subst hed
    simpa [View.modEntry, hf] using hsome
  · simpa [View.modEntry, hed] using hsome

theorem remove (hp : p < v.dentries) (hpi : (v.entry p).inode = some pi) :
    (v.remove d p pi).Lists := by
  have h₁ : (v.modEntry p fun x => { x with child := x.child.erase d }).Lists := h.modEntry rfl
  refine dSdirty (v := (v.modEntry p fun x => { x with child := x.child.erase d }).modDi pi _)
    (i := pi) { h₁ with } hp ?_
  simp [modDi, View.modEntry, hpi]

theorem release {sb : Super} (hi : i < v.inodes) : (v.release i sb).Lists :=
  { iSdirty (v := v.modDi i fun x => { x with nlink := x.nlink - 1, size := 0 }) { h with }
      hi with }

theorem create {sb : Super} {type : FileType} {name : ℕ → BitVec 8} (hp : p < v.dentries)
    (hpi : (v.entry p).inode = some pi) : (v.create p pi k sb type name).Lists := by
  have hne : p ≠ v.dentries := hp.ne
  have hadd : (v.addInode k sb).Lists := by
    have h' : { v.addInode k sb with idirty := v.idirty }.Lists :=
      ⟨fun j hj => Nat.lt_succ_of_lt (h.known j hj), h.idirty, h.ddirty, h.inode⟩
    exact h'.iSdirty (Nat.lt_succ_self _)
  have htype : (((v.addInode k sb).modDi v.inodes fun x => { x with type := type }).iSdirty
      v.inodes).Lists :=
    iSdirty (v := (v.addInode k sb).modDi v.inodes fun x => { x with type := type })
      { hadd with } (Nat.lt_succ_self _)
  rw [View.create, enter]
  refine dSdirty (i := pi) ⟨htype.known, htype.idirty, htype.ddirty, fun e he => ?_⟩
    (Nat.lt_succ_of_lt hp) ?_
  · have hlt : e < v.dentries := (h.inode e he).1
    refine ⟨Nat.lt_succ_of_lt hlt, ?_⟩
    by_cases hep : e = p
    · subst hep
      simp [addEntry, View.iSdirty, modDi, addInode, hpi]
    · have := (h.inode e he).2
      simpa [addEntry, View.iSdirty, modDi, addInode, hep, hlt.ne] using this
  · simp [addEntry, View.iSdirty, modDi, addInode, hpi]

end Lists

theorem Lists.of_fileFrame (h : v.Lists) (hframe : FileFrame i v v')
    (hidirty : v'.idirty = v.idirty) : v'.Lists := by
  refine ⟨fun j hj => ?_, hidirty ▸ h.idirty, hframe.ddirty ▸ h.ddirty, fun e he => ?_⟩
  · rw [hframe.inodes]
    exact h.known j (hidirty ▸ hj)
  · rw [hframe.dentries, hframe.entry]
    exact h.inode e (hframe.ddirty ▸ he)

/-! ### The calls keep a file system sane -/

theorem Sane.load {full : Bool} (hs : v.Sane) (hd : (v.tree dirSize).Linked d)
    (hf : v.find (v.ino d) = some i) (hfull : full = true → (v.entry d).dd.type = .fDir) :
    (v.load d i full).Sane :=
  same_load.sane hs (hs.tree.load hd hf hfull) (fun _ => rfl) rfl hs.lists.load

theorem di_remove (j : ℕ) : (v.remove d p pi).di j =
    { v.di j with size := if j = pi then (v.di j).size - 24 else (v.di j).size } := by
  by_cases hj : j = pi
  · subst hj
    simp [remove, modEntry, modDi, View.dSdirty]
  · simp [remove, modEntry, modDi, View.dSdirty, hj]

theorem di_release_of_ne {sb : Super} (hj : j ≠ i) : (v.release i sb).di j = v.di j :=
  Function.update_of_ne hj ..

section

variable (hs : v.Sane) (hd : (v.tree dirSize).Linked d)

include hs hd

/-- Of the ways to remove an entry, a sane file system leaves the one that gives up the inode. -/
theorem Removes.cases (h : v.Removes d v') :
    v' = v ∨ ∃ i full, v.find (v.ino d) = some i ∧ (v' = v.load d i full ∨
      ∃ p pi sb sb', (v.load d i full).Releases d i p pi sb sb' ∧
        v' = ((v.load d i full).release i sb').remove d p pi) := by
  cases h with
  | same => exact .inl rfl
  | @load i full hfull hf => exact .inr ⟨i, full, hf, .inl rfl⟩
  | @unlink i p pi full hfull hf hp hdp hpi hempty hlink =>
    exact absurd (hs.nlink i ⟨d, hd, hf⟩) hlink
  | @release i p pi full sb sb' hfull hf hp hdp hpi hempty hfree himap =>
    have hpd : p ≠ d := by
      rintro rfl
      rw [hempty] at hdp
      cases hdp
    have hentry : (v.load d i full).entry p = v.entry p := load_entry_of_ne hpd
    refine .inr ⟨i, full, hf, .inr ⟨p, pi, sb, sb', ⟨hs.load hd hf hfull, ?_, hp, ?_, ?_, ?_, hfree,
      himap⟩, rfl⟩⟩
    · rwa [ino_load]
    · rwa [hentry]
    · rwa [hentry]
    · rwa [(load_entry full d).2.1]

theorem Sane.removes (h : v.Removes d v') : v'.Sane := by
  have htree := h.inv sizeView_dirSize hs.tree hs.seesDirs hd
  obtain rfl | ⟨i, full, hf, rfl | ⟨p, pi, sb, sb', hr, rfl⟩⟩ := h.cases hs hd
  · exact hs
  · exact same_load.sane hs htree (fun _ => rfl) rfl hs.lists.load
  · have hlists := hr.sane.lists
    refine ⟨htree, same_released.types hr.sane, fun j hj => ?_,
      same_released.numbered hr.sane.numbered ?_, ?_⟩
    · obtain ⟨hj, hji⟩ := hr.liveInode.1 hj
      rw [di_remove, di_release_of_ne hji]
      exact hr.sane.nlink j hj
    · have hino := (Tree.find_mem (t := (v.load d i full).tree dirSize) hr.find).2
      have hpos := hr.sane.numbered.pos d hr.linked
      have hhint := hr.sane.numbered.hint
      rw [← show _ = (v.load d i full).ino d from hino] at hpos
      change 0 < sb'.imap.allocation
      rw [hr.imap_eq, Bitmap.drop_allocation]
      exact lt_min hhint hpos
    · exact (hlists.release (hr.sane.tree.find_lt hr.find)).remove hr.parent hr.inode

theorem Sane.renames (h : v.Renames d v') : v'.Sane := by
  have htree := h.inv hs.tree hd
  have hsame := same_of_renames h
  cases h with
  | same => exact hs
  | rename hf hp hd hname =>
    exact hsame.sane hs htree (fun _ => rfl) rfl (hs.lists.load.modEntry rfl)

/-- An entry is made after the directory has been read. -/
theorem Creates.cases {type : FileType} (h : v.Creates d type v') :
    v' = v ∨ ∃ pi, v.find (v.ino d) = some pi ∧ (v' = v.load d pi true ∨
      ∃ k sb name, (v.load d pi true).Enters d pi k sb ∧
        v' = (v.load d pi true).create d pi k sb type name) := by
  cases h with
  | same => exact .inl rfl
  | @load pi hdir hf => exact .inr ⟨pi, hf, .inl rfl⟩
  | @create pi k sb name hdir hf halloc hname =>
    refine .inr ⟨pi, hf, .inr ⟨k, sb, name, ⟨hs.load hd hf fun _ => hdir, Tree.linked_load.2 hd, ?_,
      hs.seesDirs d pi hd hdir hf, halloc⟩, rfl⟩⟩
    simp [View.load, modEntry]

theorem Sane.creates {type : FileType} (h : v.Creates d type v') : v'.Sane := by
  have htree := h.inv sizeView_dirSize hs.tree hs.seesDirs hd
  obtain rfl | ⟨pi, hf, rfl | ⟨k, sb, name, hc, rfl⟩⟩ := h.cases hs hd
  · exact hs
  · exact same_load.sane hs htree (fun _ => rfl) rfl hs.lists.load
  · refine ⟨htree, fun e i he hf => ?_, fun j hj => ?_, hc.numbered,
      hc.sane.lists.create hc.lt hc.inode⟩
    · obtain ⟨he, hf⟩ | ⟨rfl, rfl⟩ := hc.cases he hf
      · rw [di_create_of_ne (hc.sane.tree.find_lt hf).ne,
          entry_create (hc.sane.tree.lt_dentries he)]
        exact hc.sane.types e i he hf
      · rw [di_create_new hc.inode_lt, entry_create_new hc.lt]
    · rcases hc.liveInode.1 hj with hj | rfl
      · rw [di_create_of_ne (hj.lt hc.sane.tree).ne]
        exact hc.sane.nlink j hj
      · rw [di_create_new hc.inode_lt]

end

/-- Only the disk, the maps and the inode `i` have changed, and the size of the inode only if it is
not that of a directory. -/
theorem Sane.of_fileFrame (hs : v.Sane) (h : FileFrame i v v')
    (hsize : dirSize (v'.di i) = dirSize (v.di i)) (hlists : v'.Lists) : v'.Sane := by
  have htree : v'.tree dirSize = v.tree dirSize := by
    simp only [View.tree, Tree.mk.injEq]
    refine ⟨h.dentries, h.entry, h.inodes, funext h.no, funext fun j => ?_, h.ihash, h.imap⟩
    by_cases hj : j = i
    · rw [hj, hsize]
    · rw [(h.other j hj).1]
  exact h.same.sane hs (htree ▸ hs.tree) h.nlink h.imap hlists

theorem Sane.writes (hs : v.Sane) (hi : i < v.inodes) (h : v.Writes i s e v')
    (hsize : (v.di i).type = .fDir → e ≤ (v.di i).size.toNat) : v'.Sane := by
  have hframe := h.fileFrame
  cases h with
  | rejected => exact hs
  | @written v₁ size hsteps hsize' =>
    obtain ⟨hframe₁, hidirty⟩ := fileFrame_of_mapSteps hsteps
    refine hs.of_fileFrame hframe ?_ ?_
    · have hdi : ((v₁.modDi i fun x => { x with size := size }).iSdirty i).di i =
          { v₁.di i with size := size } := Function.update_self ..
      rw [hdi, dirSize, dirSize]
      simp only [hframe₁.type i]
      split
      · next hdir => exact hsize' (hsize hdir)
      · rfl
    · have hlists : (v₁.modDi i fun x => { x with size := size }).Lists :=
        { hs.lists.of_fileFrame hframe₁ hidirty with }
      exact hlists.iSdirty (hframe₁.inodes ▸ hi)

/-- Neither the tree nor the lists depend on the disk and the maps of the blocks. -/
theorem Sane.setSuper {disk : Disk} {sb : Super} (hs : v.Sane) (himap : sb.imap = v.sb.imap) :
    { v with disk := disk, sb := sb }.Sane := by
  have htree : { v with disk := disk, sb := sb }.tree dirSize = v.tree dirSize := by
    simp only [View.tree, himap]
  exact same_rest.sane hs (htree ▸ hs.tree) (fun _ => rfl) himap { hs.lists with }

theorem Sane.inodeStep (hs : v.Sane) (h : InodeStep v v') : v'.Sane := by
  cases h with
  | @mk i l pad hlist hno =>
    have hlists := hs.lists
    refine same_rest.sane hs hs.tree (fun _ => rfl) rfl
      ⟨fun j hj => hlists.known j ?_, ?_, hlists.ddirty, hlists.inode⟩
    · rw [hlist]
      exact List.mem_cons_of_mem _ hj
    · have hnodup := hlists.idirty
      rw [hlist] at hnodup
      exact (List.nodup_cons.1 hnodup).2

theorem Sane.inodeSteps (hs : v.Sane) (h : ReflTransGen InodeStep v v') : v'.Sane := by
  induction h with
  | refl => exact hs
  | tail _ hstep ih => exact ih.inodeStep hstep

theorem Writes.size_eq (h : v.Writes i s e v') (hsize : e ≤ (v.di i).size.toNat) :
    (v'.di i).size = (v.di i).size := by
  cases h with
  | rejected => rfl
  | written hsteps hsize' =>
    exact (congrArg DInode.size (Function.update_self ..)).trans (hsize' hsize)

theorem Writes.idirty_subset (h : v.Writes i s e v') : v.idirty ⊆ v'.idirty := by
  cases h with
  | rejected => exact List.Subset.refl _
  | written hsteps hsize' =>
    intro j hj
    refine List.mem_insert_of_mem ?_
    rw [show (View.modDi _ i _).idirty = _ from (fileFrame_of_mapSteps hsteps).2]
    exact hj

theorem Sane.writesTo (hs : v.Sane) (hi : i < v.inodes) (h : ReflTransGen (WriteTo i e) v v')
    (hsize : e ≤ (v.di i).size.toNat) :
    v'.Sane ∧ (v'.di i).size = (v.di i).size ∧ v.idirty ⊆ v'.idirty := by
  induction h with
  | refl => exact ⟨hs, rfl, List.Subset.refl _⟩
  | @tail v₁ v₂ hsteps hstep ih =>
    obtain ⟨hs₁, hsize₁, hsub⟩ := ih
    obtain ⟨s, n, hn, hwrites⟩ := hstep
    have hle : n ≤ (v₁.di i).size.toNat := by
      rw [hsize₁]
      exact hn.trans hsize
    refine ⟨hs₁.writes ?_ hwrites fun _ => hle, (hwrites.size_eq hle).trans hsize₁,
      List.Subset.trans hsub hwrites.idirty_subset⟩
    rw [(fileFrame_of_writes hsteps).inodes]
    exact hi

end View

/-! ### A pass keeps a file system sane -/

section Pass

variable {st st' : Efs} {d i : ℕ}

/-- A write that is not rejected puts the inode on the list. -/
theorem mem_idirty_efsIWrite {offset len : BitVec 32} {vaddr : ℕ → BitVec 8} {r : ℤ}
    (hsize : offset.toNat ≤ (st.inode i).di.size.toNat)
    (hmax : offset.toNat + len.toNat ≤ maxFileSize)
    (h : efsIWrite st i offset len vaddr = .ok (r, st')) : i ∈ st'.idirty := by
  have hsum : (offset + len).toNat = offset.toNat + len.toNat := by
    rw [BitVec.toNat_add, Nat.mod_eq_of_lt]
    simp only [maxFileSize, blockSize, nDirect, nIndirect] at hmax
    omega
  rw [efsIWrite, if_neg (by rw [BitVec.lt_def, BitVec.lt_def, hsum]; omega),
    if_neg (by rw [hsum]; omega)] at h
  obtain ⟨⟨last, st₁⟩, -, h⟩ := bind_eq_ok.1 h
  obtain ⟨-, rfl⟩ := ok_prod_inj h
  have hmem : i ∈ (efsISdirty (if (st₁.inode i).di.size.toNat < last then
      st₁.modDi i fun x => { x with size := BitVec.ofNat 32 last } else st₁) i).view.idirty := by
    rw [view_efsISdirty]
    exact List.mem_insert_self ..
  exact hmem

theorem mem_idirty_efsDUpdateLoop {ds : List ℕ} (hds : ds ≠ [])
    (hmax : ds.length * direntSize ≤ maxFileSize) (h : efsDUpdateLoop i ds 0 st = .ok st') :
    i ∈ st'.idirty := by
  obtain ⟨c, ds, rfl⟩ := List.exists_cons_of_ne_nil hds
  rw [List.length_cons, Nat.add_mul, Nat.one_mul] at hmax
  rw [efsDUpdateLoop] at h
  obtain ⟨⟨r, st₁⟩, hwrite, h⟩ := bind_eq_ok.1 h
  have hsize : (BitVec.ofNat 32 direntSize).toNat = direntSize := rfl
  have hmem := mem_idirty_efsIWrite (Nat.zero_le _)
    (by rw [hsize, BitVec.toNat_ofNat, Nat.zero_mod]; omega) hwrite
  have hwrites := writes_efsDUpdateLoop (e := maxFileSize) (by omega) h
  clear h
  have hsub : ∀ v, ReflTransGen (View.WriteTo i maxFileSize) st₁.view v → i ∈ v.idirty := by
    intro v hv
    induction hv with
    | refl => exact hmem
    | tail _ hstep ih =>
      obtain ⟨s, n, -, hn⟩ := hstep
      exact hn.idirty_subset ih
  exact hsub _ hwrites

theorem efsDUpdate_eq (hinode : (st.dentry d).inode = some i) :
    efsDUpdate st d = efsDUpdateLoop i (st.dentry d).child 0 st := by
  simp only [efsDUpdate, efsDCache, hinode]
  rfl

/-- The file of a directory is written; nothing is written for an empty one. -/
theorem View.DentryStep.cases {v v' : View} (hs : v.Sane) (h : DentryStep v v') :
    ∃ d l, v.ddirty = d :: l ∧
      ((v.entry d).child = [] ∧ v' = { v with ddirty := l } ∨
      ∃ i, (v.tree dirSize).Linked d ∧ v.find (v.ino d) = some i ∧
        (v.entry d).inode = some i ∧
          (v.di i).size.toNat = (v.entry d).child.length * direntSize ∧ i ∈ v'.idirty ∧
            ReflTransGen (WriteTo i ((v.entry d).child.length * direntSize))
              { v with ddirty := l } v') := by
  cases h with
  | @mk st st' d l hlist h =>
    refine ⟨d, l, hlist, ?_⟩
    obtain ⟨hd, hinode⟩ := hs.lists.head hlist
    obtain ⟨i, hi⟩ := Option.isSome_iff_exists.1 hinode
    have hi' : (st.dentry d).inode = some i := hi
    have hloop : efsDUpdateLoop i (st.dentry d).child 0 { st with ddirty := l } = .ok st' := by
      rw [← h]
      exact (@efsDUpdate_eq { st with ddirty := l } d i hi').symm
    by_cases hchild : (st.dentry d).child = []
    · rw [hchild] at hloop
      obtain rfl := Except.ok.inj hloop
      exact .inl ⟨hchild, rfl⟩
    · obtain ⟨hf, hlinked, hsize⟩ := hs.size_eq hd hchild hi
      refine .inr ⟨i, hlinked, hf, hi, hsize, ?_,
        writes_efsDUpdateLoop (by rw [Nat.zero_add]; rfl) hloop⟩
      exact mem_idirty_efsDUpdateLoop hchild (hs.length_child_le hd) hloop

theorem View.Sane.setDdirty {v : View} {l : List ℕ} (hs : v.Sane) (hl : v.ddirty = d :: l) :
    { v with ddirty := l }.Sane := by
  have hlists := hs.lists
  refine same_rest.sane hs hs.tree (fun _ => rfl) rfl
    ⟨hlists.known, hlists.idirty, ?_, fun e he => hlists.inode e ?_⟩
  · have hnodup := hlists.ddirty
    rw [hl] at hnodup
    exact (List.nodup_cons.1 hnodup).2
  · rw [hl]
    exact List.mem_cons_of_mem _ he

theorem View.Sane.dentryStep {v v' : View} (hs : v.Sane) (h : DentryStep v v') : v'.Sane := by
  obtain ⟨d, l, hlist, ⟨-, rfl⟩ | ⟨i, hlinked, hf, hi, hsize, -, hwrites⟩⟩ := h.cases hs
  · exact hs.setDdirty hlist
  · exact ((hs.setDdirty hlist).writesTo (hs.tree.find_lt hf) hwrites hsize.ge).1

theorem View.Sane.efsDUpdate {l : List ℕ} (hs : st.view.Sane) (hl : st.ddirty = d :: l)
    (h : efsDUpdate { st with ddirty := l } d = .ok st') :
    st'.view.Sane ∧ (efsDCdirty st' d).view = st'.view ∧ (efsDCdirty st' d).ddirty = l := by
  have hstep : View.DentryStep st.view st'.view := .mk hl h
  have hd : d ∉ l := by
    have hnodup := hs.lists.ddirty
    rw [show st.view.ddirty = d :: l from hl] at hnodup
    exact (List.nodup_cons.1 hnodup).1
  have hddirty : st'.view.ddirty = l := by
    obtain ⟨d', l', hlist, hcases⟩ := hstep.cases hs
    obtain ⟨rfl, rfl⟩ := List.cons.inj (hlist.symm.trans hl)
    rcases hcases with ⟨-, hv⟩ | ⟨i, -, -, -, -, -, hwrites⟩
    · rw [hv]
    · exact (fileFrame_of_writes hwrites).ddirty
  have hround : (efsDCdirty st' d).view = st'.view := by
    rw [view_efsDCdirty, hddirty, List.erase_of_not_mem hd, ← hddirty]
  exact ⟨hs.dentryStep hstep, hround, (congrArg View.ddirty hround).trans hddirty⟩

/-- The loop over `s_ddirty_list` takes the list from its head. -/
theorem View.Sane.syncDentries {l : List ℕ} (hs : st.view.Sane) (hl : st.ddirty = l)
    (h : efsSyncDentries l st = .ok st') : st'.ddirty = [] ∧ st'.view.Sane := by
  induction l generalizing st with
  | nil =>
    obtain rfl := Except.ok.inj h
    exact ⟨hl, hs⟩
  | cons d l ih =>
    rw [efsSyncDentries] at h
    obtain ⟨st₁, hupdate, h⟩ := bind_eq_ok.1 h
    obtain ⟨hs₁, hround, hl₁⟩ := hs.efsDUpdate hl hupdate
    exact ih (hround ▸ hs₁) hl₁ h

/-- The superblock and the bitmaps are written to the disk only. -/
theorem view_efsSyncSuper : (efsSyncSuper st).view =
    { st.view with
      disk := (efsSyncSuper st).disk
      sb := { st.sb with dirty := (efsSyncSuper st).sb.dirty } } := by
  rw [efsSyncSuper]
  split <;> rfl

theorem View.Sane.syncSuper (hs : st.view.Sane) : (efsSyncSuper st).view.Sane := by
  rw [view_efsSyncSuper]
  exact hs.setSuper rfl

theorem View.Sane.syncInodes {pad : ℕ → BitVec 16} (hs : st.view.Sane)
    (h : efsSyncInodes pad (efsSyncSuper st).idirty (efsSyncSuper st) = .ok st') :
    ReflTransGen InodeStep (efsSyncSuper st).view st'.view ∧ st'.view.idirty = [] ∧
      st'.view.Sane := by
  obtain ⟨hsteps, hnil⟩ := view_efsSyncInodes rfl hs.syncSuper.lists.idirty h
  exact ⟨hsteps, hnil, hs.syncSuper.inodeSteps hsteps⟩

theorem View.Sane.sync {pad : ℕ → BitVec 16} (hs : st.view.Sane) (h : efsSync st pad = .ok st') :
    st'.ddirty = [] ∧ st'.view.Sane := by
  obtain ⟨st₁, hinodes, h⟩ := bind_eq_ok.1 h
  exact (hs.syncInodes hinodes).2.2.syncDentries rfl h

end Pass

/-! ### Runs keep a file system sane -/

theorem Live.linked_view {st : Efs} {σ : DInode → BitVec 32} (hI : (st.view.tree σ).Inv) {d : ℕ}
    (h : Live st d) : (st.view.tree σ).Linked d := by
  induction h with
  | root => exact .inl rfl
  | child _ hc ih => exact .inr ⟨_, hI.lt_dentries ih, hc⟩

/-- `efs_i_write` is not called for a directory; `efs_d_write` refuses to. -/
def FilesOnly (st : Efs) : FsEvent → Prop
  | .write d _ _ _ => (st.dentry d).dd.type ≠ .fDir
  | _ => True

/-- Every call and every pass of `efs_sync` keeps the directory tree sound. A write has to be one to
a file, since one to a directory could change its size. -/
theorem View.Sane.step {st st' : Efs} {ev : FsEvent} (hs : st.view.Sane) (hfiles : FilesOnly st ev)
    (h : FsStep st ev st') : st'.view.Sane := by
  cases ev with
  | creat pd name type =>
    obtain ⟨hlive, r, h⟩ := h
    have hd := hlive.linked_view hs.tree
    exact hs.creates hd (creates_efsDCreat hs.tree hs.seesDirs hd h)
  | write d offset len vaddr =>
    obtain ⟨hlive, i, r, hf, h⟩ := h
    have hd := hlive.linked_view hs.tree
    refine hs.writes (hs.tree.find_lt hf) (writes_efsIWrite h) fun hdir => absurd ?_ hfiles
    rw [← hdir]
    exact (hs.types d i hd hf).symm
  | unlink d =>
    have hd := h.1.linked_view hs.tree
    exact hs.removes hd (removes_efsDUnlink hs.tree hs.seesDirs hd h.2)
  | rename d name =>
    have hd := h.1.linked_view hs.tree
    exact hs.renames hd (renames_efsDRename hs.tree hd h.2)
  | sync pad => exact (hs.sync h).2

theorem View.Mounted.linked {v : View} {disk : Disk} {diskSize : ℕ}
    {ipages bpages : ℕ → BitVec 64} (h : v.Mounted disk diskSize ipages bpages) {d : ℕ}
    (hd : (v.tree dirSize).Linked d) : d = 0 := by
  rcases hd with rfl | ⟨q, hq, hd⟩
  · rfl
  · have hq' : q < v.dentries := hq
    rw [h.dentries, Nat.lt_one_iff] at hq'
    subst hq'
    have hd' : d ∈ (v.entry 0).child := hd
    rw [h.entry, rootDentry] at hd'
    cases hd'

theorem View.Mounted.liveInode {v : View} {disk : Disk} {diskSize : ℕ}
    {ipages bpages : ℕ → BitVec 64} (h : v.Mounted disk diskSize ipages bpages) {i : ℕ}
    (hi : v.LiveInode i) : i = 0 := by
  have hlt := hi.lt (h.inv sizeView_dirSize)
  rw [h.inodes] at hlt
  omega

theorem View.Mounted.sane {v : View} {disk : Disk} {diskSize : ℕ} {ipages bpages : ℕ → BitVec 64}
    (h : v.Mounted disk diskSize ipages bpages) : v.Sane := by
  have hI : (v.tree dirSize).Inv := h.inv sizeView_dirSize
  have hroot : v.ino 0 = 1 := by
    rw [ino, h.entry, rootDentry]
  refine ⟨hI, fun d i hd hf => ?_, fun i hi => ?_, ⟨hroot, fun d hd => ?_, ?_⟩, ?_⟩
  · obtain rfl := h.linked hd
    obtain rfl := h.liveInode ⟨0, hd, hf⟩
    rw [h.di, h.entry, rootDentry, DInode.read]
    exact congrArg FileType.ofWord (h.word32_root (w := 33) (by decide))
  · obtain rfl := h.liveInode hi
    rw [h.di]
    exact h.word32_root (w := 49) (by decide)
  · rw [h.linked hd, hroot]
    decide
  · rw [h.sb, mounted_imap, bitmapResetUnused_allocation]
    exact (bitmapResetAllo_cases _ 1).2.1
  · refine ⟨fun i hi => ?_, ?_, ?_, fun d hd => ?_⟩
    · rw [h.idirty] at hi
      cases hi
    · rw [h.idirty]
      exact List.nodup_nil
    · rw [h.ddirty]
      exact List.nodup_nil
    · rw [h.ddirty] at hd
      cases hd

/-! ### The writes of a pass -/

section Rule

/-- `P` holds whenever the loop of `efs_d_update` calls `efs_i_write`. -/
def UpdateMeets (P : Efs → ℕ → BitVec 32 → BitVec 32 → Prop) (i : ℕ) : List ℕ → ℕ → Efs → Prop
  | [], _, _ => True
  | d :: ds, offset, st =>
    P st i (BitVec.ofNat 32 offset) (BitVec.ofNat 32 direntSize) ∧
      ∀ r st', efsIWrite st i (BitVec.ofNat 32 offset) (BitVec.ofNat 32 direntSize)
        ((st.dentry d).dd.bytes.getD · 0) = .ok (r, st') →
          UpdateMeets P i ds (offset + direntSize) st'

/-- `P` holds whenever `efs_i_write` is called in the loop over `s_ddirty_list`. -/
def DentriesMeet (P : Efs → ℕ → BitVec 32 → BitVec 32 → Prop) : List ℕ → Efs → Prop
  | [], _ => True
  | d :: l, st =>
    (∀ i, (st.dentry d).inode = some i →
      UpdateMeets P i (st.dentry d).child 0 { st with ddirty := l }) ∧
        ∀ st', efsDUpdate { st with ddirty := l } d = .ok st' →
          DentriesMeet P l (efsDCdirty st' d)

variable {P : Efs → ℕ → BitVec 32 → BitVec 32 → Prop} {Q : View → Prop} {st st' : Efs} {i : ℕ}

/-- `Q` is kept by the writes to live inodes that meet `P`. -/
def KeptByWrites (P : Efs → ℕ → BitVec 32 → BitVec 32 → Prop) (Q : View → Prop) : Prop :=
  ∀ st st' i offset len vaddr r, Q st.view → st.view.LiveInode i → P st i offset len →
    efsIWrite st i offset len vaddr = .ok (r, st') → Q st'.view

theorem KeptByWrites.efsDUpdateLoop (hkeeps : KeptByWrites P Q) {ds : List ℕ} {offset : ℕ}
    (hi : st.view.LiveInode i) (hmeets : UpdateMeets P i ds offset st) (hQ : Q st.view)
    (h : efsDUpdateLoop i ds offset st = .ok st') : Q st'.view := by
  induction ds generalizing st offset with
  | nil =>
    obtain rfl := Except.ok.inj h
    exact hQ
  | cons d ds ih =>
    rw [Fs.efsDUpdateLoop] at h
    obtain ⟨⟨r, st₁⟩, hwrite, h⟩ := bind_eq_ok.1 h
    have hi₁ : st₁.view.LiveInode i := (writes_efsIWrite hwrite).fileFrame.liveInode.2 hi
    exact ih hi₁ (hmeets.2 r st₁ hwrite) (hkeeps _ _ _ _ _ _ _ hQ hi hmeets.1 hwrite) h

/-- The loop over `s_ddirty_list` keeps what its rounds keep. -/
theorem efsSyncDentries_keeps
    (hempty : ∀ (v : View) d l, Q v → v.ddirty = d :: l → (v.entry d).child = [] →
      Q { v with ddirty := l })
    (hround : ∀ (st st' : Efs) d l i, Q st.view → st.view.Sane → st.ddirty = d :: l →
      (st.dentry d).inode = some i → (st.dentry d).child ≠ [] →
        UpdateMeets P i (st.dentry d).child 0 { st with ddirty := l } →
          efsDUpdateLoop i (st.dentry d).child 0 { st with ddirty := l } = .ok st' → Q st'.view)
    {l : List ℕ} (hs : st.view.Sane) (hl : st.ddirty = l) (hmeets : DentriesMeet P l st)
    (hQ : Q st.view) (h : efsSyncDentries l st = .ok st') : Q st'.view := by
  induction l generalizing st with
  | nil =>
    obtain rfl := Except.ok.inj h
    exact hQ
  | cons d l ih =>
    rw [efsSyncDentries] at h
    obtain ⟨st₁, hupdate, h⟩ := bind_eq_ok.1 h
    obtain ⟨hs₁, hdone, hl₁⟩ := hs.efsDUpdate hl hupdate
    refine ih (hdone ▸ hs₁) hl₁ (hmeets.2 st₁ hupdate) ?_ h
    rw [hdone]
    obtain ⟨hd, hinode⟩ := hs.lists.head hl
    obtain ⟨i, hi⟩ := Option.isSome_iff_exists.1 hinode
    rw [@efsDUpdate_eq { st with ddirty := l } d i hi] at hupdate
    by_cases hchild : (st.dentry d).child = []
    · rw [hchild] at hupdate
      obtain rfl := Except.ok.inj hupdate
      exact hempty _ d l hQ hl hchild
    · exact hround st st₁ d l i hQ hs hl hi hchild (hmeets.1 i hi) hupdate

/-- The inode of a directory on the list, while its file is written. -/
theorem View.Sane.liveInode_of_ddirty {l : List ℕ} {d : ℕ} (hs : st.view.Sane)
    (hl : st.ddirty = d :: l) (hi : (st.dentry d).inode = some i)
    (hchild : (st.dentry d).child ≠ []) :
    ({ st with ddirty := l } : Efs).view.LiveInode i := by
  obtain ⟨hf, hlinked, -⟩ := hs.size_eq (hs.lists.head hl).1 hchild hi
  exact ⟨d, hlinked, hf⟩

/-- The loop over `s_ddirty_list` keeps what its writes keep, so that an invariant has to be shown
for one call of `efs_i_write` only. -/
theorem KeptByWrites.efsSyncDentries (hkeeps : KeptByWrites P Q)
    (hddirty : ∀ v l, Q v → Q { v with ddirty := l }) {l : List ℕ} (hs : st.view.Sane)
    (hl : st.ddirty = l) (hmeets : DentriesMeet P l st) (hQ : Q st.view)
    (h : efsSyncDentries l st = .ok st') : Q st'.view := by
  refine efsSyncDentries_keeps (fun v d l hQ _ _ => hddirty v l hQ) ?_ hs hl hmeets hQ h
  intro st st' d l i hQ hs hl hi hchild hmeets h
  exact hkeeps.efsDUpdateLoop (hs.liveInode_of_ddirty hl hi hchild) hmeets (hddirty _ _ hQ) h

end Rule

end RiscvLab.Fs
