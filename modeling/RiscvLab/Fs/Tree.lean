import Mathlib.Data.List.Find
import Mathlib.Data.List.Nodup
import Mathlib.Data.List.Perm.Subperm
import RiscvLab.Fs.Dentry

/-!
# The directory tree

What a file system in memory shows of its directories: the entries, the inodes with their numbers
and sizes, and the inode bitmap. The operations of the file system change a tree in four ways: the
inode of an entry is found (`load`), an entry is created (`create`), taken out (`remove`) or renamed
(`rename`), and an inode is given up (`release`).

The tree is of a file system all of whose inodes are in memory, as it is from the time it has been
formatted on: an entry whose children have not been read has none.

## Main definitions

* `Tree`, `Efs.tree`
* `Tree.Linked` : the root and the children of any entry.
* `Tree.Inv` : the links are those of a tree, names and inode numbers are different, and the size of
  a directory is that of its entries.

## Main results

* `Tree.Inv.load`, `Tree.Inv.create`, `Tree.Inv.remove`, `Tree.Inv.release`, `Tree.Inv.rename`
-/

namespace RiscvLab.Fs

/-- The part of a file system that its directories consist of; the flags `D_DIRTY` are left out. -/
structure Tree where
  dentries : ℕ
  entry : ℕ → Dentry
  inodes : ℕ
  no : ℕ → BitVec 32
  size : ℕ → BitVec 32
  ihash : ℕ → List ℕ
  imap : Bitmap

/-- The tree of a file system. -/
def Efs.tree (st : Efs) : Tree where
  dentries := st.dentries
  entry d := { st.dentry d with dirty := false }
  inodes := st.inodes
  no i := (st.inode i).di.no
  size i := (st.inode i).di.size
  ihash := st.ihash
  imap := st.sb.imap

namespace Tree

/-- The inode number of an entry. -/
def ino (t : Tree) (d : ℕ) : BitVec 32 := (t.entry d).dd.ino

/-- The name of an entry, as far as it is compared. -/
def key (t : Tree) (d : ℕ) : List (BitVec 8) := chars (t.entry d).dd.name dirMaxlen

/-- `hash_find` in `s_ihash`. -/
def find (t : Tree) (ino : BitVec 32) : Option ℕ :=
  (t.ihash (ino.toNat % buckets)).find? fun i => t.no i = ino

/-- An entry is the root or the child of some entry. -/
def Linked (t : Tree) (d : ℕ) : Prop := d = 0 ∨ ∃ p < t.dentries, d ∈ (t.entry p).child

/-- An entry is changed. -/
def modEntry (t : Tree) (d : ℕ) (f : Dentry → Dentry) : Tree :=
  { t with entry := Function.update t.entry d (f (t.entry d)) }

/-- The inode of an entry is recorded, and its children too if `full` is set. -/
def load (t : Tree) (d i : ℕ) (full : Bool) : Tree :=
  t.modEntry d fun x => { x with inode := some i, filled := x.filled || full }

/-- There is one more inode, with the number `k`, which no entry refers to. -/
def addInode (t : Tree) (k : ℕ) : Tree :=
  { t with
    inodes := t.inodes + 1
    no := Function.update t.no t.inodes (BitVec.ofNat 32 k)
    size := Function.update t.size t.inodes 0
    ihash := Function.update t.ihash (k % buckets) (t.inodes :: t.ihash (k % buckets))
    imap := t.imap.grab k }

/-- There is one more entry, in the directory `p`. -/
def addEntry (t : Tree) (p : ℕ) (dd : Dirent) : Tree :=
  { t with
    dentries := t.dentries + 1
    entry := Function.update
      (Function.update t.entry t.dentries ⟨dd, none, some p, [], false, false⟩) p
      { t.entry p with child := (t.entry p).child ++ [t.dentries] } }

/-- The size of an inode is changed. -/
def modSize (t : Tree) (i : ℕ) (f : BitVec 32 → BitVec 32) : Tree :=
  { t with size := Function.update t.size i (f (t.size i)) }

/-- An entry of the directory `p` is created, with the inode number `k`. -/
def create (t : Tree) (p pi k : ℕ) (type : FileType) (name : ℕ → BitVec 8) : Tree :=
  ((t.addInode k).addEntry p ⟨BitVec.ofNat 32 k, type, name⟩).modSize pi (· + 24)

/-- An entry is taken out of the directory `p`. -/
def remove (t : Tree) (d p pi : ℕ) : Tree :=
  (t.modEntry p fun x => { x with child := x.child.erase d }).modSize pi (· - 24)

/-- An inode is given up. -/
def release (t : Tree) (i k : ℕ) : Tree :=
  { t.modSize i fun _ => 0 with imap := t.imap.drop k }

/-- An entry gets a new name. -/
def rename (t : Tree) (d : ℕ) (name : ℕ → BitVec 8) : Tree :=
  t.modEntry d fun x => { x with dd := { x.dd with name := name } }

/-- The directory tree is sound. -/
structure Inv (t : Tree) : Prop where
  pos : 0 < t.dentries
  root : (t.entry 0).parent = none
  lt : ∀ p < t.dentries, ∀ c ∈ (t.entry p).child, c < t.dentries ∧ c ≠ 0
  parent : ∀ p < t.dentries, ∀ c ∈ (t.entry p).child, (t.entry c).parent = some p
  linked : ∀ p < t.dentries, (t.entry p).child ≠ [] → t.Linked p
  names : ∀ p < t.dentries, ((t.entry p).child.map t.key).Nodup
  unfilled : ∀ p < t.dentries, (t.entry p).filled = false → (t.entry p).child = []
  dir : ∀ d < t.dentries, (t.entry d).filled = true → (t.entry d).dd.type = .fDir
  found : ∀ d, t.Linked d →
    ∃ i, t.find (t.ino d) = some i ∧ ((t.entry d).filled = false → t.size i = 0)
  cached : ∀ d < t.dentries, ∀ i, (t.entry d).inode = some i → i < t.inodes ∧
    (t.Linked d → t.find (t.ino d) = some i) ∧
      ∀ e, t.Linked e → t.find (t.ino e) = some i → d = e
  sized : ∀ d < t.dentries, (t.entry d).filled = true → ∃ i, (t.entry d).inode = some i ∧
    (t.size i).toNat = 24 * (t.entry d).child.length
  inj : ∀ d e, t.Linked d → t.Linked e → t.ino d = t.ino e → d = e
  bit : ∀ d, t.Linked d → t.imap.test (t.ino d).toNat = true
  le : ∀ d, t.Linked d → d ≠ 0 → ((t.ino d).toNat : ℤ) ≤ t.imap.size
  bound : t.imap.size ≤ 2 ^ 15
  ihash : ∀ b, ∀ i ∈ t.ihash b, i < t.inodes

variable {t : Tree} {d e p pi i k : ℕ}

theorem load_entry (full : Bool) (e : ℕ) : ((t.load d i full).entry e).dd = (t.entry e).dd ∧
    ((t.load d i full).entry e).child = (t.entry e).child ∧
      ((t.load d i full).entry e).parent = (t.entry e).parent := by
  by_cases he : e = d
  · subst he
    simp [Tree.load, modEntry]
  · simp [Tree.load, modEntry, he]

/-- The directory of an entry without children is another entry, and stays as it is. -/
theorem load_child (full : Bool) (hd : d ∈ (t.entry p).child) (hpi : (t.entry p).inode = some pi)
    (hempty : (t.entry d).child = []) : d ∈ ((t.load d i full).entry p).child ∧
      ((t.load d i full).entry p).inode = some pi ∧ ((t.load d i full).entry d).child = [] := by
  have hpd : p ≠ d := by
    rintro rfl
    rw [hempty] at hd
    cases hd
  refine ⟨?_, ?_, ?_⟩
  · rwa [(load_entry full p).2.1]
  · exact (congrArg Dentry.inode (Function.update_of_ne hpd ..)).trans hpi
  · rwa [(load_entry full d).2.1]

theorem linked_load {full : Bool} : (t.load d i full).Linked e ↔ t.Linked e := by
  simp only [Linked, (load_entry full _).2.1]
  rfl

theorem find_mem {ino : BitVec 32} (h : t.find ino = some i) :
    i ∈ t.ihash (ino.toNat % buckets) ∧ t.no i = ino :=
  ⟨List.mem_of_find?_eq_some h, by simpa using List.find?_some h⟩

theorem inv_root (hdentries : t.dentries = 1)
    (hinode : (t.entry 0).inode = some i) (hparent : (t.entry 0).parent = none)
    (hchild : (t.entry 0).child = []) (hdir : (t.entry 0).dd.type = .fDir)
    (hf : t.find (t.ino 0) = some i) (hi : i < t.inodes) (hsize : t.size i = 0)
    (hbit : t.imap.test (t.ino 0).toNat = true) (hbound : t.imap.size ≤ 2 ^ 15)
    (hihash : ∀ b, ∀ j ∈ t.ihash b, j < t.inodes) : t.Inv := by
  have hzero : ∀ p < t.dentries, p = 0 := fun p hp => by omega
  have hlinked : ∀ d, t.Linked d → d = 0 := by
    rintro d (rfl | ⟨p, hp, hd⟩)
    · rfl
    · rw [hzero p hp, hchild] at hd
      cases hd
  refine
    { pos := by omega
      root := hparent
      lt := fun p hp c hc => ?_
      parent := fun p hp c hc => ?_
      linked := fun p hp _ => .inl (hzero p hp)
      names := fun p hp => ?_
      unfilled := fun p hp _ => hzero p hp ▸ hchild
      dir := fun d hd _ => hzero d hd ▸ hdir
      found := fun d hd => ⟨i, hlinked d hd ▸ hf, fun _ => hsize⟩
      cached := fun d hd j hj => ?_
      sized := fun d hd _ => ⟨i, hzero d hd ▸ hinode, ?_⟩
      inj := fun d e hd he _ => (hlinked d hd).trans (hlinked e he).symm
      bit := fun d hd => hlinked d hd ▸ hbit
      le := fun d hd hne => absurd (hlinked d hd) hne
      bound := hbound
      ihash := hihash }
  · rw [hzero p hp, hchild] at hc
    cases hc
  · rw [hzero p hp, hchild] at hc
    cases hc
  · rw [hzero p hp, hchild]
    exact List.nodup_nil
  · obtain rfl := hzero d hd
    obtain rfl := Option.some.inj (hinode.symm.trans hj)
    exact ⟨hi, fun _ => hf, fun e he _ => (hlinked e he).symm⟩
  · rw [hzero d hd, hchild, hsize]
    rfl

/-! ### The entries after a creation -/

section Created

variable {type : FileType} {name : ℕ → BitVec 8}

theorem lt_create_dentries (he : e < (t.create p pi k type name).dentries) :
    e < t.dentries ∨ e = t.dentries := Nat.lt_succ_iff_lt_or_eq.1 he

theorem create_entry_new (hp : p < t.dentries) : (t.create p pi k type name).entry t.dentries =
    ⟨⟨BitVec.ofNat 32 k, type, name⟩, none, some p, [], false, false⟩ := by
  have hne : t.dentries ≠ p := hp.ne'
  simp [create, addInode, addEntry, modSize, hne]

theorem create_entry (he : e < t.dentries) :
    (t.create p pi k type name).entry e = { t.entry e with
      child := if e = p then (t.entry e).child ++ [t.dentries] else (t.entry e).child } := by
  have hne : e ≠ t.dentries := he.ne
  by_cases hep : e = p
  · subst hep
    simp [create, addInode, addEntry, modSize]
  · simp [create, addInode, addEntry, modSize, hep, hne]

theorem mem_create_child (he : e < t.dentries) {c : ℕ} :
    c ∈ ((t.create p pi k type name).entry e).child ↔
      c ∈ (t.entry e).child ∨ e = p ∧ c = t.dentries := by
  rw [create_entry he]
  by_cases hep : e = p <;> simp [hep]

theorem linked_create (hp : p < t.dentries) :
    (t.create p pi k type name).Linked e ↔ t.Linked e ∨ e = t.dentries := by
  constructor
  · rintro (rfl | ⟨q, hq, he⟩)
    · exact .inl (.inl rfl)
    · rcases lt_create_dentries hq with hq | rfl
      · exact ((mem_create_child hq).1 he).imp (fun he => .inr ⟨q, hq, he⟩) And.right
      · rw [create_entry_new hp] at he
        cases he
  · rintro ((rfl | ⟨q, hq, he⟩) | rfl)
    · exact .inl rfl
    · exact .inr ⟨q, Nat.lt_succ_of_lt hq, (mem_create_child hq).2 (.inl he)⟩
    · exact .inr ⟨p, Nat.lt_succ_of_lt hp, (mem_create_child hp).2 (.inr ⟨rfl, rfl⟩)⟩

theorem create_ino (he : e < t.dentries) : (t.create p pi k type name).ino e = t.ino e := by
  rw [ino, ino, create_entry he]

theorem create_ino_new (hp : p < t.dentries) :
    (t.create p pi k type name).ino t.dentries = BitVec.ofNat 32 k := by
  rw [ino, create_entry_new hp]

theorem create_key (he : e < t.dentries) : (t.create p pi k type name).key e = t.key e := by
  rw [key, key, create_entry he]

theorem create_key_new (hp : p < t.dentries) :
    (t.create p pi k type name).key t.dentries = chars name dirMaxlen := by
  rw [key, create_entry_new hp]

theorem create_size (hi : i < t.inodes) (hne : i ≠ pi) :
    (t.create p pi k type name).size i = t.size i := by
  simp [create, addInode, addEntry, modSize, hne, hi.ne]

end Created

namespace Inv

variable (h : t.Inv)
include h

theorem lt_dentries (hd : t.Linked d) : d < t.dentries := by
  rcases hd with rfl | ⟨p, hp, hc⟩
  · exact h.pos
  · exact (h.lt p hp d hc).1

theorem find_lt {ino : BitVec 32} (hf : t.find ino = some i) : i < t.inodes :=
  h.ihash _ i (find_mem hf).1

/-- An entry is the child of one directory only. -/
theorem parent_unique {p' : ℕ} (hp : p < t.dentries) (hd : d ∈ (t.entry p).child)
    (hp' : p' < t.dentries) (hd' : d ∈ (t.entry p').child) : p' = p := by
  have h₁ := h.parent p hp d hd
  rw [h.parent p' hp' d hd'] at h₁
  exact Option.some.inj h₁

theorem mem_child_of_parent (hd : t.Linked d) (hp : (t.entry d).parent = some p) :
    p < t.dentries ∧ d ∈ (t.entry p).child := by
  rcases hd with rfl | ⟨q, hq, hqd⟩
  · rw [h.root] at hp
    cases hp
  · rw [h.parent q hq d hqd] at hp
    obtain rfl := Option.some.inj hp
    exact ⟨hq, hqd⟩

theorem eq_of_find (hd : t.Linked d) (he : t.Linked e) (hfd : t.find (t.ino d) = some i)
    (hfe : t.find (t.ino e) = some i) : d = e :=
  h.inj d e hd he ((find_mem hfd).2.symm.trans (find_mem hfe).2)

theorem filled_of_child (hp : p < t.dentries) (hd : d ∈ (t.entry p).child) :
    (t.entry p).filled = true := by
  by_contra hf
  rw [h.unfilled p hp (by simpa using hf)] at hd
  cases hd

/-- There are not more children than inodes. -/
theorem length_child_le (hp : p < t.dentries) : (t.entry p).child.length ≤ 2 ^ 15 + 1 := by
  have hlinked : ∀ c ∈ (t.entry p).child, t.Linked c := fun c hc => .inr ⟨p, hp, hc⟩
  have hnodup : ((t.entry p).child.map fun c => (t.ino c).toNat).Nodup :=
    (List.Nodup.of_map _ (h.names p hp)).map_on fun c hc d hd he =>
      h.inj c d (hlinked c hc) (hlinked d hd) (BitVec.eq_of_toNat_eq he)
  have hsub : ((t.entry p).child.map fun c => (t.ino c).toNat) ⊆ List.range (2 ^ 15 + 1) := by
    intro n hn
    obtain ⟨c, hc, rfl⟩ := List.mem_map.1 hn
    have h₁ := h.le c (hlinked c hc) (h.lt p hp c hc).2
    have h₂ := h.bound
    exact List.mem_range.2 (by omega)
  simpa using (List.subperm_of_subset hnodup hsub).length_le

/-! ### Finding an inode -/

theorem load (hd : t.Linked d) (hf : t.find (t.ino d) = some i) {full : Bool}
    (hfull : full = true → (t.entry d).dd.type = .fDir) : (t.load d i full).Inv := by
  have hdlt := h.lt_dentries hd
  have hentry := @load_entry t d i full
  have hother : ∀ e, e ≠ d → (t.load d i full).entry e = t.entry e := fun e he => by
    simp [Tree.load, modEntry, he]
  have hself : (t.load d i full).entry d =
      { t.entry d with inode := some i, filled := (t.entry d).filled || full } := by
    simp [Tree.load, modEntry]
  have hlinked : ∀ e, (t.load d i full).Linked e ↔ t.Linked e := fun e => linked_load
  have hino : ∀ e, (t.load d i full).ino e = t.ino e := fun e => by
    rw [ino, ino, (hentry e).1]
  have hkey : (t.load d i full).key = t.key := funext fun e => by rw [key, key, (hentry e).1]
  refine
    { pos := h.pos
      root := (hentry 0).2.2.trans h.root
      lt := fun p hp c hc => h.lt p hp c (by rwa [(hentry p).2.1] at hc)
      parent := fun p hp c hc => by
        rw [(hentry c).2.2]
        exact h.parent p hp c (by rwa [(hentry p).2.1] at hc)
      linked := fun p hp hc => (hlinked p).2 (h.linked p hp (by rwa [(hentry p).2.1] at hc))
      names := fun p hp => by
        rw [(hentry p).2.1, hkey]
        exact h.names p hp
      unfilled := fun p hp hu => ?_
      dir := fun e he hfill => ?_
      found := fun e he => ?_
      cached := fun e he j hj => ?_
      sized := fun e he hfill => ?_
      inj := fun e e' he he' heq =>
        h.inj e e' ((hlinked e).1 he) ((hlinked e').1 he') (by rwa [hino, hino] at heq)
      bit := fun e he => by
        rw [hino]
        exact h.bit e ((hlinked e).1 he)
      le := fun e he hne => by
        rw [hino]
        exact h.le e ((hlinked e).1 he) hne
      bound := h.bound
      ihash := h.ihash }
  · rw [(hentry p).2.1]
    by_cases hpd : p = d
    · subst hpd
      rw [hself, Bool.or_eq_false_iff] at hu
      exact h.unfilled p hp hu.1
    · rw [hother p hpd] at hu
      exact h.unfilled p hp hu
  · rw [(hentry e).1]
    by_cases hed : e = d
    · subst hed
      rw [hself, Bool.or_eq_true] at hfill
      exact hfill.elim (h.dir e he) hfull
    · rw [hother e hed] at hfill
      exact h.dir e he hfill
  · obtain ⟨j, hj, hsize⟩ := h.found e ((hlinked e).1 he)
    refine ⟨j, by rw [hino]; exact hj, fun hu => hsize ?_⟩
    by_cases hed : e = d
    · subst hed
      rw [hself, Bool.or_eq_false_iff] at hu
      exact hu.1
    · rwa [hother e hed] at hu
  · rw [hino]
    by_cases hed : e = d
    · subst hed
      rw [hself] at hj
      obtain rfl := Option.some.inj hj
      refine ⟨h.find_lt hf, fun _ => hf, fun e' he' hfe' => ?_⟩
      rw [hino] at hfe'
      exact h.eq_of_find hd ((hlinked e').1 he') hf hfe'
    · rw [hother e hed] at hj
      obtain ⟨h₁, h₂, h₃⟩ := h.cached e he j hj
      refine ⟨h₁, fun hl => h₂ ((hlinked e).1 hl), fun e' he' hfe' => ?_⟩
      rw [hino] at hfe'
      exact h₃ e' ((hlinked e').1 he') hfe'
  · rw [(hentry e).2.1]
    by_cases hed : e = d
    · subst hed
      refine ⟨i, by rw [hself], ?_⟩
      change (t.size i).toNat = _
      by_cases hfilled : (t.entry e).filled = true
      · -- the inode had been recorded when the children were read
        obtain ⟨j, hj, hsize⟩ := h.sized e he hfilled
        rw [(h.cached e he j hj).2.1 hd] at hf
        rwa [← Option.some.inj hf]
      · obtain ⟨j, hj, hsize⟩ := h.found e hd
        rw [hj] at hf
        rw [← Option.some.inj hf, hsize (by simpa using hfilled),
          h.unfilled e he (by simpa using hfilled)]
        rfl
    · rw [hother e hed] at hfill ⊢
      exact h.sized e he hfill

/-! ### Taking an entry out -/

/-- The part of `remove` that concerns the links. -/
theorem linked_remove (hp : p < t.dentries) (hd : d ∈ (t.entry p).child) :
    (t.remove d p pi).Linked e ↔ t.Linked e ∧ e ≠ d := by
  have hnodup : (t.entry p).child.Nodup := List.Nodup.of_map _ (h.names p hp)
  have hd₀ : d ≠ 0 := (h.lt p hp d hd).2
  constructor
  · rintro (rfl | ⟨q, hq, he⟩)
    · exact ⟨.inl rfl, hd₀.symm⟩
    · by_cases hqp : q = p
      · subst hqp
        simp only [remove, modEntry, modSize, Function.update_self] at he
        rw [hnodup.mem_erase_iff] at he
        exact ⟨.inr ⟨q, hp, he.2⟩, he.1⟩
      · simp only [remove, modEntry, modSize, Function.update_of_ne hqp] at he
        refine ⟨.inr ⟨q, hq, he⟩, ?_⟩
        rintro rfl
        exact hqp (h.parent_unique hp hd hq he)
  · rintro ⟨rfl | ⟨q, hq, he⟩, hne⟩
    · exact .inl rfl
    · refine .inr ⟨q, hq, ?_⟩
      by_cases hqp : q = p
      · subst hqp
        simp only [remove, modEntry, modSize, Function.update_self]
        exact (List.mem_erase_of_ne hne).2 he
      · simpa only [remove, modEntry, modSize, Function.update_of_ne hqp] using he

theorem remove (hp : p < t.dentries) (hd : d ∈ (t.entry p).child)
    (hpi : (t.entry p).inode = some pi) (hempty : (t.entry d).child = []) :
    (t.remove d p pi).Inv := by
  have hfilled := h.filled_of_child hp hd
  have hpl : t.Linked p := h.linked p hp (List.ne_nil_of_mem hd)
  have hpf : t.find (t.ino p) = some pi := (h.cached p hp pi hpi).2.1 hpl
  have hl : ∀ e, (t.remove d p pi).Linked e ↔ t.Linked e ∧ e ≠ d := fun e =>
    h.linked_remove hp hd
  have hentry : ∀ e, ((t.remove d p pi).entry e).dd = (t.entry e).dd ∧
      ((t.remove d p pi).entry e).inode = (t.entry e).inode ∧
        ((t.remove d p pi).entry e).parent = (t.entry e).parent ∧
          ((t.remove d p pi).entry e).filled = (t.entry e).filled := by
    intro e
    by_cases he : e = p
    · subst he
      simp [Tree.remove, modEntry, modSize]
    · simp [Tree.remove, modEntry, modSize, he]
  have hsub : ∀ e, List.Sublist ((t.remove d p pi).entry e).child (t.entry e).child := by
    intro e
    by_cases he : e = p
    · subst he
      simpa [Tree.remove, modEntry, modSize] using List.erase_sublist
    · simp [Tree.remove, modEntry, modSize, he]
  have hino : ∀ e, (t.remove d p pi).ino e = t.ino e := fun e => by rw [ino, ino, (hentry e).1]
  have hkey : (t.remove d p pi).key = t.key := funext fun e => by rw [key, key, (hentry e).1]
  have hsize : ∀ j, j ≠ pi → (t.remove d p pi).size j = t.size j := fun j hj => by
    simp [Tree.remove, modEntry, modSize, hj]
  refine
    { pos := h.pos
      root := (hentry 0).2.2.1.trans h.root
      lt := fun q hq c hc => h.lt q hq c ((hsub q).subset hc)
      parent := fun q hq c hc => by
        rw [(hentry c).2.2.1]
        exact h.parent q hq c ((hsub q).subset hc)
      linked := fun q hq hc => (hl q).2 ⟨h.linked q hq fun hnil => hc ?_, ?_⟩
      names := fun q hq => by
        rw [hkey]
        exact (h.names q hq).sublist ((hsub q).map _)
      unfilled := fun q hq hu => ?_
      dir := fun e he hf => by
        rw [(hentry e).1]
        exact h.dir e he (by rwa [(hentry e).2.2.2] at hf)
      found := fun e he => ?_
      cached := fun e he j hj => ?_
      sized := fun e he hf => ?_
      inj := fun e e' he he' heq =>
        h.inj e e' ((hl e).1 he).1 ((hl e').1 he').1 (by rwa [hino, hino] at heq)
      bit := fun e he => by
        rw [hino]
        exact h.bit e ((hl e).1 he).1
      le := fun e he hne => by
        rw [hino]
        exact h.le e ((hl e).1 he).1 hne
      bound := h.bound
      ihash := h.ihash }
  · exact List.sublist_nil.1 (hnil ▸ hsub q)
  · rintro rfl
    exact hc (List.sublist_nil.1 (hempty ▸ hsub q))
  · have hnil := h.unfilled q hq (by rwa [(hentry q).2.2.2] at hu)
    exact List.sublist_nil.1 (hnil ▸ hsub q)
  · obtain ⟨j, hj, hs⟩ := h.found e ((hl e).1 he).1
    refine ⟨j, by rw [hino]; exact hj, fun hu => ?_⟩
    rw [(hentry e).2.2.2] at hu
    rw [hsize j ?_, hs hu]
    rintro rfl
    rw [h.eq_of_find ((hl e).1 he).1 hpl hj hpf, hfilled] at hu
    cases hu
  · obtain ⟨h₁, h₂, h₃⟩ := h.cached e he j (by rwa [(hentry e).2.1] at hj)
    refine ⟨h₁, fun hle => ?_, fun e' he' hfe' => h₃ e' ((hl e').1 he').1 ?_⟩
    · rw [hino]
      exact h₂ ((hl e).1 hle).1
    · rwa [hino] at hfe'
  · rw [(hentry e).2.1]
    rw [(hentry e).2.2.2] at hf
    obtain ⟨j, hj, hs⟩ := h.sized e he hf
    refine ⟨j, hj, ?_⟩
    by_cases hep : e = p
    · subst hep
      obtain rfl := Option.some.inj (hj.symm.trans hpi)
      have hlen : 0 < (t.entry e).child.length := List.length_pos_of_mem hd
      have hle := h.length_child_le hp
      have h24 : (24 : BitVec 32).toNat = 24 := rfl
      simp only [Tree.remove, modEntry, modSize, Function.update_self, List.length_erase_of_mem hd,
        BitVec.toNat_sub, hs, h24]
      omega
    · have hjpi : j ≠ pi := by
        rintro rfl
        exact hep ((h.cached e he j hj).2.2 p hpl hpf)
      rw [hsize j hjpi, hs]
      simp [Tree.remove, modEntry, modSize, hep]

/-! ### Giving an inode up -/

theorem release (hown : ∀ d < t.dentries, (t.entry d).inode = some i → (t.entry d).child = [])
    (hfree : ∀ d, t.Linked d → t.find (t.ino d) ≠ some i ∧ (t.ino d).toNat ≠ k) :
    (t.release i k).Inv := by
  refine
    { h with
      found := fun e he => ?_
      sized := fun e he hf => ?_
      bit := fun e he => ?_ }
  · obtain ⟨j, hj, hs⟩ := h.found e he
    refine ⟨j, hj, fun hu => ?_⟩
    have hji : j ≠ i := fun heq => (hfree e he).1 (heq ▸ hj)
    simpa [Tree.release, modSize, hji] using hs hu
  · obtain ⟨j, hj, hs⟩ := h.sized e he hf
    refine ⟨j, hj, ?_⟩
    by_cases hji : j = i
    · subst hji
      have hnil := hown e he hj
      simp only [Tree.release, modSize, Function.update_self, hnil]
      rfl
    · simpa [Tree.release, modSize, hji] using hs
  · have hbit : t.imap.test (t.ino e).toNat = true := h.bit e he
    have hne : (t.ino e).toNat ≠ k := (hfree e he).2
    change (t.imap.drop k).test (t.ino e).toNat = true
    rw [Bitmap.test_drop, hbit, decide_eq_false hne]
    rfl

/-- An entry is taken out, and its inode is given up. -/
theorem unlink (hp : p < t.dentries) (hd : d ∈ (t.entry p).child)
    (hpi : (t.entry p).inode = some pi) (hempty : (t.entry d).child = [])
    (hf : t.find (t.ino d) = some i) : ((t.release i (t.no i).toNat).remove d p pi).Inv := by
  have hdl : t.Linked d := .inr ⟨p, hp, hd⟩
  have hpl : t.Linked p := h.linked p hp (List.ne_nil_of_mem hd)
  have hdp : d ≠ p := by
    rintro rfl
    rw [hempty] at hd
    cases hd
  have hipi : i ≠ pi := by
    rintro rfl
    exact hdp (h.eq_of_find hdl hpl hf ((h.cached p hp i hpi).2.1 hpl))
  have hcomm : (t.release i (t.no i).toNat).remove d p pi =
      (t.remove d p pi).release i (t.no i).toNat := by
    simp only [Tree.release, Tree.remove, modEntry, modSize, Tree.mk.injEq, true_and, and_true,
      Function.update_of_ne hipi.symm]
    exact Function.update_comm hipi ..
  have hino : ∀ e, (t.remove d p pi).ino e = t.ino e := fun e => by
    by_cases he : e = p
    · subst he
      simp [ino, Tree.remove, modEntry, modSize]
    · simp [ino, Tree.remove, modEntry, modSize, he]
  rw [hcomm]
  refine (h.remove hp hd hpi hempty).release (fun e he hei => ?_) fun e he => ?_
  · have hei' : (t.entry e).inode = some i := by
      by_cases hep : e = p
      · subst hep
        simpa [Tree.remove, modEntry, modSize] using hei
      · simpa [Tree.remove, modEntry, modSize, hep] using hei
    rw [(h.cached e he i hei').2.2 d hdl hf]
    simpa [Tree.remove, modEntry, modSize, hdp] using hempty
  · obtain ⟨hel, hne⟩ := (h.linked_remove hp hd).1 he
    rw [hino, (find_mem hf).2]
    exact ⟨fun hfe => hne (h.eq_of_find hel hdl hfe hf),
      fun heq => hne (h.inj e d hel hdl (BitVec.eq_of_toNat_eq heq))⟩

/-! ### A new entry -/

section Create

variable {type : FileType} {name : ℕ → BitVec 8}

/-- The new inode is found under its number, and the others as before. -/
theorem find_create {ino : BitVec 32} (hk : k < 2 ^ 32) :
    (t.create p pi k type name).find ino =
      if ino = BitVec.ofNat 32 k then some t.inodes else t.find ino := by
  have hold : (t.ihash (ino.toNat % buckets)).find?
      (fun i => (t.create p pi k type name).no i = ino) = t.find ino :=
    List.find?_congr fun i hi => by
      have hne : i ≠ t.inodes := by
        have := h.ihash _ i hi
        omega
      simp [Tree.create, addInode, addEntry, modSize, hne]
  have hnew : (t.create p pi k type name).no t.inodes = BitVec.ofNat 32 k :=
    Function.update_self ..
  have hbucket : (t.create p pi k type name).ihash (ino.toNat % buckets) =
      if ino.toNat % buckets = k % buckets then t.inodes :: t.ihash (ino.toNat % buckets)
      else t.ihash (ino.toNat % buckets) := by
    by_cases hb : ino.toNat % buckets = k % buckets <;>
      simp [Tree.create, addInode, addEntry, modSize, hb]
  rw [find, hbucket]
  split_ifs with hb heq heq
  · rw [List.find?_cons_of_pos]
    simp [hnew, heq]
  · rw [List.find?_cons_of_neg, hold]
    simpa [hnew] using Ne.symm heq
  · rw [heq, BitVec.toNat_ofNat, Nat.mod_eq_of_lt hk] at hb
    exact absurd rfl hb
  · exact hold

variable (hp : t.Linked p) (hfilled : (t.entry p).filled = true)
  (hpi : (t.entry p).inode = some pi) (hk : t.imap.test k = false) (hsize : (k : ℤ) ≤ t.imap.size)

include hsize in
theorem toNat_ofNat_number : (BitVec.ofNat 32 k).toNat = k := by
  have := h.bound
  rw [BitVec.toNat_ofNat, Nat.mod_eq_of_lt (by omega)]

include hk hsize in
/-- The new number is not that of another entry. -/
theorem ino_ne_number (he : t.Linked e) : t.ino e ≠ BitVec.ofNat 32 k := by
  intro heq
  have hbit := h.bit e he
  rw [heq, h.toNat_ofNat_number hsize, hk] at hbit
  cases hbit

include hk hsize in
theorem find_create_ino (he : t.Linked e) :
    (t.create p pi k type name).find ((t.create p pi k type name).ino e) = t.find (t.ino e) := by
  have hk32 : k < 2 ^ 32 := by have := h.bound; omega
  rw [h.find_create hk32, create_ino (h.lt_dentries he), if_neg (h.ino_ne_number hk hsize he)]

include hsize in
theorem find_create_new (hp : p < t.dentries) : (t.create p pi k type name).find
    ((t.create p pi k type name).ino t.dentries) = some t.inodes := by
  have hk32 : k < 2 ^ 32 := by have := h.bound; omega
  rw [create_ino_new hp, h.find_create hk32, if_pos rfl]

theorem names_create (hp : p < t.dentries)
    (hname : chars name dirMaxlen ∉ (t.entry p).child.map t.key) (he : e < t.dentries) :
    (((t.create p pi k type name).entry e).child.map (t.create p pi k type name).key).Nodup := by
  have hold : ((t.entry e).child.map (t.create p pi k type name).key) =
      (t.entry e).child.map t.key :=
    List.map_congr_left fun c hc => create_key (h.lt e he c hc).1
  rw [create_entry he]
  by_cases hep : e = p
  · subst hep
    rw [if_pos rfl, List.map_append, hold, List.map_singleton, create_key_new hp,
      List.nodup_append]
    refine ⟨h.names e he, List.nodup_singleton _, fun a ha b hb => ?_⟩
    obtain rfl := List.mem_singleton.1 hb
    rintro rfl
    exact hname ha
  · rw [if_neg hep, hold]
    exact h.names e he

include hp hfilled hpi hk hsize in
theorem found_create (he : (t.create p pi k type name).Linked e) :
    ∃ i, (t.create p pi k type name).find ((t.create p pi k type name).ino e) = some i ∧
      (((t.create p pi k type name).entry e).filled = false →
        (t.create p pi k type name).size i = 0) := by
  have hplt := h.lt_dentries hp
  have hpf : t.find (t.ino p) = some pi := (h.cached p hplt pi hpi).2.1 hp
  rcases (linked_create hplt).1 he with he' | rfl
  · obtain ⟨j, hj, hs⟩ := h.found e he'
    refine ⟨j, by rw [h.find_create_ino hk hsize he', hj], fun hu => ?_⟩
    rw [create_entry (h.lt_dentries he')] at hu
    have hjpi : j ≠ pi := by
      rintro rfl
      rw [h.eq_of_find he' hp hj hpf, hfilled] at hu
      cases hu
    rw [create_size (h.find_lt hj) hjpi, hs hu]
  · refine ⟨t.inodes, h.find_create_new hsize hplt, fun _ => ?_⟩
    have hne : t.inodes ≠ pi := (h.find_lt hpf).ne'
    simp [Tree.create, addInode, addEntry, modSize, hne]

include hp hk hsize in
theorem cached_create (he : e < t.dentries) {j : ℕ} (hj : (t.entry e).inode = some j) :
    j < t.inodes + 1 ∧
      ((t.create p pi k type name).Linked e →
        (t.create p pi k type name).find ((t.create p pi k type name).ino e) = some j) ∧
      ∀ e', (t.create p pi k type name).Linked e' →
        (t.create p pi k type name).find ((t.create p pi k type name).ino e') = some j →
          e = e' := by
  have hplt := h.lt_dentries hp
  obtain ⟨h₁, h₂, h₃⟩ := h.cached e he j hj
  refine ⟨Nat.lt_succ_of_lt h₁, fun hle => ?_, fun e' he' hf => ?_⟩
  · have hle' := ((linked_create hplt).1 hle).resolve_right he.ne
    rw [h.find_create_ino hk hsize hle', h₂ hle']
  · rcases (linked_create hplt).1 he' with he' | rfl
    · exact h₃ e' he' (by rwa [h.find_create_ino hk hsize he'] at hf)
    · rw [h.find_create_new hsize hplt] at hf
      exact absurd (Option.some.inj hf) h₁.ne'

include hp hpi in
/-- The size of the directory grows by that of an entry. -/
theorem sized_create (he : e < t.dentries) (hf : (t.entry e).filled = true) :
    ∃ i, (t.entry e).inode = some i ∧ ((t.create p pi k type name).size i).toNat =
      24 * ((t.create p pi k type name).entry e).child.length := by
  have hplt := h.lt_dentries hp
  have hpf : t.find (t.ino p) = some pi := (h.cached p hplt pi hpi).2.1 hp
  obtain ⟨j, hj, hs⟩ := h.sized e he hf
  refine ⟨j, hj, ?_⟩
  rw [create_entry he]
  by_cases hep : e = p
  · subst hep
    obtain rfl := Option.some.inj (hj.symm.trans hpi)
    have hle := h.length_child_le hplt
    have h24 : (24 : BitVec 32).toNat = 24 := rfl
    simp only [Tree.create, addInode, addEntry, modSize, Function.update_self,
      Function.update_of_ne (h.find_lt hpf).ne, BitVec.toNat_add, hs, h24, if_true,
      List.length_append, List.length_singleton]
    omega
  · have hjpi : j ≠ pi := by
      rintro rfl
      exact hep ((h.cached e he j hj).2.2 p hp hpf)
    rw [create_size (h.cached e he j hj).1 hjpi, hs, if_neg hep]

include hp hk hsize in
theorem inj_create {e' : ℕ} (he : (t.create p pi k type name).Linked e)
    (he' : (t.create p pi k type name).Linked e')
    (heq : (t.create p pi k type name).ino e = (t.create p pi k type name).ino e') : e = e' := by
  have hplt := h.lt_dentries hp
  rcases (linked_create hplt).1 he with he | rfl <;>
    rcases (linked_create hplt).1 he' with he' | rfl
  · rw [create_ino (h.lt_dentries he), create_ino (h.lt_dentries he')] at heq
    exact h.inj e e' he he' heq
  · rw [create_ino (h.lt_dentries he), create_ino_new hplt] at heq
    exact absurd heq (h.ino_ne_number hk hsize he)
  · rw [create_ino (h.lt_dentries he'), create_ino_new hplt] at heq
    exact absurd heq.symm (h.ino_ne_number hk hsize he')
  · rfl

theorem ihash_create {b j : ℕ} (hj : j ∈ (t.create p pi k type name).ihash b) :
    j < t.inodes + 1 := by
  by_cases hb : b = k % buckets
  · subst hb
    simp only [Tree.create, addInode, addEntry, modSize, Function.update_self,
      List.mem_cons] at hj
    rcases hj with rfl | hj
    · exact Nat.lt_succ_self _
    · exact Nat.lt_succ_of_lt (h.ihash _ j hj)
  · simp only [Tree.create, addInode, addEntry, modSize, Function.update_of_ne hb] at hj
    exact Nat.lt_succ_of_lt (h.ihash _ j hj)

include hp hfilled hpi hk hsize in
theorem create (hname : chars name dirMaxlen ∉ (t.entry p).child.map t.key) :
    (t.create p pi k type name).Inv := by
  have hplt := h.lt_dentries hp
  have hl (e : ℕ) := @linked_create t e p pi k type name hplt
  have hnew := @create_entry_new t p pi k type name hplt
  refine
    { pos := Nat.succ_pos _
      root := by
        rw [create_entry h.pos]
        exact h.root
      lt := fun q hq c hc => ?_
      parent := fun q hq c hc => ?_
      linked := fun q hq hc => ?_
      names := fun q hq => ?_
      unfilled := fun q hq hu => ?_
      dir := fun e he hf => ?_
      found := fun e he => h.found_create hp hfilled hpi hk hsize he
      cached := fun e he j hj => ?_
      sized := fun e he hf => ?_
      inj := fun e e' he he' heq => h.inj_create hp hk hsize he he' heq
      bit := fun e he => ?_
      le := fun e he hne => ?_
      bound := h.bound
      ihash := fun b j hj => h.ihash_create hj }
  · rcases lt_create_dentries hq with hq | rfl
    · rcases (mem_create_child hq).1 hc with hc | ⟨-, rfl⟩
      · obtain ⟨h₁, h₂⟩ := h.lt q hq c hc
        exact ⟨Nat.lt_succ_of_lt h₁, h₂⟩
      · exact ⟨Nat.lt_succ_self _, h.pos.ne'⟩
    · rw [hnew] at hc
      cases hc
  · rcases lt_create_dentries hq with hq | rfl
    · rcases (mem_create_child hq).1 hc with hc | ⟨rfl, rfl⟩
      · rw [create_entry (h.lt q hq c hc).1]
        exact h.parent q hq c hc
      · rw [hnew]
    · rw [hnew] at hc
      cases hc
  · rcases lt_create_dentries hq with hq | rfl
    · refine (hl q).2 (.inl ?_)
      by_cases hqp : q = p
      · exact hqp ▸ hp
      · rw [create_entry hq, if_neg hqp] at hc
        exact h.linked q hq hc
    · exact (hl _).2 (.inr rfl)
  · rcases lt_create_dentries hq with hq | rfl
    · exact h.names_create hplt hname hq
    · rw [hnew]
      exact List.nodup_nil
  · rcases lt_create_dentries hq with hq | rfl
    · rw [create_entry hq] at hu ⊢
      have hqp : q ≠ p := by
        rintro rfl
        simp [hfilled] at hu
      rw [if_neg hqp]
      exact h.unfilled q hq hu
    · rw [hnew]
  · rcases lt_create_dentries he with he | rfl
    · rw [create_entry he] at hf ⊢
      exact h.dir e he hf
    · rw [hnew] at hf
      cases hf
  · rcases lt_create_dentries he with he | rfl
    · rw [create_entry he] at hj
      exact h.cached_create hp hk hsize he hj
    · rw [hnew] at hj
      cases hj
  · rcases lt_create_dentries he with he | rfl
    · have hinode : ((t.create p pi k type name).entry e).inode = (t.entry e).inode := by
        rw [create_entry he]
      rw [create_entry he] at hf
      rw [hinode]
      exact h.sized_create hp hpi he hf
    · rw [hnew] at hf
      cases hf
  · change (t.imap.grab k).test _ = true
    rw [Bitmap.test_grab]
    rcases (hl e).1 he with he | rfl
    · rw [create_ino (h.lt_dentries he), h.bit e he, Bool.or_true]
    · rw [create_ino_new hplt, h.toNat_ofNat_number hsize]
      simp
  · change _ ≤ t.imap.size
    rcases (hl e).1 he with he | rfl
    · rw [create_ino (h.lt_dentries he)]
      exact h.le e he hne
    · rwa [create_ino_new hplt, h.toNat_ofNat_number hsize]

end Create

/-! ### A new name -/

theorem rename {name : ℕ → BitVec 8} (hp : p < t.dentries) (hd : d ∈ (t.entry p).child)
    (hname : chars name dirMaxlen ∉ (t.entry p).child.map t.key) : (t.rename d name).Inv := by
  have hentry : ∀ e, ((t.rename d name).entry e).inode = (t.entry e).inode ∧
      ((t.rename d name).entry e).parent = (t.entry e).parent ∧
        ((t.rename d name).entry e).child = (t.entry e).child ∧
          ((t.rename d name).entry e).filled = (t.entry e).filled ∧
            ((t.rename d name).entry e).dd.ino = (t.entry e).dd.ino ∧
              ((t.rename d name).entry e).dd.type = (t.entry e).dd.type := by
    intro e
    by_cases he : e = d
    · subst he
      simp [Tree.rename, modEntry]
    · simp [Tree.rename, modEntry, he]
  have hino : ∀ e, (t.rename d name).ino e = t.ino e := fun e => (hentry e).2.2.2.2.1
  have hl : ∀ e, (t.rename d name).Linked e ↔ t.Linked e := fun e => by
    simp only [Linked, (hentry _).2.2.1]
    rfl
  have hkey : ∀ e, e ≠ d → (t.rename d name).key e = t.key e := fun e he => by
    simp [key, Tree.rename, modEntry, he]
  have hkeyd : (t.rename d name).key d = chars name dirMaxlen := by
    simp [key, Tree.rename, modEntry]
  refine
    { pos := h.pos
      root := (hentry 0).2.1.trans h.root
      lt := fun q hq c hc => h.lt q hq c (by rwa [(hentry q).2.2.1] at hc)
      parent := fun q hq c hc => by
        rw [(hentry c).2.1]
        exact h.parent q hq c (by rwa [(hentry q).2.2.1] at hc)
      linked := fun q hq hc => (hl q).2 (h.linked q hq (by rwa [(hentry q).2.2.1] at hc))
      names := fun q hq => ?_
      unfilled := fun q hq hu => by
        rw [(hentry q).2.2.1]
        exact h.unfilled q hq (by rwa [(hentry q).2.2.2.1] at hu)
      dir := fun e he hf => by
        rw [(hentry e).2.2.2.2.2]
        exact h.dir e he (by rwa [(hentry e).2.2.2.1] at hf)
      found := fun e he => by
        rw [hino, (hentry e).2.2.2.1]
        exact h.found e ((hl e).1 he)
      cached := fun e he j hj => by
        obtain ⟨h₁, h₂, h₃⟩ := h.cached e he j (by rwa [(hentry e).1] at hj)
        refine ⟨h₁, fun hle => ?_, fun e' he' hf => h₃ e' ((hl e').1 he') (by rwa [hino] at hf)⟩
        rw [hino]
        exact h₂ ((hl e).1 hle)
      sized := fun e he hf => by
        rw [(hentry e).1, (hentry e).2.2.1]
        exact h.sized e he (by rwa [(hentry e).2.2.2.1] at hf)
      inj := fun e e' he he' heq =>
        h.inj e e' ((hl e).1 he) ((hl e').1 he') (by rwa [hino, hino] at heq)
      bit := fun e he => by
        rw [hino]
        exact h.bit e ((hl e).1 he)
      le := fun e he hne => by
        rw [hino]
        exact h.le e ((hl e).1 he) hne
      bound := h.bound
      ihash := h.ihash }
  rw [(hentry q).2.2.1]
  have hnodup := List.Nodup.of_map _ (h.names q hq)
  refine hnodup.map_on fun a ha b hb hab => ?_
  -- only the key of `d` has changed, and the new one is not among those of its directory
  have hnew : ∀ c ∈ (t.entry q).child, d ∈ (t.entry q).child → c ≠ d →
      t.key c ≠ chars name dirMaxlen := fun c hc hdq _ heq => by
    obtain rfl := h.parent_unique hp hd hq hdq
    exact hname (heq ▸ List.mem_map_of_mem hc)
  by_cases had : a = d
  · subst had
    by_contra hne
    rw [hkeyd, hkey b (Ne.symm hne)] at hab
    exact hnew b hb ha (Ne.symm hne) hab.symm
  · by_cases hbd : b = d
    · subst hbd
      rw [hkeyd, hkey a had] at hab
      exact absurd hab (hnew a ha hb had)
    · rw [hkey a had, hkey b hbd] at hab
      exact List.inj_on_of_nodup_map (h.names q hq) ha hb hab

end Inv

end Tree

end RiscvLab.Fs
