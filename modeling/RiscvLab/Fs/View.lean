import RiscvLab.Fs.Tree

/-!
# What the calls change

The disk, the superblock, the inodes and the directory entries of a file system, without reference
counts, flags and the hash table of the names. What a call does to the rest is said once, as an
equation between two views; the invariants of the file system are derived from these equations.

The inodes that the calls look for are in memory, and a directory whose children have not been read
has an empty file, as on a disk that has been formatted and mounted.

## Main definitions

* `View`, `Efs.view`, `View.tree`
* `View.load`, `View.create`, `View.release`, `View.remove`, `View.rename` : the changes.

## Main results

* `view_efsDLoad`, `view_efsDInode`, `view_efsINew`, `view_efsDCreatEntry`, `efsIUnlink_cases`,
  `view_efsDRemove`

Source: `fs/easyfs/dentry.c`, lines 99–155 and 268–380; `fs/easyfs/inode.c`, lines 330–398.
-/

namespace RiscvLab.Fs

open Library

/-- A file system without reference counts, flags and the hash table of the names. -/
structure View where
  disk : Disk
  sb : Super
  dev : BitVec 16
  inodes : ℕ
  di : ℕ → DInode
  indir : ℕ → Option (ℕ → BitVec 32)
  ihash : ℕ → List ℕ
  idirty : List ℕ
  dentries : ℕ
  entry : ℕ → Dentry
  ddirty : List ℕ

def Efs.view (st : Efs) : View where
  disk := st.disk
  sb := st.sb
  dev := st.dev
  inodes := st.inodes
  di i := (st.inode i).di
  indir i := (st.inode i).indir
  ihash := st.ihash
  idirty := st.idirty
  dentries := st.dentries
  entry d := { st.dentry d with dirty := false }
  ddirty := st.ddirty

namespace View

/-- The directory tree, where `σ` is what is seen of the size of an inode. -/
def tree (σ : DInode → BitVec 32) (v : View) : Tree where
  dentries := v.dentries
  entry := v.entry
  inodes := v.inodes
  no i := (v.di i).no
  size i := σ (v.di i)
  ihash := v.ihash
  imap := v.sb.imap

/-- The inode number of an entry. -/
def ino (v : View) (d : ℕ) : BitVec 32 := (v.entry d).dd.ino

/-- `hash_find` in `s_ihash`. -/
def find (v : View) (ino : BitVec 32) : Option ℕ :=
  (v.ihash (ino.toNat % buckets)).find? fun i => (v.di i).no = ino

/-- The on-disk part of an inode is changed. -/
def modDi (v : View) (i : ℕ) (f : DInode → DInode) : View :=
  { v with di := Function.update v.di i (f (v.di i)) }

/-- A directory entry is changed. -/
def modEntry (v : View) (d : ℕ) (f : Dentry → Dentry) : View :=
  { v with entry := Function.update v.entry d (f (v.entry d)) }

/-- An inode is put on `s_idirty_list`. -/
def iSdirty (v : View) (i : ℕ) : View := { v with idirty := v.idirty.insert i }

/-- A directory entry is put on `s_ddirty_list`. -/
def dSdirty (v : View) (d : ℕ) : View := { v with ddirty := v.ddirty.insert d }

/-- The inode of an entry is recorded, and its children too if `full` is set. -/
def load (v : View) (d i : ℕ) (full : Bool) : View :=
  v.modEntry d fun x => { x with inode := some i, filled := x.filled || full }

/-- There is one more inode, with the number `k`. -/
def addInode (v : View) (k : ℕ) (sb : Super) : View :=
  { v with
    sb := sb
    inodes := v.inodes + 1
    di := Function.update v.di v.inodes ⟨BitVec.ofNat 32 k, .fNone, v.dev, 0, fun _ => 0, 1⟩
    indir := Function.update v.indir v.inodes none
    ihash := Function.update v.ihash (k % buckets) (v.inodes :: v.ihash (k % buckets))
    idirty := v.idirty.insert v.inodes }

/-- There is one more entry, in the directory `p`. -/
def addEntry (v : View) (p : ℕ) (dd : Dirent) : View :=
  { v with
    dentries := v.dentries + 1
    entry := Function.update
      (Function.update v.entry v.dentries ⟨dd, none, some p, [], false, false⟩) p
      { v.entry p with child := (v.entry p).child ++ [v.dentries] } }

/-- The inode `i` gets its type, and the directory `p` an entry for it. -/
def enter (v : View) (p pi i : ℕ) (type : FileType) (name : ℕ → BitVec 8) : View :=
  (((v.modDi i fun x => { x with type := type }).iSdirty i).addEntry p
    ⟨(v.di i).no, type, name⟩).modDi pi (fun x => { x with size := x.size + 24 }) |>.dSdirty p

/-- An entry of the directory `p` is created, with the inode number `k`. -/
def create (v : View) (p pi k : ℕ) (sb : Super) (type : FileType) (name : ℕ → BitVec 8) : View :=
  (v.addInode k sb).enter p pi v.inodes type name

/-- An inode is given up. -/
def release (v : View) (i : ℕ) (sb : Super) : View :=
  { (v.modDi i fun x => { x with nlink := x.nlink - 1, size := 0 }).iSdirty i with sb := sb }

/-- An entry is taken out of the directory `p`. -/
def remove (v : View) (d p pi : ℕ) : View :=
  (v.modEntry p fun x => { x with child := x.child.erase d }).modDi pi
    (fun x => { x with size := x.size - 24 }) |>.dSdirty p

/-- An entry gets a new name. -/
def rename (v : View) (d : ℕ) (name : ℕ → BitVec 8) : View :=
  v.modEntry d fun x => { x with dd := { x.dd with name := name } }

theorem modEntry_self {v : View} {d : ℕ} {f : Dentry → Dentry} (h : f (v.entry d) = v.entry d) :
    v.modEntry d f = v := by
  rw [modEntry, h, Function.update_eq_self]

theorem modDi_self {v : View} {i : ℕ} {f : DInode → DInode} (h : f (v.di i) = v.di i) :
    v.modDi i f = v := by
  rw [modDi, h, Function.update_eq_self]

/-- What a change of an inode leaves alone is the same of every inode. -/
theorem modDi_congr {α : Type} {v : View} {i : ℕ} {f : DInode → DInode} (g : DInode → α)
    (hg : g (f (v.di i)) = g (v.di i)) (j : ℕ) : g ((v.modDi i f).di j) = g (v.di j) := by
  by_cases hj : j = i
  · subst hj
    simpa [modDi] using hg
  · simp [modDi, hj]

theorem load_eq_self {v : View} {d i : ℕ} {full : Bool} (hinode : (v.entry d).inode = some i)
    (hfull : full = true → (v.entry d).filled = true) : v.load d i full = v := by
  refine modEntry_self ?_
  rw [← hinode]
  cases full
  · simp
  · simp [← hfull rfl]

theorem load_load {v : View} {d i : ℕ} {full full' : Bool} :
    (v.load d i full).load d i full' = v.load d i (full || full') := by
  simp [load, modEntry, Bool.or_assoc]

end View

variable {st st' : Efs} {i j d pd : ℕ}

/-! ### Single changes -/

theorem view_modInode {f : MInode → MInode} (hdi : (f (st.inode i)).di = (st.inode i).di)
    (hindir : (f (st.inode i)).indir = (st.inode i).indir) : (st.modInode i f).view = st.view := by
  simp only [Efs.view, Efs.modInode, View.mk.injEq, true_and, and_true]
  constructor <;> funext j <;> by_cases hj : j = i
  · subst hj
    simpa using hdi
  · simp [hj]
  · subst hj
    simpa using hindir
  · simp [hj]

theorem view_modDi {f : DInode → DInode} : (st.modDi i f).view = st.view.modDi i f := by
  simp only [Efs.view, Efs.modDi, Efs.modInode, View.modDi, View.mk.injEq, true_and, and_true]
  constructor <;> funext j <;> by_cases hj : j = i
  · subst hj
    simp
  · simp [hj]
  · subst hj
    simp
  · simp [hj]

theorem view_modDentry {f : Dentry → Dentry}
    (hf : ∀ x, { f x with dirty := false } = f { x with dirty := false }) :
    (st.modDentry d f).view = st.view.modEntry d f := by
  simp only [Efs.view, Efs.modDentry, View.modEntry, View.mk.injEq, true_and, and_true]
  funext e
  by_cases he : e = d
  · subst he
    simp [hf]
  · simp [he]

@[simp]
theorem view_efsISdirty : (efsISdirty st i).view = st.view.iSdirty i := by
  have h : (st.modInode i fun x => { x with dirty := true }).view = st.view := view_modInode rfl rfl
  rw [efsISdirty, View.iSdirty]
  split
  · next hi =>
    have hi' : i ∈ st.view.idirty := hi
    rw [List.insert_of_mem hi', h]
  · next hi =>
    have hi' : i ∉ st.view.idirty := hi
    rw [List.insert_of_not_mem hi', ← h]
    rfl

theorem view_modDentry_dirty (b : Bool) :
    (st.modDentry d fun x => { x with dirty := b }).view = st.view := by
  simp only [Efs.view, Efs.modDentry, View.mk.injEq, true_and, and_true]
  funext e
  by_cases he : e = d
  · subst he
    simp
  · simp [he]

@[simp]
theorem view_efsDSdirty : (efsDSdirty st d).view = st.view.dSdirty d := by
  have h : (st.modDentry d fun x => { x with dirty := true }).view = st.view :=
    view_modDentry_dirty true
  rw [efsDSdirty, View.dSdirty]
  split
  · next hd =>
    have hd' : d ∈ st.view.ddirty := hd
    rw [List.insert_of_mem hd', h]
  · next hd =>
    have hd' : d ∉ st.view.ddirty := hd
    rw [List.insert_of_not_mem hd', ← h]
    rfl

@[simp]
theorem view_efsIDup : (efsIDup st i).view = st.view := view_modInode rfl rfl

theorem view_efsIPut (h : efsIPut st i = .ok st') : st'.view = st.view := by
  rw [efsIPut] at h
  split at h
  · obtain rfl := Except.ok.inj h
    exact view_modInode rfl rfl
  · cases h

/-! ### Finding an inode and reading a directory -/

theorem view_efsIGet {ino : BitVec 32} (hf : st.view.find ino = some i)
    (h : efsIGet st ino = .ok (j, st')) : j = i ∧ st'.view = st.view := by
  have hf' : hashFindInode st ino = some i := hf
  simp only [efsIGet, hf'] at h
  split at h
  · cases h
  · obtain ⟨rfl, rfl⟩ := ok_prod_inj h
    exact ⟨rfl, view_efsIDup⟩

theorem view_setInode :
    (st.modDentry d fun x => { x with inode := some i }).view = st.view.load d i false := by
  rw [view_modDentry fun _ => rfl]
  simp [View.load]

/-- Apart from reference counts, which a view leaves out, only the pointer of the entry changes, if
the inode is in memory already. -/
theorem view_efsDInode (hf : st.view.find (st.view.ino d) = some i)
    (hc : ∀ j, (st.dentry d).inode = some j → j = i) (h : efsDInode st d = .ok (j, st')) :
    j = i ∧ st'.view = st.view.load d i false := by
  rw [efsDInode] at h
  split at h
  · next hinode =>
    obtain ⟨rfl, rfl⟩ := ok_prod_inj h
    obtain rfl := hc _ hinode
    refine ⟨rfl, ?_⟩
    rw [view_efsIDup, View.load_eq_self hinode (by simp)]
  · simp only [bind_eq_ok, Prod.exists] at h
    obtain ⟨k, st₁, hget, h⟩ := h
    obtain ⟨rfl, rfl⟩ := ok_prod_inj h
    obtain ⟨rfl, hv⟩ := view_efsIGet hf hget
    exact ⟨rfl, by rw [view_setInode, hv]⟩

/-- The file of a directory whose children have not been read is empty. -/
theorem view_efsDFill (hf : st.view.find (st.view.ino d) = some i)
    (hs : (st.inode i).di.size = 0) (h : efsDFill st d = .ok st') :
    st'.view = st.view.load d i false := by
  simp only [efsDFill, bind_eq_ok, Prod.exists] at h
  obtain ⟨j, st₁, hget, st₂, hloop, hput⟩ := h
  obtain ⟨rfl, hv⟩ := view_efsIGet hf hget
  have hs₁ : (st₁.inode j).di.size = 0 :=
    (congrArg DInode.size (congrFun (congrArg View.di hv) j)).trans hs
  rw [Efs.modDentry_inode, hs₁] at hloop
  obtain rfl := Except.ok.inj hloop
  rw [view_efsIPut hput, view_setInode, hv]

/-- The flag that is set when the children have been read. -/
theorem view_setFilled {v : View} (hinode : (st.view.entry d).inode = some i)
    (h : st.view = v.load d i false) :
    (st.modDentry d fun x => { x with filled := true }).view = v.load d i true := by
  have hfull : (st.modDentry d fun x => { x with filled := true }).view =
      st.view.load d i true := by
    rw [view_modDentry fun _ => rfl]
    simp [View.load, View.modEntry, hinode]
  rw [hfull, h, View.load_load]
  rfl

/-- After `efs_d_load` the inode of the directory is recorded and its children count as read. If
they were not before, the directory is an empty one. -/
theorem view_efsDLoad (hf : st.view.find (st.view.ino d) = some i)
    (hc : (st.dentry d).filled = true → (st.dentry d).inode = some i)
    (hs : (st.dentry d).filled = false → (st.inode i).di.size = 0) (h : efsDLoad st d = .ok st') :
    st'.view = st.view.load d i true := by
  rw [efsDLoad] at h
  split at h
  · next hfilled =>
    obtain rfl := Except.ok.inj h
    exact (View.load_eq_self (hc hfilled) fun _ => hfilled).symm
  · next hfilled =>
    simp only [bind_eq_ok] at h
    obtain ⟨st₁, hfill, h⟩ := h
    obtain rfl := Except.ok.inj h
    have hv := view_efsDFill hf (hs (by simpa using hfilled)) hfill
    have hinode : (st₁.view.entry d).inode = some i := by
      rw [hv]
      simp [View.load, View.modEntry]
    exact view_setFilled hinode hv

/-! ### Creating an entry -/

theorem efsImapAlloc_cases {sb sb' : Super} {no : ℤ} (h : efsImapAlloc sb = .ok (no, sb')) :
    ∃ k : ℕ, no = k ∧ sb.imap.test k = false ∧ (k : ℤ) ≤ sb.imap.size ∧
      sb'.imap = sb.imap.grab k ∧ sb.imap.allocation ≤ k := by
  rw [efsImapAlloc] at h
  rcases hb : bitmapAlloc sb.imap with ⟨no', b⟩
  rw [hb] at h
  dsimp only at h
  split at h
  · cases h
  · next hno =>
    obtain ⟨rfl, rfl⟩ := ok_prod_inj h
    exact bitmapAlloc_ok hb hno

theorem view_efsIAddsb {k : ℕ} (hk : (st.inode i).di.no.toNat = k) : (efsIAddsb st i).view =
    { st.view with
      ihash := Function.update st.view.ihash (k % buckets)
        (i :: st.view.ihash (k % buckets)) } := by
  rw [← hk]
  rfl

private theorem view_enlist {v : View} {k : ℕ} {sb : Super} (hk : k < 2 ^ 32)
    (h : st.view = { v.addInode k sb with ihash := v.ihash, idirty := v.idirty }) :
    (efsIAddsb (efsISdirty st v.inodes) v.inodes).view = v.addInode k sb := by
  have hsdirty : (efsISdirty st v.inodes).view = st.view.iSdirty v.inodes := view_efsISdirty
  generalize efsISdirty st v.inodes = st₁ at hsdirty ⊢
  rw [h] at hsdirty
  have hno : (st₁.view.di v.inodes).no.toNat = k := by
    rw [hsdirty]
    simpa [View.iSdirty, View.addInode] using hk
  rw [view_efsIAddsb hno, hsdirty]
  rfl

/-- The new inode is the last one in memory, with a number from the bitmap. It is on `s_idirty_list`
and not on the disk yet. -/
theorem view_efsINew (hbound : st.sb.imap.size ≤ 2 ^ 15) (h : efsINew st = .ok (i, st')) :
    i = st.inodes ∧ ∃ (k : ℕ) (sb : Super), efsImapAlloc st.sb = .ok ((k : ℤ), sb) ∧
      st'.view = st.view.addInode k sb := by
  simp only [efsINew, bind_eq_ok, Prod.exists] at h
  obtain ⟨no, sb, halloc, h⟩ := h
  obtain ⟨k, rfl, -, hle, -⟩ := efsImapAlloc_cases halloc
  rw [BitVec.ofInt_natCast] at h
  obtain ⟨rfl, rfl⟩ := ok_prod_inj h
  refine ⟨rfl, k, sb, halloc, view_enlist (v := st.view) (by omega) ?_⟩
  simp only [Efs.view, efsIAlloc, Efs.modDi, Efs.modInode, View.addInode, View.mk.injEq, true_and,
    and_true, Function.update_self, Function.update_idem]
  constructor <;> funext j <;> by_cases hj : j = st.inodes
  · subst hj
    simp
  · simp [hj]
  · subst hj
    simp
  · simp [hj]

theorem view_efsDAlloc : (efsDAlloc st).2.view =
    { st.view with
      entry := Function.update st.view.entry st.dentries
        ⟨.read (st.junk st.dentries), none, none, [], false, false⟩
      dentries := st.dentries + 1 } := by
  simp only [Efs.view, efsDAlloc, View.mk.injEq, true_and, and_true]
  funext e
  by_cases he : e = st.dentries
  · subst he
    simp
  · simp [he]

/-- The last part of `efs_d_creat` enters a new entry for the inode `i`. Up to its end the name of
the new entry is the one that is given; behind it there may be other bytes. -/
theorem view_efsDCreatEntry {name : ℕ → BitVec 8} {type : FileType} {r : Option ℕ}
    (hpd : pd < st.dentries) (h : efsDCreatEntry st pd i name type = .ok (r, st')) :
    ∃ pi name', (st.dentry pd).inode = some pi ∧ chars name' dirMaxlen = chars name dirMaxlen ∧
      r = some st.dentries ∧ st'.view = st.view.enter pd pi i type name' := by
  have hne : pd ≠ st.dentries := hpd.ne
  simp only [efsDCreatEntry] at h
  generalize hconn : efsDConn _ _ _ = st₁ at h
  have hview : st₁.view = ((st.view.modDi i fun x => { x with type := type }).iSdirty i).addEntry
      pd ⟨(st.inode i).di.no, type,
        (strncpy (Dirent.read (st.junk st.dentries)).name 0 name dirMaxlen).1⟩ := by
    rw [← hconn, efsDConn, view_modDentry fun _ => rfl, view_modDentry fun _ => rfl, efsIType,
      view_efsISdirty, view_modDi, view_modDentry fun _ => rfl, view_efsDAlloc]
    simp only [View.modEntry, View.addEntry, View.modDi, View.iSdirty, View.mk.injEq, and_true,
      true_and, efsDAlloc, Function.update_self, Function.update_idem, Function.update_of_ne hne]
    exact ⟨rfl, rfl⟩
  have hinode : (st₁.dentry pd).inode = (st.dentry pd).inode := by
    have := congrArg (fun v : View => (v.entry pd).inode) hview
    simpa [View.addEntry, View.modDi, View.iSdirty, Efs.view] using this
  split at h
  · cases h
  · next pi hpi =>
    obtain ⟨hr, rfl⟩ := ok_prod_inj h
    refine ⟨pi, (strncpy (Dirent.read (st.junk st.dentries)).name 0 name dirMaxlen).1,
      hinode ▸ hpi, chars_strncpy _ _ _, hr.symm, ?_⟩
    rw [view_efsDSdirty, view_modDi, hview]
    rfl

/-! ### Unlinking an entry -/

theorem efsBmapFree_imap {sb sb' : Super} {bno : ℤ} (h : efsBmapFree sb bno = .ok sb') :
    sb'.imap = sb.imap := by
  rw [efsBmapFree] at h
  split at h
  · cases h
  · obtain rfl := Except.ok.inj h
    rfl

theorem efsIFreeAddrs_imap {addr : ℕ → BitVec 32} {n k : ℕ} {sb sb' : Super}
    (h : efsIFreeAddrs addr n k sb = .ok sb') : sb'.imap = sb.imap := by
  induction n generalizing k sb with
  | zero =>
    obtain rfl := Except.ok.inj h
    rfl
  | succ n ih =>
    rw [efsIFreeAddrs] at h
    split at h
    · obtain rfl := Except.ok.inj h
      rfl
    · obtain ⟨sb₁, hfree, h⟩ := bind_eq_ok.1 h
      rw [ih h, efsBmapFree_imap hfree]

/-- A bit that `bitmap_is_free` has found to be set is cleared. -/
theorem bitmapFree_of_isFree {b : Bitmap} {no : BitVec 32} (h : bitmapIsFree b no.toInt = 0) :
    bitmapFree b no.toInt = b.drop no.toNat := by
  have hnonneg : 0 ≤ no.toInt := by
    by_contra hlt
    rw [bitmapIsFree, if_pos (.inl (by omega))] at h
    exact absurd h (by decide)
  have hno : no.toInt = no.toNat := by
    rw [BitVec.toInt_eq_toNat_cond] at hnonneg ⊢
    split at hnonneg <;> omega
  rw [hno, bitmapIsFree_eq_zero_iff] at h
  rw [hno]
  exact bitmapFree_of_test h.1 h.2

theorem efsImapFree_cases {sb sb' : Super} {no : BitVec 32}
    (h : efsImapFree sb no.toInt = .ok sb') : sb'.imap = sb.imap.drop no.toNat := by
  rw [efsImapFree] at h
  split at h
  · cases h
  · next hfree =>
    obtain rfl := Except.ok.inj h
    exact bitmapFree_of_isFree (not_not.1 hfree)

/-- The blocks of an inode are freed. -/
def FreesBlocks (v : View) (i : ℕ) (sb : Super) : Prop :=
  ∃ sb₁, efsIFreeAddrs (v.di i).addrs (nDirect + 1) 0 v.sb = .ok sb₁ ∧
    efsIFreeIndir (v.indir i) sb₁ = .ok sb

theorem FreesBlocks.imap {v : View} {sb : Super} (h : FreesBlocks v i sb) :
    sb.imap = v.sb.imap := by
  obtain ⟨sb₁, h₁, h₂⟩ := h
  rw [efsIFreeIndir.eq_def] at h₂
  split at h₂
  · rw [efsIFreeAddrs_imap h₂, efsIFreeAddrs_imap h₁]
  · obtain rfl := Except.ok.inj h₂
    exact efsIFreeAddrs_imap h₁

theorem view_efsITrunc (h : efsITrunc st i = .ok st') : ∃ sb, FreesBlocks st.view i sb ∧
    st'.view =
      { (st.view.modDi i fun x => { x with size := 0 }).iSdirty i with sb := sb } := by
  simp only [efsITrunc, efsIDataFree, bind_eq_ok] at h
  obtain ⟨st₁, ⟨sb₁, h₁, sb₂, h₂, hdata⟩, htrunc⟩ := h
  obtain rfl := Except.ok.inj hdata
  obtain rfl := Except.ok.inj htrunc
  refine ⟨sb₂, ⟨sb₁, h₁, h₂⟩, ?_⟩
  rw [view_efsISdirty, view_modDi]
  rfl

/-- What `efs_i_unlink` does: nothing, it counts a link less, or the inode is given up. -/
theorem efsIUnlink_cases {r : ℤ} (h : efsIUnlink st i = .ok (r, st')) :
    r ≠ 0 ∧ st'.view = st.view ∨
    r = 0 ∧ (st.inode i).di.nlink ≠ 1 ∧
      st'.view = st.view.modDi i (fun x => { x with nlink := x.nlink - 1 }) ∨
    r = 0 ∧ ∃ sb sb', FreesBlocks st.view i sb ∧
      efsImapFree sb (st.inode i).di.no.toInt = .ok sb' ∧ st'.view = st.view.release i sb' := by
  rw [efsIUnlink] at h
  split at h
  · obtain ⟨rfl, rfl⟩ := ok_prod_inj h
    exact .inl ⟨by decide, rfl⟩
  · have hv : (st.modDi i fun x => { x with nlink := x.nlink - 1 }).view =
        st.view.modDi i fun x => { x with nlink := x.nlink - 1 } := view_modDi
    dsimp only at h
    generalize st.modDi i _ = st₁ at h hv
    have hdi : (st₁.inode i).di = { (st.inode i).di with nlink := (st.inode i).di.nlink - 1 } := by
      refine (congrFun (congrArg View.di hv) i).trans ?_
      simp [View.modDi, Efs.view]
    split at h
    · split at h
      · obtain ⟨rfl, rfl⟩ := ok_prod_inj h
        refine .inl ⟨by decide, ?_⟩
        rw [view_modDi, hv]
        simp [View.modDi]
      · simp only [bind_eq_ok] at h
        obtain ⟨st₂, htrunc, sb, hfree, h⟩ := h
        obtain ⟨rfl, rfl⟩ := ok_prod_inj h
        obtain ⟨sb₂, ⟨sb₁, h₁, h₂⟩, hv₂⟩ := view_efsITrunc htrunc
        have hno : (st₂.inode i).di.no = (st.inode i).di.no := by
          have := congrFun (congrArg View.di hv₂) i
          rw [hv] at this
          simpa [View.modDi, View.iSdirty, Efs.view] using congrArg DInode.no this
        have hsb : st₂.sb = sb₂ := congrArg View.sb hv₂
        rw [hv] at h₁ h₂ hv₂
        rw [hno, hsb] at hfree
        refine .inr (.inr ⟨rfl, sb₂, sb, ⟨sb₁, ?_, h₂⟩, hfree, ?_⟩)
        · simpa [View.modDi] using h₁
        · change { st₂.view with sb := sb } = _
          rw [hv₂]
          simp [View.release, View.modDi, View.iSdirty]
    · next hlink =>
      obtain ⟨rfl, rfl⟩ := ok_prod_inj h
      refine .inr (.inl ⟨rfl, fun hone => hlink ?_, hv⟩)
      rw [hdi, hone]
      rfl

theorem view_efsDRemove (h : efsDRemove st d = .ok st') :
    ∃ p pi, (st.dentry d).parent = some p ∧ (st.dentry p).inode = some pi ∧
      st'.view = st.view.remove d p pi := by
  rw [efsDRemove] at h
  split at h
  · cases h
  · next p hp =>
    simp only at h
    split at h
    · cases h
    · next pi hpi =>
      obtain rfl := Except.ok.inj h
      refine ⟨p, pi, hp, by simpa using hpi, ?_⟩
      rw [view_efsDSdirty, view_modDi, view_modDentry fun _ => rfl]
      rfl

theorem view_setName (g : (ℕ → BitVec 8) → ℕ → BitVec 8) :
    (st.modDentry d fun x => { x with dd := { x.dd with name := g x.dd.name } }).view =
      st.view.rename d (g (st.dentry d).dd.name) := by
  rw [view_modDentry fun _ => rfl]
  rfl

end RiscvLab.Fs
