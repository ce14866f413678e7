import RiscvLab.Fs.Mount
import RiscvLab.Fs.View
import RiscvLab.Library.Reachable

/-!
# Creating, unlinking and renaming from a fresh disk

The operations of the file system on the directory tree of `RiscvLab.Fs.Tree`. On a disk that has
just been formatted and mounted, every inode that an entry refers to is in memory, and the entries
of a directory are never read from the disk.

What each call does is said once, as a relation between the views before and after
(`View.Creates`, `View.Removes`, `View.Renames`). The tree is one of a view in which the sizes of
some inodes may be hidden: those of files change when they are written.

## Main definitions

* `View.tree` : the tree of a view.
* `View.Creates`, `View.Removes`, `View.Renames` : what the calls do.
* `Live` : the entries that can be reached from the root.
* `DirStep` : the calls of `efs_d_creat`, `efs_d_unlink` and `efs_d_rename`.
* `DirConsistent` : the sizes of directories, the names, the inode numbers and the inode bitmap fit.

## Main results

* `treeInv_step` : every call keeps the tree sound.
* `dirConsistent_of_reachable`

Source: `fs/easyfs/dentry.c`, lines 99–155 and 268–380; `fs/easyfs/inode.c`, lines 330–398.
-/

namespace RiscvLab.Fs

open Library

/-! ### The tree of a view -/

/-- What is seen of the size of an inode depends on its type and its size, and an empty file is seen
as one. -/
structure SizeView (σ : DInode → BitVec 32) : Prop where
  congr : ∀ x y : DInode, x.type = y.type → x.size = y.size → σ x = σ y
  zero : ∀ x : DInode, x.size = 0 → σ x = 0

theorem sizeView_size : SizeView DInode.size := ⟨fun _ _ _ h => h, fun _ h => h⟩

namespace View

variable {σ : DInode → BitVec 32} {v v' : View} {d e i p pi k : ℕ}

/-- The size of an inode is seen as it is. -/
def Seen (σ : DInode → BitVec 32) (v : View) (i : ℕ) : Prop :=
  ∀ x : DInode, x.type = (v.di i).type → σ x = x.size

/-- The sizes of directories are seen as they are. -/
def SeesDirs (σ : DInode → BitVec 32) (v : View) : Prop :=
  ∀ d i, (v.tree σ).Linked d → (v.entry d).dd.type = .fDir → v.find (v.ino d) = some i →
    v.Seen σ i

theorem seesDirs_size : v.SeesDirs DInode.size := fun _ _ _ _ _ _ _ => rfl

theorem tree_load (full : Bool) : (v.load d i full).tree σ = (v.tree σ).load d i full := rfl

theorem tree_modDi {f : DInode → DInode} (hno : (f (v.di i)).no = (v.di i).no)
    (hσ : σ (f (v.di i)) = σ (v.di i)) : (v.modDi i f).tree σ = v.tree σ := by
  simp only [tree, Tree.mk.injEq]
  exact ⟨rfl, rfl, rfl, funext (modDi_congr DInode.no hno), funext (modDi_congr σ hσ), rfl, rfl⟩

theorem tree_modSize {f : BitVec 32 → BitVec 32} (h : v.Seen σ i) :
    (v.modDi i fun x => { x with size := f x.size }).tree σ = (v.tree σ).modSize i f := by
  simp only [tree, modDi, Tree.modSize, Tree.mk.injEq, true_and, and_true]
  constructor <;> funext j <;> by_cases hj : j = i
  · subst hj
    simp
  · simp [hj]
  · subst hj
    simp [h { v.di j with size := f (v.di j).size } rfl, h (v.di j) rfl]
  · simp [hj]

theorem tree_create {sb : Super} {type : FileType} {name : ℕ → BitVec 8} (hσ : SizeView σ)
    (hpi : pi < v.inodes) (hseen : v.Seen σ pi) (himap : sb.imap = v.sb.imap.grab k) :
    (v.create p pi k sb type name).tree σ = (v.tree σ).create p pi k type name := by
  have hne : pi ≠ v.inodes := hpi.ne
  have hseen' : ((((v.addInode k sb).modDi v.inodes fun x => { x with type := type }).iSdirty
      v.inodes).addEntry p ⟨BitVec.ofNat 32 k, type, name⟩).Seen σ pi := by
    intro x hx
    refine hseen x (hx.trans ?_)
    simp [addEntry, iSdirty, modDi, addInode, hne]
  have hno : ((v.addInode k sb).di v.inodes).no = BitVec.ofNat 32 k := by simp [addInode]
  have hnew : (((v.addInode k sb).modDi v.inodes fun x => { x with type := type }).iSdirty
      v.inodes).tree σ = (v.tree σ).addInode k := by
    simp only [tree, iSdirty, modDi, addInode, Tree.addInode, himap, Tree.mk.injEq, true_and,
      and_true, Function.update_self, Function.update_idem]
    constructor <;> funext j <;> by_cases hj : j = v.inodes
    · subst hj
      simp
    · simp [hj]
    · subst hj
      simp [hσ.zero]
    · simp [hj]
  have hsize := tree_modSize (f := (· + 24)) hseen'
  rw [create, enter, hno]
  refine hsize.trans ?_
  rw [Tree.create, ← hnew]
  rfl

theorem tree_release {sb : Super} (hσ : SizeView σ)
    (himap : sb.imap = v.sb.imap.drop (v.di i).no.toNat) :
    (v.release i sb).tree σ = (v.tree σ).release i ((v.tree σ).no i).toNat := by
  simp only [tree, release, iSdirty, modDi, Tree.release, Tree.modSize, himap, Tree.mk.injEq,
    true_and, and_true]
  constructor <;> funext j <;> by_cases hj : j = i
  · subst hj
    simp
  · simp [hj]
  · subst hj
    simp [hσ.zero]
  · simp [hj]

theorem tree_remove (hseen : v.Seen σ pi) :
    (v.remove d p pi).tree σ = (v.tree σ).remove d p pi := by
  have h := tree_modSize (v := v.modEntry p fun x => { x with child := x.child.erase d })
    (f := (· - 24)) hseen
  exact h.trans rfl

/-! ### What the calls do -/

/-- What `efs_d_creat` does in the directory `d`. -/
inductive Creates (v : View) (d : ℕ) (type : FileType) : View → Prop
  | same : Creates v d type v
  | load {pi : ℕ} (hdir : (v.entry d).dd.type = .fDir) (hf : v.find (v.ino d) = some pi) :
    Creates v d type (v.load d pi true)
  | create {pi k : ℕ} {sb : Super} {name : ℕ → BitVec 8} (hdir : (v.entry d).dd.type = .fDir)
    (hf : v.find (v.ino d) = some pi) (halloc : efsImapAlloc v.sb = .ok ((k : ℤ), sb))
    (hname : ∀ c ∈ (v.entry d).child, chars (v.entry c).dd.name dirMaxlen ≠ chars name dirMaxlen) :
    Creates v d type ((v.load d pi true).create d pi k sb type name)

/-- What `efs_d_unlink` does to the entry `d`, which is in the directory `p`. -/
inductive Removes (v : View) (d : ℕ) : View → Prop
  | same : Removes v d v
  | load {i : ℕ} {full : Bool} (hfull : full = true → (v.entry d).dd.type = .fDir)
    (hf : v.find (v.ino d) = some i) : Removes v d (v.load d i full)
  | unlink {i p pi : ℕ} {full : Bool} (hfull : full = true → (v.entry d).dd.type = .fDir)
    (hf : v.find (v.ino d) = some i) (hp : p < v.dentries) (hd : d ∈ (v.entry p).child)
    (hpi : (v.entry p).inode = some pi) (hempty : (v.entry d).child = [])
    (hlink : (v.di i).nlink ≠ 1) :
    Removes v d (((v.load d i full).modDi i fun x => { x with nlink := x.nlink - 1 }).remove d p pi)
  | release {i p pi : ℕ} {full : Bool} {sb sb' : Super}
    (hfull : full = true → (v.entry d).dd.type = .fDir) (hf : v.find (v.ino d) = some i)
    (hp : p < v.dentries) (hd : d ∈ (v.entry p).child) (hpi : (v.entry p).inode = some pi)
    (hempty : (v.entry d).child = []) (hfree : FreesBlocks v i sb)
    (himap : efsImapFree sb (v.di i).no.toInt = .ok sb') :
    Removes v d (((v.load d i full).release i sb').remove d p pi)

/-- What `efs_d_rename` does to the entry `d`, which is in the directory `p`. -/
inductive Renames (v : View) (d : ℕ) : View → Prop
  | same : Renames v d v
  | rename {i p : ℕ} {name : ℕ → BitVec 8} (hf : v.find (v.ino d) = some i) (hp : p < v.dentries)
    (hd : d ∈ (v.entry p).child)
    (hname : ∀ c ∈ (v.entry p).child, chars (v.entry c).dd.name dirMaxlen ≠ chars name dirMaxlen) :
    Renames v d ((v.load d i false).rename d name)

end View

namespace View

variable {σ : DInode → BitVec 32} {v v' : View} {d e i p pi k : ℕ}

theorem load_entry (full : Bool) (e : ℕ) : ((v.load d i full).entry e).dd = (v.entry e).dd ∧
    ((v.load d i full).entry e).child = (v.entry e).child ∧
      ((v.load d i full).entry e).parent = (v.entry e).parent :=
  Tree.load_entry (t := v.tree DInode.size) full e

theorem load_entry_of_ne {full : Bool} (h : e ≠ d) : (v.load d i full).entry e = v.entry e :=
  Function.update_of_ne h ..

theorem Removes.of_load (hdir : (v.entry d).dd.type = .fDir) (hf : v.find (v.ino d) = some i)
    (h : (v.load d i true).Removes d v') : v.Removes d v' := by
  have hentry := load_entry (v := v) (d := d) (i := i) true
  have hino : (v.load d i true).ino d = v.ino d := by rw [ino, ino, (hentry d).1]
  have hfind : ∀ j, (v.load d i true).find ((v.load d i true).ino d) = some j → j = i := by
    intro j hj
    rw [hino] at hj
    exact Option.some.inj (hj.symm.trans hf)
  -- the directory of `d` is another one, since `d` is empty
  have hother : ∀ q, (v.entry d).child = [] → d ∈ (v.entry q).child → q ≠ d := by
    rintro q hempty hq rfl
    rw [hempty] at hq
    cases hq
  cases h with
  | same => exact .load (fun _ => hdir) hf
  | load hfull hf' =>
    obtain rfl := hfind _ hf'
    rw [load_load]
    exact .load (fun _ => hdir) hf
  | unlink hfull hf' hp hd hpi hempty hlink =>
    obtain rfl := hfind _ hf'
    rw [(hentry _).2.1] at hd hempty
    rw [load_entry_of_ne (hother _ hempty hd)] at hpi
    rw [load_load]
    exact .unlink (fun _ => hdir) hf hp hd hpi hempty hlink
  | release hfull hf' hp hd hpi hempty hfree himap =>
    obtain rfl := hfind _ hf'
    rw [(hentry _).2.1] at hd hempty
    rw [load_entry_of_ne (hother _ hempty hd)] at hpi
    rw [load_load]
    exact .release (fun _ => hdir) hf hp hd hpi hempty hfree himap

end View

section Effects

variable {st st' : Efs} {d j : ℕ} {σ : DInode → BitVec 32}

theorem ne_of_findChild {name : ℕ → BitVec 8} (h : findChild st d name = none) :
    ∀ c ∈ (st.dentry d).child,
      chars (st.dentry c).dd.name dirMaxlen ≠ chars name dirMaxlen := by
  intro c hc
  have hne := List.find?_eq_none.1 h c hc
  rwa [decide_eq_true_iff, efsDNamecmp, strncmp_eq_zero_iff] at hne

variable (hI : (st.view.tree σ).Inv)

include hI

theorem find_efsDInode (hd : (st.view.tree σ).Linked d) (h : efsDInode st d = .ok (j, st')) :
    st.view.find (st.view.ino d) = some j ∧ st'.view = st.view.load d j false := by
  obtain ⟨i, hf, -⟩ := hI.found d hd
  obtain ⟨rfl, hv⟩ := view_efsDInode hf (fun k hk => by
    have := (hI.cached d (hI.lt_dentries hd) k hk).2.1 hd
    exact Option.some.inj (this.symm.trans hf)) h
  exact ⟨hf, hv⟩

theorem find_efsDLoad (hsees : st.view.SeesDirs σ) (hd : (st.view.tree σ).Linked d)
    (hdir : (st.dentry d).dd.type = .fDir) (h : efsDLoad st d = .ok st') :
    ∃ i, st.view.find (st.view.ino d) = some i ∧ st'.view = st.view.load d i true := by
  obtain ⟨i, hf, hs⟩ := hI.found d hd
  refine ⟨i, hf, view_efsDLoad hf (fun hfilled => ?_) (fun hfilled => ?_) h⟩
  · obtain ⟨k, hk, -⟩ := hI.sized d (hI.lt_dentries hd) hfilled
    have := (hI.cached d (hI.lt_dentries hd) k hk).2.1 hd
    exact hk.trans (this.symm.trans hf)
  · rw [← hs hfilled]
    exact (hsees d i hd hdir hf _ rfl).symm

theorem creates_efsDCreat {name : ℕ → BitVec 8} {type : FileType} {r : Option ℕ}
    (hsees : st.view.SeesDirs σ) (hd : (st.view.tree σ).Linked d)
    (h : efsDCreat st (some d) name type = .ok (r, st')) : st.view.Creates d type st'.view := by
  simp only [efsDCreat] at h
  split at h
  · obtain ⟨-, rfl⟩ := ok_prod_inj h
    exact .same
  · next hdir =>
    simp only [efsDNameCheck, bind_eq_ok, Prod.exists] at h
    obtain ⟨r₁, st₁, ⟨st₂, hload, hfind⟩, h⟩ := h
    obtain ⟨rfl, rfl⟩ := ok_prod_inj hfind
    obtain ⟨pi, hf, hv⟩ := find_efsDLoad hI hsees hd (not_not.1 hdir) hload
    have hentry : ∀ e, (st₂.dentry e).dd = (st.dentry e).dd ∧
        (st₂.dentry e).child = (st.dentry e).child := fun e => by
      have := View.load_entry (v := st.view) (d := d) (i := pi) true e
      rw [← hv] at this
      exact ⟨this.1, this.2.1⟩
    split at h
    · obtain ⟨-, rfl⟩ := ok_prod_inj h
      rw [hv]
      exact .load (not_not.1 hdir) hf
    · next hnone =>
      simp only [bind_eq_ok, Prod.exists] at h
      obtain ⟨i, st₃, hnew, h⟩ := h
      have hsb : st₂.sb = st.sb := congrArg View.sb hv
      have hdentries : st₂.dentries = st.dentries := congrArg View.dentries hv
      obtain ⟨rfl, k, sb, halloc, hv₃⟩ := view_efsINew (by rw [hsb]; exact hI.bound) hnew
      have hdentries₃ : st₃.dentries = st₂.dentries := congrArg View.dentries hv₃
      obtain ⟨pi', name', hpi', hname, -, hv'⟩ := view_efsDCreatEntry
        (by rw [hdentries₃, hdentries]; exact hI.lt_dentries hd) h
      have hpi : (st₃.view.entry d).inode = some pi := by
        rw [hv₃, hv]
        simp [View.addInode, View.load, View.modEntry]
      obtain rfl := Option.some.inj (hpi.symm.trans hpi')
      rw [hv', hv₃, hv]
      rw [hsb] at halloc
      have hinodes : st₂.inodes = (st.view.load d pi true).inodes := congrArg View.inodes hv
      rw [hinodes]
      refine .create (not_not.1 hdir) hf halloc fun c hc => ?_
      have := ne_of_findChild (not_not.1 hnone) c (by rw [(hentry d).2]; exact hc)
      rw [(hentry c).1] at this
      rwa [hname]

theorem removes_efsDUnlinkEmpty (hd : (st.view.tree σ).Linked d) (hempty : (st.dentry d).child = [])
    (h : efsDUnlinkEmpty st d = .ok st') : st.view.Removes d st'.view := by
  have hfull : false = true → (st.view.entry d).dd.type = .fDir := fun h => by cases h
  rw [efsDUnlinkEmpty] at h
  split at h
  · obtain rfl := Except.ok.inj h
    exact .same
  · simp only [bind_eq_ok, Prod.exists] at h
    obtain ⟨i, st₁, hinode, st₂, hput, r, st₃, hunlink, h⟩ := h
    obtain ⟨hf, hv₁⟩ := find_efsDInode hI hd hinode
    have hv₂ : st₂.view = st.view.load d i false := (view_efsIPut hput).trans hv₁
    split at h
    · next hr =>
      obtain ⟨p, pi, hp, hpi, hv⟩ := view_efsDRemove h
      -- neither parents nor recorded inodes are changed by `efs_i_unlink`
      have hentry : st₃.view.entry = (st.view.load d i false).entry := by
        rcases efsIUnlink_cases hunlink with ⟨hr', -⟩ | ⟨-, -, hv₃⟩ | ⟨-, sb, sb', -, -, hv₃⟩
        · exact absurd hr hr'
        · rw [hv₃, hv₂]
          rfl
        · rw [hv₃, hv₂]
          rfl
      have hp' : (st.view.entry d).parent = some p := by
        rw [← (View.load_entry (i := i) false d).2.2, ← hentry]
        exact hp
      obtain ⟨hq, hqd⟩ : p < st.view.dentries ∧ d ∈ (st.view.entry p).child :=
        hI.mem_child_of_parent hd hp'
      have hdp : p ≠ d := by
        rintro rfl
        rw [show (st.view.entry p).child = [] from hempty] at hqd
        cases hqd
      have hpi' : (st.view.entry p).inode = some pi := by
        have hload : ((st.view.load d i false).entry p).inode = (st.view.entry p).inode :=
          congrArg Dentry.inode (View.load_entry_of_ne hdp)
        rw [← hload, ← hentry]
        exact hpi
      rcases efsIUnlink_cases hunlink with
        ⟨hr', -⟩ | ⟨-, hlink, hv₃⟩ | ⟨-, sb, sb', hfree, himap, hv₃⟩
      · exact absurd hr hr'
      · have hdi : (st₂.inode i).di = st.view.di i := congrFun (congrArg View.di hv₂) i
        rw [hdi] at hlink
        rw [hv, hv₃, hv₂]
        exact .unlink hfull hf hq hqd hpi' hempty hlink
      · have hdi : (st₂.inode i).di = st.view.di i := congrFun (congrArg View.di hv₂) i
        rw [hdi] at himap
        rw [hv₂] at hfree
        rw [hv, hv₃, hv₂]
        exact .release hfull hf hq hqd hpi' hempty hfree himap
    · next hr =>
      obtain rfl := Except.ok.inj h
      rcases efsIUnlink_cases hunlink with ⟨-, hv₃⟩ | ⟨hr', -⟩ | ⟨hr', -⟩
      · rw [hv₃, hv₂]
        exact .load hfull hf
      · exact absurd hr' hr
      · exact absurd hr' hr

theorem removes_efsDUnlink (hsees : st.view.SeesDirs σ) (hd : (st.view.tree σ).Linked d)
    (h : efsDUnlink st (some d) = .ok st') : st.view.Removes d st'.view := by
  simp only [efsDUnlink] at h
  split at h
  · next hdir =>
    obtain ⟨st₁, hload, h⟩ := bind_eq_ok.1 h
    obtain ⟨i, hf, hv⟩ := find_efsDLoad hI hsees hd hdir hload
    refine .of_load hdir hf ?_
    rw [← hv]
    split at h
    · obtain rfl := Except.ok.inj h
      exact .same
    · next hempty =>
      have hI₁ : (st₁.view.tree σ).Inv := by
        rw [hv, View.tree_load]
        exact hI.load hd hf fun _ => hdir
      refine removes_efsDUnlinkEmpty hI₁ ?_ (not_not.1 hempty) h
      rw [hv, View.tree_load, Tree.linked_load]
      exact hd
  · next hdir =>
    have hunfilled : (st.view.entry d).filled = false := by
      by_contra hfilled
      exact hdir (hI.dir d (hI.lt_dentries hd) (Bool.eq_true_of_not_eq_false hfilled))
    exact removes_efsDUnlinkEmpty hI hd (hI.unfilled d (hI.lt_dentries hd) hunfilled) h

theorem renames_efsDRename {name : ℕ → BitVec 8} (hd : (st.view.tree σ).Linked d)
    (h : efsDRename st d name = .ok st') : st.view.Renames d st'.view := by
  rw [efsDRename] at h
  split at h
  · cases h
  · next p hp =>
    have hp' : (st.view.entry d).parent = some p := hp
    obtain ⟨hq, hqd⟩ : p < st.view.dentries ∧ d ∈ (st.view.entry p).child :=
      hI.mem_child_of_parent hd hp'
    have hfilled : (st.dentry p).filled = true := hI.filled_of_child hq hqd
    simp only [efsDNameCheck, efsDLoad, hfilled, if_true, bind_eq_ok, Prod.exists] at h
    obtain ⟨r, st₁, ⟨st₂, hst₂, hr⟩, h⟩ := h
    obtain rfl := Except.ok.inj hst₂
    obtain ⟨rfl, rfl⟩ := ok_prod_inj hr
    split at h
    · obtain rfl := Except.ok.inj h
      exact .same
    · next hnone =>
      simp only [bind_eq_ok, Prod.exists] at h
      obtain ⟨i, st₁, hinode, h⟩ := h
      obtain ⟨hf, hv₁⟩ := find_efsDInode hI hd hinode
      split at h
      · cases h
      · rw [view_efsIPut h, view_setName fun name' => (strncpy name' 0 name dirMaxlen).1, hv₁]
        refine .rename hf hq hqd fun c hc => ?_
        rw [chars_strncpy]
        exact ne_of_findChild (not_not.1 hnone) c hc

end Effects

/-! ### The calls keep the tree sound -/

namespace View

variable {σ : DInode → BitVec 32} {v v' : View} {d i p pi : ℕ} {type : FileType}

theorem Creates.inv (hσ : SizeView σ) (hI : (v.tree σ).Inv) (hsees : v.SeesDirs σ)
    (hd : (v.tree σ).Linked d) (h : v.Creates d type v') : (v'.tree σ).Inv := by
  cases h with
  | same => exact hI
  | load hdir hf =>
    rw [tree_load]
    exact hI.load hd hf fun _ => hdir
  | @create pi k sb name hdir hf halloc hname =>
    obtain ⟨k', hk', hclear, hle, himap, -⟩ := efsImapAlloc_cases halloc
    obtain rfl := Int.ofNat.inj hk'
    rw [tree_create (v := v.load d pi true) hσ (hI.find_lt hf) (hsees d pi hd hdir hf) himap,
      tree_load]
    have hentry := Tree.load_entry (t := v.tree σ) (d := d) (i := pi) true
    refine (hI.load hd hf fun _ => hdir).create (Tree.linked_load.2 hd) ?_ ?_ hclear hle ?_
    · simp [Tree.load, Tree.modEntry]
    · simp [Tree.load, Tree.modEntry]
    · rw [(hentry d).2.1]
      intro hmem
      obtain ⟨c, hc, hkey⟩ := List.mem_map.1 hmem
      rw [Tree.key, (hentry c).1] at hkey
      exact hname c hc hkey

/-- The size of the inode of a directory with an entry is seen. -/
theorem SeesDirs.seen_of_child (hsees : v.SeesDirs σ) (hI : (v.tree σ).Inv) (hp : p < v.dentries)
    (hd : d ∈ (v.entry p).child) (hpi : (v.entry p).inode = some pi) : v.Seen σ pi := by
  have hlinked := hI.linked p hp (List.ne_nil_of_mem hd)
  exact hsees p pi hlinked (hI.dir p hp (hI.filled_of_child hp hd))
    ((hI.cached p hp pi hpi).2.1 hlinked)

theorem Seen.modDi {f : DInode → DInode} (hf : (f (v.di i)).type = (v.di i).type)
    (h : v.Seen σ pi) : (v.modDi i f).Seen σ pi := by
  intro x hx
  exact h x (hx.trans (modDi_congr DInode.type hf pi))

theorem Removes.inv (hσ : SizeView σ) (hI : (v.tree σ).Inv) (hsees : v.SeesDirs σ)
    (hd : (v.tree σ).Linked d) (h : v.Removes d v') : (v'.tree σ).Inv := by
  cases h with
  | same => exact hI
  | load hfull hf =>
    rw [tree_load]
    exact hI.load hd hf hfull
  | @unlink i p pi full hfull hf hp hdp hpi hempty hlink =>
    have hseen := hsees.seen_of_child hI hp hdp hpi
    obtain ⟨hdp', hpi', hempty'⟩ := Tree.load_child (t := v.tree σ) (i := i) full hdp hpi hempty
    rw [tree_remove (Seen.modDi (v := v.load d i full) rfl hseen),
      tree_modDi (v := v.load d i full) rfl (hσ.congr _ _ rfl rfl), tree_load]
    exact (hI.load hd hf hfull).remove hp hdp' hpi' hempty'
  | @release i p pi full sb sb' hfull hf hp hdp hpi hempty hfree himap =>
    have hseen := hsees.seen_of_child hI hp hdp hpi
    obtain ⟨hdp', hpi', hempty'⟩ := Tree.load_child (t := v.tree σ) (i := i) full hdp hpi hempty
    have hdrop := efsImapFree_cases himap
    rw [hfree.imap] at hdrop
    have hseen' : ((v.load d i full).release i sb').Seen σ pi :=
      Seen.modDi (v := v.load d i full) (f := fun x => { x with nlink := x.nlink - 1, size := 0 })
        rfl hseen
    rw [tree_remove hseen', tree_release (v := v.load d i full) hσ hdrop, tree_load]
    refine (hI.load hd hf hfull).unlink hp hdp' hpi' hempty' ?_
    rw [Tree.ino, (Tree.load_entry full d).1]
    exact hf

theorem Renames.inv (hI : (v.tree σ).Inv) (hd : (v.tree σ).Linked d) (h : v.Renames d v') :
    (v'.tree σ).Inv := by
  cases h with
  | same => exact hI
  | @rename i p name hf hp hdp hname =>
    have hentry := Tree.load_entry (t := v.tree σ) (d := d) (i := i) false
    change (((v.tree σ).load d i false).rename d name).Inv
    refine (hI.load hd hf (by simp)).rename (p := p) hp ?_ ?_
    · rw [(hentry p).2.1]
      exact hdp
    · rw [(hentry p).2.1]
      intro hmem
      obtain ⟨c, hc, hkey⟩ := List.mem_map.1 hmem
      rw [Tree.key, (hentry c).1] at hkey
      exact hname c hc hkey

end View

/-! ### Mounting -/

section Mount

variable {disk : Disk} {diskSize : ℕ} {ipages bpages : ℕ → BitVec 64} {v : View}

/-- A disk has just been formatted and mounted: the root directory is empty, and nothing is to be
written back. -/
structure View.Mounted (v : View) (disk : Disk) (diskSize : ℕ) (ipages bpages : ℕ → BitVec 64) :
    Prop where
  fits : Fits diskSize
  pos : 0 < inodeCount diskSize
  le : blockAreaStart diskSize ≤ blockSize
  sb : v.sb = mounted disk ipages bpages diskSize
  inodes : v.inodes = 1
  di : v.di 0 = .read (formatted disk diskSize) (inodeAreaStart diskSize * blockSize + 4 * 32)
  indir : v.indir 0 = none
  ihash : ∀ b, v.ihash b = if b = 1 then [0] else []
  idirty : v.idirty = []
  dentries : v.dentries = 1
  entry : v.entry 0 = { rootDentry with inode := some 0, filled := true }
  ddirty : v.ddirty = []
  disk : v.disk = formatted disk diskSize

theorem view_efsDRootInit {st st' : Efs} (hno : (st.inode 0).di.no = 1)
    (hsize : (st.inode 0).di.size = 0) (hihash : ∀ b, st.ihash b = if b = 1 then [0] else [])
    (h : efsDRootInit st = .ok st') :
    st'.view = { st.view with
      entry := Function.update st.view.entry 0 { rootDentry with inode := some 0, filled := true }
      dentries := 1 } := by
  simp only [efsDRootInit, bind_eq_ok] at h
  obtain ⟨st₁, hfill, h⟩ := h
  obtain rfl := Except.ok.inj h
  generalize hst : ({ st with
    dentry := Function.update st.dentry 0 rootDentry, dentries := 1 } : Efs) = st₀ at hfill
  have hview : st₀.view = { st.view with
      entry := Function.update st.view.entry 0 rootDentry, dentries := 1 } := by
    simp only [← hst, Efs.view, View.mk.injEq, true_and, and_true]
    funext d
    by_cases hd : d = 0
    · subst hd
      simp [rootDentry]
    · simp [hd]
  have hfind : st₀.view.find (st₀.view.ino 0) = some 0 := by
    have hino : st₀.view.ino 0 = 1 := by simp [hview, View.ino, rootDentry]
    have hbucket : st₀.view.ihash 1 = [0] := by
      rw [hview]
      exact (hihash 1).trans (if_pos rfl)
    have hno₀ : (st₀.view.di 0).no = 1 := by
      rw [hview]
      exact hno
    rw [hino]
    change (st₀.view.ihash 1).find? _ = _
    rw [hbucket]
    simp [hno₀]
  have hv := view_efsDFill (d := 0) (i := 0) hfind (by simp [← hst, hsize]) hfill
  have hinode : (st₁.view.entry 0).inode = some 0 := by
    rw [hv]
    simp [View.load, View.modEntry]
  refine (view_setFilled hinode hv).trans ?_
  rw [hview]
  simp [View.load, View.modEntry, rootDentry]

theorem view_efsIRootInit {st st' : Efs} (h : efsIRootInit st = .ok st') :
    st'.view = { st.view with
      inodes := 1
      di := Function.update st.view.di 0 (.read st.disk (inodeAddr st.sb.ds 1))
      indir := Function.update st.view.indir 0 none
      ihash := Function.update st.ihash 1 (0 :: st.ihash 1) } := by
  have hihash := (efsIRootInit_cases h).2.2.2.1
  simp only [efsIRootInit] at h
  split at h
  · cases h
  · obtain rfl := Except.ok.inj h
    simp only [Efs.view, View.mk.injEq]
    refine ⟨rfl, rfl, rfl, rfl, ?_, ?_, hihash, rfl, rfl, rfl, rfl⟩
    · funext i
      by_cases hi : i = 0
      · subst hi
        simp [efsIAddsb]
      · simp [efsIAddsb, hi]
    · funext i
      by_cases hi : i = 0
      · subst hi
        simp [efsIAddsb]
      · simp [efsIAddsb, hi]

theorem mounted_efsMount {st : Efs} {dev : BitVec 16} {junk : ℕ → ℕ → BitVec 8} {disk' : Disk}
    (hmkfs : mkfs disk diskSize = some disk') (hfits : MapsFit disk')
    (h : efsMount disk' dev ipages bpages junk = .ok st) :
    st.view.Mounted disk diskSize ipages bpages := by
  rw [mkfs] at hmkfs
  split at hmkfs
  · cases hmkfs
  next hlt =>
  obtain rfl := Option.some.inj hmkfs
  have hbs : blockSize = 4096 := rfl
  obtain ⟨-, h₂, h₃⟩ := layout_eqs diskSize
  have hn : blockMapStart diskSize < 2 ^ 20 := by omega
  rw [mapsFit_formatted (by omega)] at hfits
  simp only [efsMount, bind_eq_ok] at h
  obtain ⟨sb, hsb, st₁, hroot, h⟩ := h
  rw [efsSbInit_formatted (by omega)] at hsb
  obtain rfl := Except.ok.inj hsb
  have hview := view_efsIRootInit hroot
  obtain ⟨-, hinode, hno, hihash, -⟩ := efsIRootInit_cases hroot
  simp only [Efs.blank] at hinode hno hihash
  rw [mounted_ds, inodeAddr_easySb hn] at hinode hno
  have hpos : 0 < inodeCount diskSize := by
    by_contra h₀
    rw [DInode.read, no_rootInode hfits (by omega)] at hno
    cases hno
  have hsize : word32 (formatted disk diskSize) (inodeAreaStart diskSize * blockSize + 4 * 35) =
      0 := word32_rootInode hn (inodeAreaBlocks_pos hfits hpos) (by decide)
  have hbuckets (b : ℕ) : st₁.ihash b = if b = 1 then [0] else [] := by
    rw [hihash, Function.update_apply]
  have hv := view_efsDRootInit (by rw [hinode]; exact hno)
    (by rw [hinode, DInode.read, ← hsize]) hbuckets h
  exact
    { fits := hfits
      pos := hpos
      le := by omega
      sb := (congrArg View.sb hv).trans (congrArg View.sb hview)
      inodes := (congrArg View.inodes hv).trans (congrArg View.inodes hview)
      di := (congrFun (congrArg View.di hv) 0).trans (congrArg MInode.di hinode)
      indir := (congrFun (congrArg View.indir hv) 0).trans (congrArg MInode.indir hinode)
      ihash := fun b => (congrFun (congrArg View.ihash hv) b).trans (hbuckets b)
      idirty := (congrArg View.idirty hv).trans (congrArg View.idirty hview)
      dentries := congrArg View.dentries hv
      entry := by simp [hv]
      ddirty := (congrArg View.ddirty hv).trans (congrArg View.ddirty hview)
      disk := (congrArg View.disk hv).trans (congrArg View.disk hview) }

/-- A word of the root inode on a disk that has just been mounted. -/
theorem View.Mounted.word32_root (h : v.Mounted disk diskSize ipages bpages) {w : ℕ}
    (hw : w < rootInode.length) : word32 (formatted disk diskSize)
      (inodeAreaStart diskSize * blockSize + 4 * w) = rootInode[w] := by
  have hle := h.le
  have hbs : blockSize = 4096 := rfl
  obtain ⟨-, -, h₃⟩ := layout_eqs diskSize
  exact word32_rootInode (by omega) (inodeAreaBlocks_pos h.fits h.pos) hw

theorem View.Mounted.no_root (h : v.Mounted disk diskSize ipages bpages) : (v.di 0).no = 1 := by
  rw [h.di]
  exact h.word32_root (w := 32) (by decide)

theorem View.Mounted.size_root (h : v.Mounted disk diskSize ipages bpages) :
    (v.di 0).size = 0 := by
  rw [h.di]
  exact h.word32_root (w := 35) (by decide)

/-- The bitmap of the inode numbers after mount. -/
theorem imap_mounted (ipages bpages : ℕ → BitVec 64) (hfits : Fits diskSize)
    (hlt : blockAreaStart diskSize < 2 ^ 20) (hpos : 0 < inodeCount diskSize) :
    (mounted disk ipages bpages diskSize).imap.test 1 = true ∧
      (mounted disk ipages bpages diskSize).imap.size ≤ 2 ^ 15 := by
  have hbit : (rawImap disk ipages diskSize).test 1 = true := by
    rw [test_rawImap hlt (inodeMapBlocks_eq_one hfits hpos) (by decide)]
    rfl
  obtain ⟨hsize, htest⟩ := @test_bitmapResetAllo (rawImap disk ipages diskSize) 1 1 (.inr hbit)
  rw [mounted_imap, test_bitmapResetUnused, bitmapResetUnused_size, hsize, htest, rawImap_size]
  exact ⟨hbit, (inodeCount_lt hfits hpos).le⟩

theorem View.Mounted.inv {σ : DInode → BitVec 32} (h : v.Mounted disk diskSize ipages bpages)
    (hσ : SizeView σ) : (v.tree σ).Inv := by
  have hbs : blockSize = 4096 := rfl
  have hle := h.le
  obtain ⟨-, -, h₃⟩ := layout_eqs diskSize
  obtain ⟨hbit, hbound⟩ := @imap_mounted disk diskSize ipages bpages h.fits (by omega) h.pos
  have hino : (v.tree σ).ino 0 = 1 := by
    change (v.entry 0).dd.ino = 1
    rw [h.entry, rootDentry]
  refine Tree.inv_root (i := 0) h.dentries ?_ ?_ ?_ ?_ ?_ ?_ ?_ ?_ ?_ ?_
  · change (v.entry 0).inode = some 0
    rw [h.entry]
  · change (v.entry 0).parent = none
    rw [h.entry, rootDentry]
  · change (v.entry 0).child = []
    rw [h.entry, rootDentry]
  · change (v.entry 0).dd.type = .fDir
    rw [h.entry, rootDentry]
  · rw [hino]
    change (v.ihash 1).find? (fun i => (v.di i).no = 1) = some 0
    simp [h.ihash, h.no_root]
  · change 0 < v.inodes
    rw [h.inodes]
    exact Nat.one_pos
  · exact hσ.zero _ h.size_root
  · rw [hino]
    change v.sb.imap.test 1 = true
    rw [h.sb]
    exact hbit
  · change v.sb.imap.size ≤ 2 ^ 15
    rw [h.sb]
    exact hbound
  · intro b j hj
    change j ∈ v.ihash b at hj
    change j < v.inodes
    rw [h.ihash] at hj
    rw [h.inodes]
    split at hj
    · rw [List.mem_singleton.1 hj]
      exact Nat.one_pos
    · cases hj

end Mount

/-! ### Runs -/

/-- The entries that can be reached from the root. -/
inductive Live (st : Efs) : ℕ → Prop
  | root : Live st 0
  | child {p c : ℕ} (hp : Live st p) (hc : c ∈ (st.dentry p).child) : Live st c

/-- The disk has been formatted and mounted, with bitmaps that fit into their pages. -/
def Efs.FreshOn (disk : Disk) (st : Efs) : Prop :=
  ∃ diskSize disk' dev ipages bpages junk, mkfs disk diskSize = some disk' ∧ MapsFit disk' ∧
    efsMount disk' dev ipages bpages junk = .ok st

/-- A file system that has just been formatted and mounted. -/
def Efs.Fresh (st : Efs) : Prop := ∃ disk, st.FreshOn disk

/-- A blank disk has been formatted and mounted. -/
def Efs.FreshBlank (st : Efs) : Prop := st.FreshOn fun _ => 0

theorem Efs.FreshOn.mounted {disk : Disk} {st : Efs} (h : st.FreshOn disk) :
    ∃ diskSize ipages bpages, st.view.Mounted disk diskSize ipages bpages := by
  obtain ⟨diskSize, disk', dev, ipages, bpages, junk, hmkfs, hfits, hmount⟩ := h
  exact ⟨diskSize, ipages, bpages, mounted_efsMount hmkfs hfits hmount⟩

theorem Efs.FreshBlank.fresh {st : Efs} (h : st.FreshBlank) : st.Fresh := ⟨_, h⟩

/-- The calls that change directories. -/
inductive DirEvent
  | creat (pd : ℕ) (name : ℕ → BitVec 8) (type : FileType)
  | unlink (d : ℕ)
  | rename (d : ℕ) (name : ℕ → BitVec 8)

/-- A call for an entry that can be reached from the root, and that returns. -/
def DirStep (st : Efs) : DirEvent → Efs → Prop
  | .creat pd name type, st' => Live st pd ∧ ∃ r, efsDCreat st (some pd) name type = .ok (r, st')
  | .unlink d, st' => Live st d ∧ efsDUnlink st (some d) = .ok st'
  | .rename d name, st' => Live st d ∧ efsDRename st d name = .ok st'

/-- The sizes of directories, the names, the inode numbers and the inode bitmap fit together. -/
structure DirConsistent (st : Efs) : Prop where
  size : ∀ d < st.dentries, (st.dentry d).filled = true → ∃ i, (st.dentry d).inode = some i ∧
    (st.inode i).di.size.toNat = 24 * (st.dentry d).child.length
  names : ∀ d < st.dentries, (st.dentry d).child.Pairwise fun a b =>
    efsDNamecmp (st.dentry a).dd.name (st.dentry b).dd.name ≠ 0
  allocated : ∀ d, Live st d → st.sb.imap.test (st.dentry d).dd.ino.toNat = true
  distinct : ∀ d e, Live st d → Live st e →
    (st.dentry d).dd.ino = (st.dentry e).dd.ino → d = e

theorem Live.linked {st : Efs} (hI : st.tree.Inv) {d : ℕ} (h : Live st d) : st.tree.Linked d := by
  induction h with
  | root => exact .inl rfl
  | child _ hc ih => exact .inr ⟨_, hI.lt_dentries ih, hc⟩

/-- Every call keeps the tree sound, because it adds, removes or renames an entry of the tree, or
leaves the tree as it is. -/
theorem treeInv_step {st st' : Efs} {e : DirEvent} (hI : st.tree.Inv) (h : DirStep st e st') :
    st'.tree.Inv := by
  have hI' : (st.view.tree DInode.size).Inv := hI
  cases e with
  | creat pd name type =>
    obtain ⟨hlive, r, h⟩ := h
    have hd := hlive.linked hI
    have hcreates := creates_efsDCreat hI' View.seesDirs_size hd h
    exact hcreates.inv sizeView_size hI' View.seesDirs_size hd
  | unlink d =>
    have hd := h.1.linked hI
    have hremoves := removes_efsDUnlink hI' View.seesDirs_size hd h.2
    exact hremoves.inv sizeView_size hI' View.seesDirs_size hd
  | rename d name =>
    have hd := h.1.linked hI
    exact (renames_efsDRename hI' hd h.2).inv hI' hd

theorem treeInv_of_reachable {st : Efs} (h : Reachable Efs.Fresh DirStep st) : st.tree.Inv := by
  refine h.invariant ?_ fun _ _ _ hI hs => treeInv_step hI hs
  rintro st ⟨disk, hfresh⟩
  obtain ⟨diskSize, ipages, bpages, hmounted⟩ := hfresh.mounted
  exact hmounted.inv sizeView_size

/-! ### Runs that are executed -/

/-- A call for the root directory or one of its entries is executed. -/
def DirEvent.exec (st : Efs) : DirEvent → Except Panic Efs
  | .creat pd name type =>
    if pd = 0 ∨ pd ∈ (st.dentry 0).child then do
      let (_, st) ← efsDCreat st (some pd) name type
      .ok st
    else .error .null
  | .unlink d => if d ∈ (st.dentry 0).child then efsDUnlink st (some d) else .error .null
  | .rename d name => if d ∈ (st.dentry 0).child then efsDRename st d name else .error .null

theorem dirStep_exec {st st' : Efs} {ev : DirEvent} (h : ev.exec st = .ok st') :
    DirStep st ev st' := by
  have hlive (d : ℕ) (hd : d ∈ (st.dentry 0).child) : Live st d := .child .root hd
  cases ev with
  | creat pd name type =>
    rw [DirEvent.exec] at h
    split at h
    · next hpd =>
      obtain ⟨⟨r, st₁⟩, hcreat, h⟩ := bind_eq_ok.1 h
      obtain rfl := Except.ok.inj h
      refine ⟨?_, r, hcreat⟩
      rcases hpd with rfl | hpd
      · exact .root
      · exact hlive pd hpd
    · cases h
  | unlink d =>
    rw [DirEvent.exec] at h
    split at h
    · next hd => exact ⟨hlive d hd, h⟩
    · cases h
  | rename d name =>
    rw [DirEvent.exec] at h
    split at h
    · next hd => exact ⟨hlive d hd, h⟩
    · cases h

/-- A blank disk of 400 blocks, formatted and mounted. -/
def mount400 : Except Panic Efs :=
  efsMount (formatted (fun _ => 0) (400 * 4096)) 0 (fun _ => 0) (fun _ => 0) fun _ _ => 0

theorem freshBlank_mount400 {st : Efs} (h : mount400 = .ok st) : st.FreshBlank := by
  have ha : blockAreaStart (400 * 4096) = 5 := by decide
  refine ⟨400 * 4096, _, _, _, _, _, ?_, ?_, h⟩
  · rw [mkfs, ha]
    exact if_neg (by decide)
  · rw [mapsFit_formatted (by rw [ha]; decide)]
    exact ⟨by decide, by decide⟩

/-- A run on the disk of 400 blocks is executed, and `p` holds at its end. -/
def endsWith (run : Efs → Except Panic Efs) (p : Efs → Bool) : Bool :=
  match mount400 >>= run with
  | .ok st => p st
  | .error _ => false

theorem exists_of_endsWith {run : Efs → Except Panic Efs} {p : Efs → Bool}
    (h : endsWith run p = true) :
    ∃ st₀ st, Efs.FreshBlank st₀ ∧ run st₀ = .ok st ∧ p st = true := by
  rw [endsWith] at h
  split at h
  · next st hrun =>
    obtain ⟨st₀, hmount, hrun⟩ := bind_eq_ok.1 hrun
    exact ⟨st₀, st, freshBlank_mount400 hmount, hrun, h⟩
  · cases h

/-! ### Consistency -/

/-- In every state of every run from a fresh disk, the size of a directory whose children have been
read is that of its entries, their names are different, and the entries that can be reached from the
root have different inode numbers, which are allocated. -/
theorem dirConsistent_of_reachable {st : Efs} (h : Reachable Efs.Fresh DirStep st) :
    DirConsistent st := by
  have hI := treeInv_of_reachable h
  refine ⟨hI.sized, fun d hd => ?_, fun d hd => hI.bit d (hd.linked hI), fun d e hd he =>
    hI.inj d e (hd.linked hI) (he.linked hI)⟩
  have hnames := List.pairwise_map.1 (hI.names d hd)
  refine hnames.imp fun hne heq => hne ?_
  exact strncmp_eq_zero_iff.1 heq

/-- The file `a` is created and removed again; the directory `b` is created, and the file `x` in it;
then `b` is renamed. -/
theorem dirConsistent_five_calls : ∃ st, Reachable Efs.Fresh DirStep st ∧
    (st.dentry 0).child = [2] ∧ (st.dentry 2).child = [3] ∧
      chars (st.dentry 2).dd.name dirMaxlen = [99] ∧ DirConsistent st := by
  have hends : endsWith (List.foldlM DirEvent.exec · [.creat 0 (cstr [97]) .fReg, .unlink 1,
      .creat 0 (cstr [98]) .fDir, .creat 2 (cstr [120]) .fReg, .rename 2 (cstr [99])])
      (fun st => (st.dentry 0).child = [2] ∧ (st.dentry 2).child = [3] ∧
        chars (st.dentry 2).dd.name dirMaxlen = [99]) = true := by decide +kernel
  obtain ⟨st₀, st, hfresh, hrun, hend⟩ := exists_of_endsWith hends
  obtain ⟨hroot, hchild, hname⟩ := of_decide_eq_true hend
  have hreach : Reachable Efs.Fresh DirStep st :=
    .foldlM (fun _ _ _ => dirStep_exec) hrun (.start hfresh.fresh)
  exact ⟨st, hreach, hroot, hchild, hname, dirConsistent_of_reachable hreach⟩

end RiscvLab.Fs
