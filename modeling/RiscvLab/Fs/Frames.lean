import Mathlib.Algebra.Group.Pi.Lemmas
import RiscvLab.Fs.Dentry
import RiscvLab.Library.Int32

/-!
# What the operations leave alone

Two relations between the states before and after a call. `Loads D δ` is that of a call that reads
from the disk: the contents of the inodes in memory, the superblock and the disk are the same, more
inodes and entries may be in memory, and only the entries in `D` may have had their inode looked up.
`Keeps I δ` is that of a call that changes the contents of the inodes in `I`. In both, `δ` is by how
much the reference counts have changed.

Reference counts are taken to be between 0 and `2 ^ 31 - 2`, so that the one reference that a call
takes for its own time does not overflow. Then no call fails in `efs_i_put` (`Panic.Balanced`).

## Main definitions

* `Efs.Wf` : pointers lead to objects in memory, and parents come before their children.
* `Efs.refs`, `Efs.RefsOk`
* `Loads`, `Keeps`

## Main results

* `efsIGet_spec`, `efsIRead_spec`, `efsIWrite_spec`, `efsIUnlink_spec`
-/

namespace RiscvLab.Fs

open Library

/-- The panics that callers who balance their references may meet. -/
def Panic.Balanced (p : Panic) : Prop := p ≠ .iPut ∧ p ≠ .fileDup ∧ p ≠ .fileClose

instance (p : Panic) : Decidable p.Balanced := inferInstanceAs (Decidable (_ ∧ _ ∧ _))

/-- Pointers lead to objects in memory, and parents are allocated before their children. -/
structure Efs.Wf (st : Efs) : Prop where
  root : 0 < st.inodes ∧ 0 < st.dentries
  ihash : ∀ b, ∀ i ∈ st.ihash b, i < st.inodes
  dhash : ∀ b, ∀ d ∈ st.dhash b, d < st.dentries
  inode : ∀ d < st.dentries, ∀ i, (st.dentry d).inode = some i → i < st.inodes
  parent : ∀ d < st.dentries, ∀ p, (st.dentry d).parent = some p → p < d
  child : ∀ d < st.dentries, ∀ c ∈ (st.dentry d).child, c < st.dentries

/-- The reference counts of the inodes in memory. -/
def Efs.refs (st : Efs) (i : ℕ) : BitVec 32 := if i < st.inodes then (st.inode i).refcnt else 0

/-- One more reference to each inode can be taken. -/
def Efs.RefsOk (st : Efs) : Prop :=
  ∀ i, 0 ≤ (st.refs i).toInt ∧ (st.refs i).toInt < 2 ^ 31 - 1

/-- What a call that reads from the disk leaves alone. -/
structure Loads (D : Set ℕ) (δ : ℕ → BitVec 32) (st st' : Efs) : Prop where
  wf : st'.Wf
  inodes : st.inodes ≤ st'.inodes
  dentries : st.dentries ≤ st'.dentries
  refs : st'.refs = st.refs + δ
  di : ∀ i < st.inodes, (st'.inode i).di = (st.inode i).di
  sb : st'.sb = st.sb
  disk : st'.disk = st.disk
  parent : ∀ d < st.dentries, (st'.dentry d).parent = (st.dentry d).parent
  inode : ∀ d < st.dentries, d ∉ D → (st'.dentry d).inode = (st.dentry d).inode

/-- What a call that changes the inodes in `I` leaves alone. -/
structure Keeps (I : Set ℕ) (δ : ℕ → BitVec 32) (st st' : Efs) : Prop where
  wf : st'.Wf
  inodes : st.inodes ≤ st'.inodes
  dentries : st.dentries ≤ st'.dentries
  refs : st'.refs = st.refs + δ
  di : ∀ i < st.inodes, i ∉ I → (st'.inode i).di = (st.inode i).di

section

variable {D D' I : Set ℕ} {δ δ' : ℕ → BitVec 32} {st st₁ st' : Efs}

theorem Loads.refl (h : st.Wf) : Loads D 0 st st :=
  ⟨h, le_rfl, le_rfl, (add_zero _).symm, fun _ _ => rfl, rfl, rfl, fun _ _ => rfl,
    fun _ _ _ => rfl⟩

theorem Loads.mono (h : Loads D δ st st') (hD : D ⊆ D') : Loads D' δ st st' :=
  { h with inode := fun d hd hn => h.inode d hd fun hmem => hn (hD hmem) }

theorem Loads.trans (h : Loads D δ st st₁) (h' : Loads D δ' st₁ st') :
    Loads D (δ + δ') st st' where
  wf := h'.wf
  inodes := h.inodes.trans h'.inodes
  dentries := h.dentries.trans h'.dentries
  refs := by rw [h'.refs, h.refs, add_assoc]
  di i hi := (h'.di i (hi.trans_le h.inodes)).trans (h.di i hi)
  sb := h'.sb.trans h.sb
  disk := h'.disk.trans h.disk
  parent d hd := (h'.parent d (hd.trans_le h.dentries)).trans (h.parent d hd)
  inode d hd hn := (h'.inode d (hd.trans_le h.dentries) hn).trans (h.inode d hd hn)

theorem Loads.keeps (h : Loads D δ st st') : Keeps I δ st st' :=
  ⟨h.wf, h.inodes, h.dentries, h.refs, fun i hi _ => h.di i hi⟩

theorem Keeps.trans (h : Keeps I δ st st₁) (h' : Keeps I δ' st₁ st') :
    Keeps I (δ + δ') st st' where
  wf := h'.wf
  inodes := h.inodes.trans h'.inodes
  dentries := h.dentries.trans h'.dentries
  refs := by rw [h'.refs, h.refs, add_assoc]
  di i hi hn := (h'.di i (hi.trans_le h.inodes) hn).trans (h.di i hi hn)

theorem Keeps.mono {I' : Set ℕ} (h : Keeps I δ st st') (hI : I ⊆ I') : Keeps I' δ st st' :=
  { h with di := fun i hi hn => h.di i hi fun hmem => hn (hI hmem) }

theorem Efs.RefsOk.congr (h : st.RefsOk) (hrefs : st'.refs = st.refs) : st'.RefsOk := by
  intro i
  rw [hrefs]
  exact h i

end

/-! ### Changes of one object -/

section Objects

variable {st : Efs} {i d : ℕ} {D I : Set ℕ}

theorem refs_modInode {f : MInode → MInode} (hi : i < st.inodes) :
    (st.modInode i f).refs =
      st.refs + Pi.single i ((f (st.inode i)).refcnt - (st.inode i).refcnt) := by
  funext j
  by_cases hj : j = i
  · subst hj
    simp [Efs.refs, hi]
  · simp [Efs.refs, Efs.modInode_inode_of_ne hj, hj]

theorem refs_modInode_of_eq {f : MInode → MInode}
    (h : (f (st.inode i)).refcnt = (st.inode i).refcnt) : (st.modInode i f).refs = st.refs := by
  funext j
  by_cases hj : j = i
  · subst hj
    simp [Efs.refs, h]
  · simp [Efs.refs, Efs.modInode_inode_of_ne hj]

theorem wf_modInode {f : MInode → MInode} (h : st.Wf) : (st.modInode i f).Wf :=
  ⟨h.root, h.ihash, h.dhash, h.inode, h.parent, h.child⟩

theorem loads_modInode {f : MInode → MInode} (h : st.Wf) (hi : i < st.inodes)
    (hdi : (f (st.inode i)).di = (st.inode i).di) :
    Loads D (Pi.single i ((f (st.inode i)).refcnt - (st.inode i).refcnt)) st
      (st.modInode i f) where
  wf := wf_modInode h
  inodes := le_rfl
  dentries := le_rfl
  refs := refs_modInode hi
  di j _ := by
    by_cases hj : j = i
    · subst hj
      simp [hdi]
    · rw [Efs.modInode_inode_of_ne hj]
  sb := rfl
  disk := rfl
  parent _ _ := rfl
  inode _ _ _ := rfl

theorem keeps_modDi {f : DInode → DInode} (h : st.Wf) (hi : i ∈ I) :
    Keeps I 0 st (st.modDi i f) where
  wf := wf_modInode h
  inodes := le_rfl
  dentries := le_rfl
  refs := by
    rw [Efs.modDi, refs_modInode_of_eq rfl, add_zero]
  di j _ hj := by
    have hne : j ≠ i := fun he => hj (he ▸ hi)
    rw [Efs.modDi, Efs.modInode_inode_of_ne hne]

theorem loads_setInode (h : st.Wf) (hi : i < st.inodes) (hd : d ∈ D) :
    Loads D 0 st (st.modDentry d fun x => { x with inode := some i }) where
  wf := by
    refine ⟨h.root, h.ihash, h.dhash, fun e he j hj => ?_, fun e he p hp => ?_, fun e he c hc => ?_⟩
    · by_cases hed : e = d
      · subst hed
        simp only [Efs.modDentry_dentry_self, Option.some.injEq] at hj
        exact hj ▸ hi
      · rw [Efs.modDentry_dentry_of_ne hed] at hj
        exact h.inode e he j hj
    · by_cases hed : e = d
      · subst hed
        exact h.parent e he p (by simpa using hp)
      · rw [Efs.modDentry_dentry_of_ne hed] at hp
        exact h.parent e he p hp
    · by_cases hed : e = d
      · subst hed
        exact h.child e he c (by simpa using hc)
      · rw [Efs.modDentry_dentry_of_ne hed] at hc
        exact h.child e he c hc
  inodes := le_rfl
  dentries := le_rfl
  refs := (add_zero _).symm
  di _ _ := rfl
  sb := rfl
  disk := rfl
  parent e _ := by
    by_cases hed : e = d
    · subst hed
      simp
    · rw [Efs.modDentry_dentry_of_ne hed]
  inode e _ hn := by
    have hed : e ≠ d := fun he => hn (he ▸ hd)
    rw [Efs.modDentry_dentry_of_ne hed]

theorem loads_modDentry {f : Dentry → Dentry} (h : st.Wf)
    (hinode : (f (st.dentry d)).inode = (st.dentry d).inode)
    (hparent : (f (st.dentry d)).parent = (st.dentry d).parent)
    (hchild : (f (st.dentry d)).child = (st.dentry d).child) :
    Loads D 0 st (st.modDentry d f) := by
  have hall : ∀ e, ((st.modDentry d f).dentry e).inode = (st.dentry e).inode ∧
      ((st.modDentry d f).dentry e).parent = (st.dentry e).parent ∧
        ((st.modDentry d f).dentry e).child = (st.dentry e).child := by
    intro e
    by_cases hed : e = d
    · subst hed
      simp [hinode, hparent, hchild]
    · simp [Efs.modDentry_dentry_of_ne hed]
  exact
    { wf :=
        { root := h.root
          ihash := h.ihash
          dhash := h.dhash
          inode := fun e he i hi => h.inode e he i (by rwa [(hall e).1] at hi)
          parent := fun e he p hp => h.parent e he p (by rwa [(hall e).2.1] at hp)
          child := fun e he c hc => h.child e he c (by rwa [(hall e).2.2] at hc) }
      inodes := le_rfl
      dentries := le_rfl
      refs := (add_zero _).symm
      di := fun _ _ => rfl
      sb := rfl
      disk := rfl
      parent := fun e _ => (hall e).2.1
      inode := fun e _ _ => (hall e).1 }

/-- An inode without references is read into memory. -/
theorem loads_addInode {st' : Efs} (h : st.Wf) (hinodes : st'.inodes = st.inodes + 1)
    (hold : ∀ j < st.inodes, st'.inode j = st.inode j) (hnew : (st'.inode st.inodes).refcnt = 0)
    (hihash : ∀ b, ∀ j ∈ st'.ihash b, j ∈ st.ihash b ∨ j = st.inodes)
    (hdhash : st'.dhash = st.dhash) (hdentry : st'.dentry = st.dentry)
    (hdentries : st'.dentries = st.dentries) (hsb : st'.sb = st.sb) (hdisk : st'.disk = st.disk) :
    Loads D 0 st st' where
  wf := by
    refine ⟨by rw [hinodes, hdentries]; exact ⟨by omega, h.root.2⟩, fun b j hj => ?_,
      ?_, ?_, ?_, ?_⟩
    · rw [hinodes]
      rcases hihash b j hj with hj | rfl
      · have := h.ihash b j hj
        omega
      · omega
    · rw [hdhash, hdentries]
      exact h.dhash
    · intro d hd j hj
      rw [hdentries] at hd
      rw [hdentry] at hj
      have := h.inode d hd j hj
      omega
    · rw [hdentry, hdentries]
      exact h.parent
    · rw [hdentry, hdentries]
      exact h.child
  inodes := by omega
  dentries := hdentries.ge
  refs := by
    funext j
    rw [add_zero, Efs.refs, Efs.refs, hinodes]
    rcases Nat.lt_trichotomy j st.inodes with hj | rfl | hj
    · rw [if_pos (by omega), if_pos hj, hold j hj]
    · rw [if_pos (by omega), if_neg (by omega), hnew]
    · rw [if_neg (by omega), if_neg (by omega)]
  di j hj := by rw [hold j hj]
  sb := hsb
  disk := hdisk
  parent _ _ := by rw [hdentry]
  inode _ _ _ := by rw [hdentry]

theorem keeps_setSb (sb : Super) (h : st.Wf) : Keeps I 0 st { st with sb := sb } :=
  ⟨⟨h.root, h.ihash, h.dhash, h.inode, h.parent, h.child⟩, le_rfl, le_rfl, (add_zero _).symm,
    fun _ _ _ => rfl⟩

theorem keeps_setDisk {disk : Disk} (h : st.Wf) : Keeps I 0 st { st with disk := disk } :=
  ⟨⟨h.root, h.ihash, h.dhash, h.inode, h.parent, h.child⟩, le_rfl, le_rfl, (add_zero _).symm,
    fun _ _ _ => rfl⟩

end Objects

/-! ### Inodes -/

section Inodes

variable {st : Efs} {i : ℕ} {D : Set ℕ}

theorem efsIDup_loads (h : st.Wf) (hi : i < st.inodes) :
    Loads D (Pi.single i 1) st (efsIDup st i) := by
  have hl := @loads_modInode st i D (fun x => { x with refcnt := x.refcnt + 1 }) h hi rfl
  rwa [add_sub_cancel_left] at hl

theorem efsIPut_spec (h : st.Wf) (hi : i < st.inodes) (hpos : 0 < (st.refs i).toInt) :
    Ensures Panic.Balanced (efsIPut st i) (Loads D (-Pi.single i 1) st) := by
  rw [Efs.refs, if_pos hi] at hpos
  rw [efsIPut, if_pos hpos]
  have hl := @loads_modInode st i D (fun x => { x with refcnt := x.refcnt - 1 }) h hi rfl
  rw [sub_sub_cancel_left, Pi.single_neg] at hl
  exact .ok hl

/-- The file system after the inode `ino` has been read into memory. -/
def Efs.withInode (st : Efs) (ino : BitVec 32) : Efs :=
  { st with
    inode := Function.update st.inode st.inodes
      ⟨.read st.disk (inodeAddr st.sb.ds ino), 0, false, true, none⟩
    inodes := st.inodes + 1
    ihash := Function.update st.ihash (ino.toNat % buckets)
      (st.inodes :: st.ihash (ino.toNat % buckets)) }

/-- An inode that is not in memory is read from the disk. -/
theorem efsIGet_of_none {ino : BitVec 32} (hf : hashFindInode st ino = none)
    (hpos : 0 < ino.toInt) :
    efsIGet st ino = .ok (st.inodes, efsIDup (st.withInode ino) st.inodes) := by
  simp only [efsIGet, if_neg (show ¬ ino.toInt < 0 by omega), hf, efsIFill,
    if_neg (show ¬ ino.toInt ≤ 0 by omega), bind, Except.bind]
  simp [efsIAlloc, efsIAddsb, Efs.modDi, Efs.modInode, Efs.withInode]

theorem withInode_loads {ino : BitVec 32} (h : st.Wf) : Loads D 0 st (st.withInode ino) := by
  refine loads_addInode h rfl (fun j hj => ?_) ?_ (fun b j hj => ?_) rfl rfl rfl rfl rfl
  · exact Function.update_of_ne hj.ne ..
  · simp [Efs.withInode]
  · by_cases hb : b = ino.toNat % buckets
    · subst hb
      simp only [Efs.withInode, Function.update_self, List.mem_cons] at hj
      exact hj.symm
    · simp only [Efs.withInode, Function.update_of_ne hb] at hj
      exact .inl hj

/-- The inode that `efs_i_get` returns has one reference more, whether it was in memory or is read
from the disk; the other inodes in memory stay as they are. -/
theorem efsIGet_spec {ino : BitVec 32} (h : st.Wf) :
    Ensures Panic.Balanced (efsIGet st ino) fun r =>
      r.1 < r.2.inodes ∧ Loads D (Pi.single r.1 1) st r.2 := by
  rcases hf : hashFindInode st ino with _ | i
  · by_cases hpos : 0 < ino.toInt
    · have hl : Loads D 0 st (st.withInode ino) := withInode_loads h
      have hlt : st.inodes < (st.withInode ino).inodes := Nat.lt_succ_self _
      have hdup := hl.trans (efsIDup_loads hl.wf hlt)
      rw [zero_add] at hdup
      rw [efsIGet_of_none hf hpos]
      exact .ok ⟨hlt, hdup⟩
    · rw [efsIGet]
      split
      · exact .error (by decide)
      · simp only [hf, efsIFill, if_pos (show ino.toInt ≤ 0 by omega)]
        exact .error (by decide)
  · have hi : i < st.inodes := h.ihash _ i (List.mem_of_find?_eq_some hf)
    rw [efsIGet]
    split
    · exact .error (by decide)
    · rw [hf]
      exact .ok ⟨hi, efsIDup_loads h hi⟩

theorem efsISdirty_keeps {I : Set ℕ} (h : st.Wf) : Keeps I 0 st (efsISdirty st i) := by
  have hrefs : (st.modInode i fun x => { x with dirty := true }).refs = st.refs :=
    refs_modInode_of_eq rfl
  have hk : ∀ l, Keeps I 0 st
      { st.modInode i (fun x => { x with dirty := true }) with idirty := l } := fun l =>
    { wf := ⟨h.root, h.ihash, h.dhash, h.inode, h.parent, h.child⟩
      inodes := le_rfl
      dentries := le_rfl
      refs := by
        rw [add_zero]
        exact hrefs
      di := fun j _ _ => by
        by_cases hj : j = i
        · subst hj
          simp
        · rw [Efs.modInode_inode_of_ne hj] }
  rw [efsISdirty]
  split
  · exact hk _
  · exact hk _

theorem di_efsISdirty {j : ℕ} : ((efsISdirty st i).inode j).di = (st.inode j).di := by
  have h : ((st.modInode i fun x => { x with dirty := true }).inode j).di = (st.inode j).di := by
    by_cases hj : j = i
    · subst hj
      simp
    · rw [Efs.modInode_inode_of_ne hj]
  rw [efsISdirty]
  split <;> exact h

theorem dentry_efsISdirty : (efsISdirty st i).dentry = st.dentry := by
  rw [efsISdirty]
  split <;> rfl

/-! ### Blocks of a file -/

/-- Looking a block up may read the indirect block. -/
theorem efsIBmap_loads {lbno : ℕ} (h : st.Wf) (hi : i < st.inodes) :
    Ensures Panic.Balanced (efsIBmap st i lbno false) fun r => Loads D 0 st r.2 := by
  have hl : ∀ f : MInode → MInode, (f (st.inode i)).di = (st.inode i).di →
      (f (st.inode i)).refcnt = (st.inode i).refcnt → Loads D 0 st (st.modInode i f) := by
    intro f hdi href
    have := @loads_modInode st i D f h hi hdi
    rwa [href, sub_self, Pi.single_zero] at this
  simp only [efsIBmap, efsIAddr, or_true, if_true, bind, Except.bind, and_true]
  split
  · exact .ok (.refl h)
  · split
    · split
      · exact .ok (.refl h)
      · rw [efsILoadIndir]
        split
        · exact .ok (.refl h)
        · exact .ok (hl (fun x => { x with indir := some _ }) rfl rfl)
    · exact .ok (.refl h)

/-- The inode `i` may have got blocks, and keeps its size. -/
structure Grows (i : ℕ) (st st' : Efs) : Prop extends Keeps {i} 0 st st' where
  size : (st'.inode i).di.size = (st.inode i).di.size

theorem Grows.refl (h : st.Wf) : Grows i st st :=
  ⟨(Loads.refl (D := ∅) h).keeps, rfl⟩

theorem Grows.trans {st₁ st' : Efs} (h : Grows i st st₁) (h' : Grows i st₁ st') :
    Grows i st st' := by
  have hk := h.toKeeps.trans h'.toKeeps
  rw [add_zero] at hk
  exact ⟨hk, h'.size.trans h.size⟩

theorem grows_setSb (sb : Super) (h : st.Wf) : Grows i st { st with sb := sb } :=
  ⟨keeps_setSb sb h, rfl⟩

theorem grows_modInode {f : MInode → MInode} (h : st.Wf)
    (href : (f (st.inode i)).refcnt = (st.inode i).refcnt)
    (hsize : (f (st.inode i)).di.size = (st.inode i).di.size) : Grows i st (st.modInode i f) where
  wf := wf_modInode h
  inodes := le_rfl
  dentries := le_rfl
  refs := by rw [refs_modInode_of_eq href, add_zero]
  di j _ hj := by rw [Efs.modInode_inode_of_ne hj]
  size := by rw [Efs.modInode_inode_self, hsize]

theorem efsBmapAlloc_spec {sb : Super} :
    Ensures Panic.Balanced (efsBmapAlloc sb) fun _ => True := by
  simp only [efsBmapAlloc]
  split
  · exact .error (by decide)
  · exact .ok trivial

theorem efsIAddr_spec {k : ℕ} {alloc : Bool} (h : st.Wf) :
    Ensures Panic.Balanced (efsIAddr st i k alloc) fun r => Grows i st r.2 := by
  simp only [efsIAddr]
  split
  · exact .ok (.refl h)
  · refine efsBmapAlloc_spec.bind fun r _ => .ok ?_
    have hsb : Grows i st { st with sb := r.2 } := grows_setSb _ h
    exact hsb.trans (grows_modInode (f := fun x => { x with di := { x.di with addrs := _ } })
      hsb.wf rfl rfl)

theorem efsILoadIndir_grows (bno : BitVec 32) (h : st.Wf) :
    Grows i st (efsILoadIndir st i bno).2 := by
  rw [efsILoadIndir]
  split
  · exact .refl h
  · exact grows_modInode (f := fun x => { x with indir := some _ }) h rfl rfl

/-- Allocating a block changes the inode, but not its size. -/
theorem efsIBmap_spec {lbno : ℕ} {alloc : Bool} (h : st.Wf) :
    Ensures Panic.Balanced (efsIBmap st i lbno alloc) fun r => Grows i st r.2 := by
  simp only [efsIBmap]
  split
  · exact efsIAddr_spec h
  · split
    · refine (efsIAddr_spec h).bind fun r hr => ?_
      split
      · exact .ok hr
      · have hload := hr.trans (efsILoadIndir_grows r.1 hr.wf)
        split
        · exact .ok hload
        · refine efsBmapAlloc_spec.bind fun r' _ => .ok ?_
          have hsb := hload.trans (grows_setSb r'.2 hload.wf)
          exact hsb.trans (grows_modInode (f := fun x => { x with indir := some _ })
            hsb.wf rfl rfl)
    · exact .ok (.refl h)

/-! ### Reading and writing -/

theorem efsIReadLoop_spec {fuel offset left : ℕ} (h : st.Wf) (hi : i < st.inodes) :
    Ensures Panic.Balanced (efsIReadLoop i fuel st offset left) fun r => Loads D 0 st r.2 := by
  induction fuel generalizing st offset left with
  | zero => exact .ok (.refl h)
  | succ fuel ih =>
    simp only [efsIReadLoop]
    split
    · exact .ok (.refl h)
    · refine (efsIBmap_loads (D := D) h hi).bind fun r hr => ?_
      split
      · exact .ok hr
      · refine (ih hr.wf (hi.trans_le hr.inodes)).bind fun r' hr' => .ok ?_
        have := hr.trans hr'
        rwa [add_zero] at this

/-- `efs_i_read` leaves the inodes and their references alone. It may read an indirect block, which
is then kept with the inode. -/
theorem efsIRead_spec {offset len : BitVec 32} (h : st.Wf) (hi : i < st.inodes) :
    Ensures Panic.Balanced (efsIRead st i offset len) fun r => Loads D 0 st r.2 := by
  simp only [efsIRead]
  split
  · exact .ok (.refl h)
  · exact efsIReadLoop_spec h hi

theorem efsIWriteLoop_spec {fuel offset : ℕ} {src : List (BitVec 8)} (h : st.Wf) :
    Ensures Panic.Balanced (efsIWriteLoop i fuel st offset src) fun r =>
      Grows i st r.2 ∧ offset ≤ r.1 ∧ r.1 ≤ offset + src.length := by
  induction fuel generalizing st offset src with
  | zero => exact .ok ⟨.refl h, le_rfl, by omega⟩
  | succ fuel ih =>
    simp only [efsIWriteLoop]
    split
    · exact .ok ⟨.refl h, le_rfl, by omega⟩
    · refine (efsIBmap_spec h).bind fun r hr => ?_
      split
      · exact .ok ⟨hr, le_rfl, by omega⟩
      · have hdisk : ∀ disk, Grows i st { r.2 with disk := disk } := fun disk =>
          hr.trans ⟨keeps_setDisk hr.wf, rfl⟩
        refine (ih (hdisk _).wf).mono fun r' hr' => ⟨(hdisk _).trans hr'.1, by omega, ?_⟩
        have hle := hr'.2.2
        rw [List.length_drop] at hle
        omega

/-- A write that is not refused leaves the size at the end of what has been written at least, and
within the maximum. -/
theorem efsIWrite_spec {offset len : BitVec 32} {vaddr : ℕ → BitVec 8} (h : st.Wf) :
    Ensures Panic.Balanced (efsIWrite st i offset len vaddr) fun r =>
      Keeps {i} 0 st r.2 ∧
        (r = (-1, st) ∨ ∃ last : ℕ, r.1 = last - offset.toNat ∧ offset.toNat ≤ last ∧
          last ≤ maxFileSize ∧
            (r.2.inode i).di.size.toNat = max (st.inode i).di.size.toNat last) := by
  have hrefl : Keeps {i} 0 st st := (Grows.refl h).toKeeps
  simp only [efsIWrite]
  split
  · exact .ok ⟨hrefl, .inl rfl⟩
  · rename_i hoff
    split
    · exact .ok ⟨hrefl, .inl rfl⟩
    · rename_i hmax
      have hend : (offset + len).toNat = offset.toNat + len.toNat := by
        rw [not_or, BitVec.not_lt, BitVec.not_lt, BitVec.le_def, BitVec.le_def] at hoff
        have := hoff.2
        rw [BitVec.toNat_add] at this ⊢
        omega
      rw [hend] at hmax
      refine (efsIWriteLoop_spec h).bind fun r hr => .ok ?_
      obtain ⟨hgrow, hle, hlast⟩ := hr
      rw [length_slice] at hlast
      have hkeep : Keeps {i} 0 st
          (if (r.2.inode i).di.size.toNat < r.1 then
            r.2.modDi i fun x => { x with size := BitVec.ofNat 32 r.1 } else r.2) := by
        split
        · have := hgrow.toKeeps.trans
            (keeps_modDi (f := fun x => { x with size := BitVec.ofNat 32 r.1 }) hgrow.wf rfl)
          rwa [add_zero] at this
        · exact hgrow.toKeeps
      have hdirty := hkeep.trans (efsISdirty_keeps (i := i) (I := {i}) hkeep.wf)
      rw [add_zero] at hdirty
      refine ⟨hdirty, .inr ⟨r.1, rfl, hle, by omega, ?_⟩⟩
      have hlt : r.1 < 2 ^ 32 := by
        have : maxFileSize < 2 ^ 32 := by decide
        omega
      rw [di_efsISdirty, ← hgrow.size]
      split
      · rw [Efs.modDi, Efs.modInode_inode_self, BitVec.toNat_ofNat, Nat.mod_eq_of_lt hlt]
        omega
      · omega

/-! ### Unlinking an inode -/

theorem efsBmapFree_spec {sb : Super} {bno : ℤ} :
    Ensures Panic.Balanced (efsBmapFree sb bno) fun _ => True := by
  rw [efsBmapFree]
  split
  · exact .error (by decide)
  · exact .ok trivial

theorem efsImapFree_spec {sb : Super} {ino : ℤ} :
    Ensures Panic.Balanced (efsImapFree sb ino) fun _ => True := by
  rw [efsImapFree]
  split
  · exact .error (by decide)
  · exact .ok trivial

theorem efsIFreeAddrs_spec {addr : ℕ → BitVec 32} {n k : ℕ} {sb : Super} :
    Ensures Panic.Balanced (efsIFreeAddrs addr n k sb) fun _ => True := by
  induction n generalizing k sb with
  | zero => exact .ok trivial
  | succ n ih =>
    rw [efsIFreeAddrs]
    split
    · exact .ok trivial
    · exact efsBmapFree_spec.bind fun _ _ => ih

theorem efsIDataFree_spec (h : st.Wf) :
    Ensures Panic.Balanced (efsIDataFree st i) fun st' =>
      Keeps {i} 0 st st' ∧ st'.dentry = st.dentry := by
  have hindir : ∀ indir sb, Ensures Panic.Balanced (efsIFreeIndir indir sb) fun _ => True := by
    intro indir sb
    rw [efsIFreeIndir.eq_def]
    split
    · exact efsIFreeAddrs_spec
    · exact .ok trivial
  exact efsIFreeAddrs_spec.bind fun _ _ => (hindir _ _).bind fun _ _ =>
    .ok ⟨keeps_setSb _ h, rfl⟩

theorem efsITrunc_spec (h : st.Wf) :
    Ensures Panic.Balanced (efsITrunc st i) fun st' =>
      Keeps {i} 0 st st' ∧ st'.dentry = st.dentry := by
  refine (efsIDataFree_spec h).bind fun st₁ h₁ => .ok ⟨?_, ?_⟩
  · have hsize := h₁.1.trans (keeps_modDi (f := fun x => { x with size := 0 }) h₁.1.wf rfl)
    have hdirty := hsize.trans (efsISdirty_keeps (i := i) (I := {i}) hsize.wf)
    rwa [add_zero, add_zero] at hdirty
  · rw [dentry_efsISdirty]
    exact h₁.2

/-- Only an inode without references is released; any other keeps its size and its blocks. -/
theorem efsIUnlink_spec (h : st.Wf) :
    Ensures Panic.Balanced (efsIUnlink st i) fun r => Keeps {i} 0 st r.2 ∧
      r.2.dentry = st.dentry ∧ (r.2.sb = st.sb ∧ (r.2.inode i).di.size = (st.inode i).di.size ∨
        (st.inode i).refcnt.toInt ≤ 0) := by
  have hmod : ∀ g : DInode → DInode, Keeps {i} 0 st (st.modDi i g) := fun g => keeps_modDi h rfl
  simp only [efsIUnlink]
  split
  · exact .ok ⟨(Grows.refl h).toKeeps, rfl, .inl ⟨rfl, rfl⟩⟩
  · have hdec := hmod fun x => { x with nlink := x.nlink - 1 }
    split
    · split
      · have hinc := hdec.trans
          (keeps_modDi (f := fun x => { x with nlink := x.nlink + 1 }) hdec.wf rfl)
        rw [add_zero] at hinc
        exact .ok ⟨hinc, rfl, .inl ⟨rfl, by simp [Efs.modDi]⟩⟩
      · rename_i href
        refine (efsITrunc_spec hdec.wf).bind fun st₁ h₁ => efsImapFree_spec.bind fun sb _ => .ok ?_
        have htrunc := hdec.trans h₁.1
        have hfree := htrunc.trans (keeps_setSb sb htrunc.wf)
        rw [add_zero, add_zero] at hfree
        refine ⟨hfree, h₁.2, .inr ?_⟩
        simpa [Efs.modDi] using href
    · exact .ok ⟨hdec, rfl, .inl ⟨rfl, by simp [Efs.modDi]⟩⟩

end Inodes

end RiscvLab.Fs
