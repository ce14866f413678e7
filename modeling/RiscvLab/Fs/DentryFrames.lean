import RiscvLab.Fs.Frames

/-!
# What the operations on entries leave alone

Each operation takes a reference to the inode of an entry for its own time and gives it back, so
that the reference counts are the same afterwards; only `efs_d_namei` keeps the reference. What an
entry finds on the disk does not change the inodes that are in memory already, apart from
`efs_d_write` and `efs_d_unlink`.

## Main definitions

* `Efs.parentInode` : the inode of the directory that an entry is in.
* `Unlinks` : what `efs_d_unlink` may do.

## Main results

* `efsDLoad_spec`, `efsDNamed_spec`, `efsDInode_spec`, `efsDNamei_spec`, `efsDRead_spec`,
  `efsDWrite_spec`, `efsDFsize_spec`, `efsDRename_spec`, `efsDUnlink_spec`
-/

namespace RiscvLab.Fs

open Library

section Entries

variable {st st₁ : Efs} {i d pd : ℕ} {D I : Set ℕ}

/-- A reference that is taken for the time of a call can be given back. -/
theorem pos_of_single (hok : st.RefsOk) (hrefs : st₁.refs = st.refs + Pi.single i 1) :
    0 < (st₁.refs i).toInt := by
  rw [hrefs, Pi.add_apply, Pi.single_eq_same, toInt_add_one (by have := hok i; omega)]
  have := hok i
  omega

theorem Loads.put (hok : st.RefsOk) (h : Loads D (Pi.single i 1) st st₁) (hi : i < st₁.inodes) :
    Ensures Panic.Balanced (efsIPut st₁ i) (Loads D 0 st) := by
  refine (efsIPut_spec (D := D) h.wf hi (pos_of_single hok h.refs)).mono fun st' h' => ?_
  have := h.trans h'
  rwa [add_neg_cancel] at this

theorem Keeps.put (hok : st.RefsOk) (h : Keeps I (Pi.single i 1) st st₁) (hi : i < st₁.inodes) :
    Ensures Panic.Balanced (efsIPut st₁ i) (Keeps I 0 st) := by
  refine (efsIPut_spec (D := ∅) h.wf hi (pos_of_single hok h.refs)).mono fun st' h' => ?_
  have := h.trans (h'.keeps (I := I))
  rwa [add_neg_cancel] at this

theorem Loads.trans_zero {δ : ℕ → BitVec 32} {st' : Efs} (h : Loads D δ st st₁)
    (h' : Loads D 0 st₁ st') : Loads D δ st st' := by
  have := h.trans h'
  rwa [add_zero] at this

theorem efsDAlloc_loads (h : st.Wf) : Loads D 0 st (efsDAlloc st).2 := by
  have hold : ∀ e < st.dentries, (efsDAlloc st).2.dentry e = st.dentry e := fun e he =>
    Function.update_of_ne he.ne ..
  have hnew : (efsDAlloc st).2.dentry st.dentries =
      ⟨.read (st.junk st.dentries), none, none, [], false, false⟩ := Function.update_self ..
  have hcases : ∀ e < (efsDAlloc st).2.dentries, e < st.dentries ∨ e = st.dentries := fun e he =>
    Nat.lt_succ_iff_lt_or_eq.mp he
  exact
    { wf :=
        { root := ⟨h.root.1, Nat.succ_pos _⟩
          ihash := h.ihash
          dhash := fun b e he => (h.dhash b e he).trans (Nat.lt_succ_self _)
          inode := fun e he j hj => by
            rcases hcases e he with he | rfl
            · exact h.inode e he j (by rwa [hold e he] at hj)
            · simp [hnew] at hj
          parent := fun e he p hp => by
            rcases hcases e he with he | rfl
            · exact h.parent e he p (by rwa [hold e he] at hp)
            · simp [hnew] at hp
          child := fun e he c hc => by
            rcases hcases e he with he | rfl
            · rw [hold e he] at hc
              exact (h.child e he c hc).trans (Nat.lt_succ_self _)
            · simp [hnew] at hc }
      inodes := le_rfl
      dentries := Nat.le_succ _
      refs := (add_zero _).symm
      di := fun _ _ => rfl
      sb := rfl
      disk := rfl
      parent := fun e he => by rw [hold e he]
      inode := fun e he _ => by rw [hold e he] }

theorem dentry_efsDConn (hne : pd ≠ d) (e : ℕ) : (efsDConn st d pd).dentry e =
    if e = pd then { st.dentry pd with child := (st.dentry pd).child ++ [d] }
    else if e = d then { st.dentry d with parent := some pd } else st.dentry e := by
  simp only [efsDConn, Efs.modDentry, Function.update_apply, if_neg hne]

theorem wf_efsDConn (h : st.Wf) (hd : d < st.dentries) (hpd : pd < d) : (efsDConn st d pd).Wf := by
  have hentry := @dentry_efsDConn st d pd hpd.ne
  refine ⟨h.root, h.ihash, h.dhash, fun e he j hj => ?_, fun e he p hp => ?_, fun e he c hc => ?_⟩
  · rw [hentry] at hj
    split_ifs at hj with h₁ h₂
    · exact h.inode pd (h₁ ▸ he) j hj
    · exact h.inode d (h₂ ▸ he) j hj
    · exact h.inode e he j hj
  · rw [hentry] at hp
    split_ifs at hp with h₁ h₂
    · exact h₁ ▸ h.parent pd (h₁ ▸ he) p hp
    · have : pd = p := Option.some.inj hp
      omega
    · exact h.parent e he p hp
  · rw [hentry] at hc
    split_ifs at hc with h₁ h₂
    · rcases List.mem_append.mp hc with hc | hc
      · exact h.child pd (h₁ ▸ he) c hc
      · exact List.mem_singleton.mp hc ▸ hd
    · exact h.child d (h₂ ▸ he) c hc
    · exact h.child e he c hc

theorem wf_efsDAddsb (h : st.Wf) (hd : d < st.dentries) : (efsDAddsb st d).Wf := by
  refine ⟨h.root, h.ihash, fun b e he => ?_, h.inode, h.parent, h.child⟩
  by_cases hb : b = strhash (st.dentry d).dd.name dirMaxlen % buckets
  · subst hb
    simp only [efsDAddsb, Function.update_self, List.mem_cons] at he
    rcases he with rfl | he
    · exact hd
    · exact h.dhash _ e he
  · simp only [efsDAddsb, Function.update_of_ne hb] at he
    exact h.dhash _ e he

/-- A new entry is put into a directory and into the hash table. -/
theorem loads_conn (h : Loads D 0 st st₁) (hd : st.dentries ≤ d) (hd' : d < st₁.dentries)
    (hpd : pd < st.dentries) : Loads D 0 st (efsDAddsb (efsDConn st₁ d pd) d) := by
  have hentry := @dentry_efsDConn st₁ d pd (by omega)
  refine { h with
    wf := wf_efsDAddsb (wf_efsDConn h.wf hd' (by omega)) hd'
    parent := fun e he => ?_
    inode := fun e he hn => ?_ }
  · change ((efsDConn st₁ d pd).dentry e).parent = _
    rw [hentry, ← h.parent e he]
    split_ifs with h₁ h₂
    · rw [h₁]
    · omega
    · rfl
  · change ((efsDConn st₁ d pd).dentry e).inode = _
    rw [hentry, ← h.inode e he hn]
    split_ifs with h₁ h₂
    · rw [h₁]
    · rw [h₂]
    · rfl

theorem efsDFillEntry_spec {k : ℕ} (h : st.Wf) (hi : i < st.inodes) (hpd : pd < st.dentries) :
    Ensures Panic.Balanced (efsDFillEntry st pd i k) (Loads D 0 st) := by
  have halloc : Loads D 0 st (efsDAlloc st).2 := efsDAlloc_loads h
  refine (efsIRead_spec (D := D) halloc.wf hi).bind fun r hr => .ok ?_
  have hread := halloc.trans_zero hr
  have hdd : Loads D 0 st (r.2.modDentry (efsDAlloc st).1 fun x =>
      { x with dd := .read (patch (r.2.junk (efsDAlloc st).1) 0 r.1) }) :=
    hread.trans_zero (loads_modDentry hread.wf rfl rfl rfl)
  exact loads_conn hdd le_rfl ((Nat.lt_succ_self _).trans_le hr.dentries) hpd

theorem efsDFillLoop_spec {n k : ℕ} (h : st.Wf) (hi : i < st.inodes) (hpd : pd < st.dentries) :
    Ensures Panic.Balanced (efsDFillLoop pd i n k st) (Loads D 0 st) := by
  induction n generalizing k st with
  | zero => exact .ok (.refl h)
  | succ n ih =>
    refine (efsDFillEntry_spec (D := D) h hi hpd).bind fun st₁ h₁ => ?_
    exact (ih h₁.wf (hi.trans_le h₁.inodes) (hpd.trans_le h₁.dentries)).mono fun st' h' =>
      h₁.trans_zero h'

theorem efsDFill_spec (h : st.Wf) (hok : st.RefsOk) (hpd : pd < st.dentries) (hD : pd ∈ D) :
    Ensures Panic.Balanced (efsDFill st pd) (Loads D 0 st) := by
  refine (efsIGet_spec (D := D) h).bind fun r hr => ?_
  obtain ⟨hi, hget⟩ := hr
  have hset := hget.trans_zero (loads_setInode hget.wf hi hD)
  refine (efsDFillLoop_spec (D := D) hset.wf hi (hpd.trans_le hset.dentries)).bind fun st' h' => ?_
  exact (hset.trans_zero h').put hok (hi.trans_le h'.inodes)

/-- `efs_d_load` gives back the reference that it takes to the inode of the directory, so that no
assertion about a counter fails, whether the children have been read before or not. -/
theorem efsDLoad_spec (h : st.Wf) (hok : st.RefsOk) (hpd : pd < st.dentries) (hD : pd ∈ D) :
    Ensures Panic.Balanced (efsDLoad st pd) (Loads D 0 st) := by
  rw [efsDLoad]
  split
  · exact .ok (.refl h)
  · refine (efsDFill_spec h hok hpd hD).bind fun st' h' => .ok ?_
    exact h'.trans_zero (loads_modDentry h'.wf rfl rfl rfl)

theorem findChild_lt {name : ℕ → BitVec 8} (h : st.Wf) (hpd : pd < st.dentries)
    (hd : findChild st pd name = some d) : d < st.dentries :=
  h.child pd hpd d (List.mem_of_find?_eq_some hd)

theorem efsDNameCheck_spec {name : ℕ → BitVec 8} (h : st.Wf) (hok : st.RefsOk)
    (hpd : pd < st.dentries) (hD : pd ∈ D) :
    Ensures Panic.Balanced (efsDNameCheck st pd name) fun r =>
      Loads D 0 st r.2 ∧ ∀ d, r.1 = some d → d < r.2.dentries := by
  refine (efsDLoad_spec h hok hpd hD).bind fun st' h' => .ok ⟨h', fun d hd => ?_⟩
  exact findChild_lt h'.wf (hpd.trans_le h'.dentries) hd

theorem efsDWalk_spec {name p : List (BitVec 8)} (h : st.Wf) (hok : st.RefsOk)
    (hd : d < st.dentries) :
    Ensures Panic.Balanced (efsDWalk d name p st) fun r =>
      Loads Set.univ 0 st r.2 ∧ ∀ d, r.1 = some d → d < r.2.dentries := by
  induction p generalizing d name st with
  | nil =>
    rw [efsDWalk]
    split
    · exact .ok ⟨.refl h, fun e he => Option.some.inj he ▸ hd⟩
    · exact efsDNameCheck_spec h hok hd (Set.mem_univ d)
  | cons c p ih =>
    rw [efsDWalk]
    split
    · refine (efsDNameCheck_spec h hok hd (Set.mem_univ d)).bind fun r hr => ?_
      obtain ⟨r, st₁⟩ := r
      obtain ⟨hload, hlt⟩ := hr
      cases r with
      | none => exact .ok ⟨hload, by simp⟩
      | some e =>
        have hok₁ : st₁.RefsOk := hok.congr (hload.refs.trans (add_zero _))
        exact (ih hload.wf hok₁ (hlt e rfl)).mono fun r hr => ⟨hload.trans_zero hr.1, hr.2⟩
    · exact ih h hok hd

/-- A lookup reads entries and inodes into memory, and keeps no reference to an inode, whether it
finds the entry or not. -/
theorem efsDNamed_spec {path : List (BitVec 8)} (h : st.Wf) (hok : st.RefsOk) :
    Ensures Panic.Balanced (efsDNamed st path) fun r =>
      Loads Set.univ 0 st r.2 ∧ ∀ d, r.1 = some d → d < r.2.dentries := by
  simp only [efsDNamed]
  split
  · rename_i e he
    exact .ok ⟨.refl h, fun d hd =>
      Option.some.inj hd ▸ h.dhash _ e (List.mem_of_find?_eq_some he)⟩
  · split
    · exact .error (by decide)
    · split
      · exact efsDWalk_spec h hok h.root.2
      · exact .error (by decide)

/-- The inode of an entry is looked up, if its pointer is not set yet, and the pointer is set. The
inode has one reference more, which is the caller's. -/
theorem efsDInode_spec (h : st.Wf) (hd : d < st.dentries) (hD : d ∈ D) :
    Ensures Panic.Balanced (efsDInode st d) fun r =>
      r.1 < r.2.inodes ∧ (r.2.dentry d).inode = some r.1 ∧ Loads D (Pi.single r.1 1) st r.2 := by
  rw [efsDInode.eq_def]
  split
  · rename_i i hi
    have hlt := h.inode d hd i hi
    exact .ok ⟨hlt, hi, efsIDup_loads h hlt⟩
  · refine (efsIGet_spec (D := D) h).bind fun r hr => .ok ?_
    exact ⟨hr.1, by simp, hr.2.trans_zero (loads_setInode hr.2.wf hr.1 hD)⟩

/-- `efs_d_namei` takes one reference, to the inode that it returns. It takes none if there is no
such entry. -/
theorem efsDNamei_spec {path : List (BitVec 8)} (h : st.Wf) (hok : st.RefsOk) :
    Ensures Panic.Balanced (efsDNamei st path) fun r =>
      (r.1 = none ∧ Loads Set.univ 0 st r.2) ∨
        ∃ i, r.1 = some i ∧ i < r.2.inodes ∧ Loads Set.univ (Pi.single i 1) st r.2 := by
  refine (efsDNamed_spec h hok).bind fun r hr => ?_
  obtain ⟨_ | d, st₁⟩ := r
  · exact .ok (.inl ⟨rfl, hr.1⟩)
  · refine (efsDInode_spec hr.1.wf (hr.2 d rfl) (Set.mem_univ d)).bind fun r' hr' => .ok ?_
    obtain ⟨hi, -, hload⟩ := hr'
    have := hr.1.trans hload
    rw [zero_add] at this
    exact .inr ⟨r'.1, rfl, hi, this⟩

section

variable (h : st.Wf) (hok : st.RefsOk) (hd : d < st.dentries)

include h hok hd

theorem efsDFsize_spec : Ensures Panic.Balanced (efsDFsize st d) fun r => Loads {d} 0 st r.2 := by
  refine (efsDInode_spec (D := {d}) h hd rfl).bind fun r hr => ?_
  exact (hr.2.2.put hok hr.1).bind fun st' h' => .ok h'

theorem efsDRename_spec {rename : ℕ → BitVec 8} :
    Ensures Panic.Balanced (efsDRename st d rename) (Loads Set.univ 0 st) := by
  rw [efsDRename.eq_def]
  split
  · exact .error (by decide)
  · rename_i pd hpd
    have hlt : pd < st.dentries := (h.parent d hd pd hpd).trans hd
    refine (efsDNameCheck_spec h hok hlt (Set.mem_univ pd)).bind fun r hr => ?_
    dsimp only
    split
    · exact .ok hr.1
    · refine (efsDInode_spec hr.1.wf (hd.trans_le hr.1.dentries) (Set.mem_univ d)).bind
        fun r' hr' => ?_
      split
      · exact .error (by decide)
      · have hget := hr.1.trans hr'.2.2
        rw [zero_add] at hget
        exact (hget.trans_zero (loads_modDentry hget.wf rfl rfl rfl)).put hok hr'.1

theorem efsDCache_spec :
    Ensures Panic.Balanced (efsDCache st d) fun r => r.1 < r.2.inodes ∧ Loads {d} 0 st r.2 := by
  rw [efsDCache.eq_def]
  split
  · rename_i i hi
    exact .ok ⟨h.inode d hd i hi, .refl h⟩
  · refine (efsIGet_spec (D := {d}) h).bind fun r hr => ?_
    have hset := hr.2.trans_zero (loads_setInode hr.2.wf hr.1 rfl)
    refine (efsIPut_spec (D := {d}) hset.wf hr.1 (pos_of_single hok hset.refs)).bind
      fun st' h' => .ok ⟨hr.1.trans_le h'.inodes, ?_⟩
    have := hset.trans h'
    rwa [add_neg_cancel] at this

/-- `efs_d_read` keeps no reference to the inode of the entry, since the one that it takes for the
time of the read is given back. -/
theorem efsDRead_spec {offset len : BitVec 32} :
    Ensures Panic.Balanced (efsDRead st (some d) offset len) fun r => Loads {d} 0 st r.2 := by
  refine (efsDCache_spec h hok hd).bind fun r hr => ?_
  have hdup := hr.2.trans (efsIDup_loads hr.2.wf hr.1)
  rw [zero_add] at hdup
  refine (efsIRead_spec (D := {d}) hdup.wf hr.1).bind fun r' hr' => ?_
  exact ((hdup.trans_zero hr').put hok (hr.1.trans_le hr'.inodes)).bind fun st' h' => .ok h'

theorem efsDWrite_spec {offset len : BitVec 32} {vaddr : ℕ → BitVec 8} :
    Ensures Panic.Balanced (efsDWrite st (some d) offset len vaddr) fun r =>
      Keeps Set.univ 0 st r.2 := by
  simp only [efsDWrite]
  split
  · exact .ok (Loads.refl (D := ∅) h).keeps
  · refine (efsDCache_spec h hok hd).bind fun r hr => ?_
    have hdup := hr.2.trans (efsIDup_loads hr.2.wf hr.1)
    rw [zero_add] at hdup
    refine (efsIWrite_spec hdup.wf).bind fun r' hr' => ?_
    have hwrite := (hdup.keeps (I := Set.univ)).trans (hr'.1.mono (Set.subset_univ _))
    rw [add_zero] at hwrite
    exact (hwrite.put hok (hr.1.trans_le hr'.1.inodes)).bind fun st' h' => .ok h'

end

/-! ### Unlinking an entry -/

/-- The inode of the directory that an entry is in. -/
def Efs.parentInode (st : Efs) (d : ℕ) : Set ℕ :=
  {j | ∃ pd, (st.dentry d).parent = some pd ∧ (st.dentry pd).inode = some j}

theorem efsDSdirty_keeps (h : st.Wf) : Keeps I 0 st (efsDSdirty st d) := by
  have hload : Loads ∅ 0 st (st.modDentry d fun x => { x with dirty := true }) :=
    loads_modDentry h rfl rfl rfl
  have hk : ∀ l, Keeps I 0 st
      { st.modDentry d (fun x => { x with dirty := true }) with ddirty := l } := fun l =>
    ⟨⟨h.root, h.ihash, h.dhash, hload.wf.inode, hload.wf.parent, hload.wf.child⟩, le_rfl, le_rfl,
      (add_zero _).symm, fun _ _ _ => rfl⟩
  rw [efsDSdirty]
  split
  · exact hk _
  · exact hk _

theorem inode_modDentry_of_eq {f : Dentry → Dentry} {e : ℕ}
    (h : (f (st.dentry e)).inode = (st.dentry e).inode) :
    ((st.modDentry e f).dentry d).inode = (st.dentry d).inode := by
  by_cases hd : d = e
  · subst hd
    rw [Efs.modDentry_dentry_self, h]
  · rw [Efs.modDentry_dentry_of_ne hd]

theorem inode_efsDSdirty {e : ℕ} :
    ((efsDSdirty st e).dentry d).inode = (st.dentry d).inode := by
  have h : ((st.modDentry e fun x => { x with dirty := true }).dentry d).inode =
      (st.dentry d).inode := inode_modDentry_of_eq rfl
  rw [efsDSdirty]
  split <;> exact h

theorem wf_erase (h : st.Wf) :
    (st.modDentry pd fun x => { x with child := x.child.erase d }).Wf := by
  have hentry : ∀ e, (st.modDentry pd fun x => { x with child := x.child.erase d }).dentry e =
      if e = pd then { st.dentry pd with child := (st.dentry pd).child.erase d }
      else st.dentry e := fun e => Function.update_apply ..
  refine ⟨h.root, h.ihash, h.dhash, fun e he j hj => ?_, fun e he p hp => ?_, fun e he c hc => ?_⟩
  · rw [hentry] at hj
    split_ifs at hj with hed
    · exact h.inode pd (hed ▸ he) j hj
    · exact h.inode e he j hj
  · rw [hentry] at hp
    split_ifs at hp with hed
    · exact hed ▸ h.parent pd (hed ▸ he) p hp
    · exact h.parent e he p hp
  · rw [hentry] at hc
    split_ifs at hc with hed
    · exact h.child pd (hed ▸ he) c (List.mem_of_mem_erase hc)
    · exact h.child e he c hc

/-- Taking an entry out of its directory changes the size of the directory only. -/
theorem efsDRemove_spec (h : st.Wf) :
    Ensures Panic.Balanced (efsDRemove st d) fun st' =>
      Keeps (st.parentInode d) 0 st st' ∧ st'.sb = st.sb ∧
        (st'.dentry d).inode = (st.dentry d).inode := by
  rw [efsDRemove.eq_def]
  split
  · exact .error (by decide)
  · rename_i pd hpd
    have hwf : (st.modDentry pd fun x => { x with child := x.child.erase d }).Wf := wf_erase h
    dsimp only
    split
    · exact .error (by decide)
    · rename_i pi hpi
      rw [Efs.modDentry_dentry_self] at hpi
      have hmem : pi ∈ st.parentInode d := ⟨pd, hpd, hpi⟩
      have herase : Keeps (st.parentInode d) 0 st
          (st.modDentry pd fun x => { x with child := x.child.erase d }) :=
        ⟨hwf, le_rfl, le_rfl, (add_zero _).symm, fun _ _ _ => rfl⟩
      have hsize := herase.trans (keeps_modDi
        (f := fun x => { x with size := x.size - BitVec.ofNat 32 direntSize }) hwf hmem)
      have hdirty := hsize.trans (efsDSdirty_keeps (d := pd) hsize.wf)
      rw [add_zero, add_zero] at hdirty
      refine .ok ⟨hdirty, ?_, ?_⟩
      · rw [efsDSdirty]
        split <;> rfl
      · rw [inode_efsDSdirty]
        exact inode_modDentry_of_eq (f := fun x => { x with child := x.child.erase d }) rfl

/-- What `efs_d_unlink` may do: it releases the inode of the entry, if nothing refers to it, and
makes the directory that the entry is in smaller. -/
structure Unlinks (d : ℕ) (st st' : Efs) : Prop extends Keeps Set.univ 0 st st' where
  released : st'.sb ≠ st.sb → ∃ i, (st'.dentry d).inode = some i ∧ (st.refs i).toInt ≤ 0
  size : ∀ j < st.inodes, 0 < (st.refs j).toInt → j ∉ st.parentInode d →
    (st'.inode j).di.size = (st.inode j).di.size

theorem Unlinks.refl (h : st.Wf) : Unlinks d st st :=
  ⟨(Loads.refl (D := ∅) h).keeps, fun hn => absurd rfl hn, fun _ _ _ _ => rfl⟩

/-- The directory of an entry is not the entry, so that looking up the inode of the entry leaves it
alone. -/
theorem parentInode_of_loads (h : st.Wf) (hd : d < st.dentries) (hload : Loads {d} 0 st st₁) :
    st₁.parentInode d = st.parentInode d := by
  ext j
  refine exists_congr fun pd => ?_
  rw [hload.parent d hd]
  refine and_congr_right fun hpd => ?_
  have hlt := h.parent d hd pd hpd
  rw [hload.inode pd (hlt.trans hd) fun he => hlt.ne he]

theorem Loads.unlinks {st' : Efs} (hload : Loads {d} 0 st st₁) (h : st.Wf) (hd : d < st.dentries)
    (hu : Unlinks d st₁ st') : Unlinks d st st' := by
  have hrefs : st₁.refs = st.refs := hload.refs.trans (add_zero _)
  refine ⟨?_, ?_, ?_⟩
  · have := (hload.keeps (I := Set.univ)).trans hu.toKeeps
    rwa [add_zero] at this
  · intro hsb
    rw [← hrefs]
    exact hu.released (by rwa [hload.sb])
  · intro j hj hpos hn
    rw [← hload.di j hj]
    refine hu.size j (hj.trans_le hload.inodes) (by rwa [hrefs]) ?_
    rwa [parentInode_of_loads h hd hload]

theorem efsDUnlinkEmpty_spec (h : st.Wf) (hok : st.RefsOk) (hd : d < st.dentries) :
    Ensures Panic.Balanced (efsDUnlinkEmpty st d) (Unlinks d st) := by
  rw [efsDUnlinkEmpty]
  split
  · exact .ok (.refl h)
  · refine (efsDInode_spec (D := {d}) h hd rfl).bind fun r hr => ?_
    obtain ⟨i, st₁⟩ := r
    obtain ⟨hi, hdi, hget⟩ := hr
    refine (efsIPut_spec (D := ∅) hget.wf hi (pos_of_single hok hget.refs)).bind fun st₂ hput => ?_
    have hdi₂ : (st₂.dentry d).inode = some i :=
      (hput.inode d (hd.trans_le hget.dentries) (Set.notMem_empty d)).trans hdi
    have hload : Loads {d} 0 st st₂ := by
      have := hget.trans (hput.mono (Set.empty_subset {d}))
      rwa [add_neg_cancel] at this
    have hi₂ : i < st₂.inodes := hi.trans_le hput.inodes
    refine (efsIUnlink_spec hload.wf).bind fun r hr => ?_
    obtain ⟨res, st₃⟩ := r
    obtain ⟨hkeep, hdentry, hcases⟩ := hr
    -- the inode is released, or the superblock and the size stay
    have hrel : st₃.sb ≠ st₂.sb → (st₂.refs i).toInt ≤ 0 := by
      intro hsb
      rw [Efs.refs, if_pos hi₂]
      exact hcases.resolve_left fun hc => hsb hc.1
    have hsize : ∀ j < st₂.inodes, 0 < (st₂.refs j).toInt →
        (st₃.inode j).di.size = (st₂.inode j).di.size := by
      intro j hj hpos
      by_cases hji : j = i
      · subst hji
        rw [Efs.refs, if_pos hj] at hpos
        exact (hcases.resolve_right (by omega)).2
      · rw [hkeep.di j hj hji]
    have hkeep' : Keeps Set.univ 0 st₂ st₃ := hkeep.mono (Set.subset_univ _)
    dsimp only
    split
    · refine (efsDRemove_spec hkeep.wf).mono fun st' h' => hload.unlinks h hd ?_
      obtain ⟨hremove, hsb, hinode⟩ := h'
      have hp : st₃.parentInode d = st₂.parentInode d := by
        rw [Efs.parentInode, Efs.parentInode, hdentry]
      refine ⟨?_, fun hne => ⟨i, ?_, hrel (by rwa [hsb] at hne)⟩, fun j hj hpos hn => ?_⟩
      · have := hkeep'.trans (hremove.mono (Set.subset_univ _))
        rwa [add_zero] at this
      · rw [hinode, hdentry, hdi₂]
      · rw [hremove.di j (hj.trans_le hkeep.inodes) (by rwa [hp]), hsize j hj hpos]
    · refine .ok (hload.unlinks h hd ⟨hkeep', fun hne => ⟨i, ?_, hrel hne⟩, fun j hj hpos _ =>
        hsize j hj hpos⟩)
      rw [hdentry, hdi₂]

theorem efsDUnlink_spec (h : st.Wf) (hok : st.RefsOk) (hd : d < st.dentries) :
    Ensures Panic.Balanced (efsDUnlink st (some d)) (Unlinks d st) := by
  simp only [efsDUnlink]
  split
  · refine (efsDLoad_spec (D := {d}) h hok hd rfl).bind fun st₁ hload => ?_
    have hok₁ : st₁.RefsOk := hok.congr (hload.refs.trans (add_zero _))
    split
    · exact .ok (hload.unlinks h hd (.refl hload.wf))
    · exact (efsDUnlinkEmpty_spec hload.wf hok₁ (hd.trans_le hload.dentries)).mono fun st' h' =>
        hload.unlinks h hd h'
  · exact efsDUnlinkEmpty_spec h hok hd

/-! ### Creating an entry -/

theorem Keeps.trans_zero {δ : ℕ → BitVec 32} {st' : Efs} (h : Keeps I δ st st₁)
    (h' : Keeps I 0 st₁ st') : Keeps I δ st st' := by
  have := h.trans h'
  rwa [add_zero] at this

theorem efsIAddsb_keeps (h : st.Wf) (hi : i < st.inodes) : Keeps I 0 st (efsIAddsb st i) := by
  refine ⟨⟨h.root, fun b j hj => ?_, h.dhash, h.inode, h.parent, h.child⟩, le_rfl, le_rfl,
    (add_zero _).symm, fun _ _ _ => rfl⟩
  by_cases hb : b = (st.inode i).di.no.toNat % buckets
  · subst hb
    simp only [efsIAddsb, Function.update_self, List.mem_cons] at hj
    rcases hj with rfl | hj
    · exact hi
    · exact h.ihash _ j hj
  · simp only [efsIAddsb, Function.update_of_ne hb] at hj
    exact h.ihash _ j hj

theorem efsINew_keeps (h : st.Wf) (heq : efsINew st = .ok (i, st₁)) :
    Keeps Set.univ 0 st st₁ ∧ i < st₁.inodes := by
  obtain ⟨⟨ino, sb⟩, -, heq⟩ := bind_eq_ok.1 heq
  obtain ⟨rfl, rfl⟩ := ok_prod_inj heq
  have hsb : Keeps Set.univ 0 st { st with sb := sb } := keeps_setSb sb h
  have halloc : Loads ∅ 0 { st with sb := sb } (efsIAlloc { st with sb := sb }).2 := by
    refine loads_addInode hsb.wf rfl (fun j hj => ?_) ?_ (fun _ _ => .inl) rfl rfl rfl rfl rfl
    · exact Function.update_of_ne hj.ne ..
    · simp [efsIAlloc]
  have hnew := (hsb.trans_zero halloc.keeps).trans_zero
    (keeps_modDi (f := fun _ => ⟨BitVec.ofInt 32 ino, .fNone, st.dev, 0, fun _ => 0, 1⟩)
      halloc.wf (Set.mem_univ st.inodes))
  have hdirty := efsISdirty_keeps (i := st.inodes) (I := Set.univ) hnew.wf
  have hlt := (Nat.lt_succ_self st.inodes).trans_le hdirty.inodes
  exact ⟨(hnew.trans_zero hdirty).trans_zero (efsIAddsb_keeps hdirty.wf hlt), hlt⟩

theorem efsDCreatEntry_keeps {name : ℕ → BitVec 8} {type : FileType} {r : Option ℕ} (h : st.Wf)
    (hpd : pd < st.dentries) (heq : efsDCreatEntry st pd i name type = .ok (r, st₁)) :
    Keeps Set.univ 0 st st₁ := by
  have halloc : Loads ∅ 0 st (efsDAlloc st).2 := efsDAlloc_loads h
  simp only [efsDCreatEntry] at heq
  generalize hst₂ : ((efsDAlloc st).2.modDentry (efsDAlloc st).1 _) = st₂ at heq
  have h₂ : Loads ∅ 0 st st₂ := by
    rw [← hst₂]
    exact halloc.trans_zero (loads_modDentry halloc.wf rfl rfl rfl)
  have hdi : Keeps Set.univ 0 st₂ (st₂.modDi i fun x => { x with type := type }) :=
    keeps_modDi h₂.wf (Set.mem_univ i)
  have htype₂ : Keeps Set.univ 0 st₂ (efsIType st₂ i type) :=
    hdi.trans_zero (efsISdirty_keeps hdi.wf)
  have htype : Keeps Set.univ 0 st (efsIType st₂ i type) := h₂.keeps.trans_zero htype₂
  have hlt : st.dentries < (efsIType st₂ i type).dentries := by
    refine lt_of_lt_of_le ?_ htype₂.dentries
    rw [← hst₂]
    exact Nat.lt_succ_self _
  have hwf := wf_efsDConn htype.wf hlt hpd
  have hconn : Keeps Set.univ 0 st (efsDConn (efsIType st₂ i type) st.dentries pd) :=
    htype.trans_zero ⟨hwf, le_rfl, le_rfl, (add_zero _).symm, fun _ _ _ => rfl⟩
  split at heq
  · cases heq
  · next pi hpi =>
    obtain ⟨-, rfl⟩ := ok_prod_inj heq
    have hsize := hconn.trans_zero (keeps_modDi
      (f := fun x => { x with size := x.size + BitVec.ofNat 32 direntSize }) hwf (Set.mem_univ pi))
    exact hsize.trans_zero (efsDSdirty_keeps hsize.wf)

/-- Creating an entry takes no reference to an inode. -/
theorem efsDCreat_keeps {name : ℕ → BitVec 8} {type : FileType} {r : Option ℕ} (h : st.Wf)
    (hok : st.RefsOk) (hpd : pd < st.dentries)
    (heq : efsDCreat st (some pd) name type = .ok (r, st₁)) : Keeps Set.univ 0 st st₁ := by
  simp only [efsDCreat] at heq
  split at heq
  · obtain ⟨-, rfl⟩ := ok_prod_inj heq
    exact (Loads.refl (D := ∅) h).keeps
  · obtain ⟨⟨r', st₂⟩, hcheck, heq⟩ := bind_eq_ok.1 heq
    obtain ⟨hload, -⟩ := (efsDNameCheck_spec h hok hpd (Set.mem_univ pd)).of_eq_ok hcheck
    split at heq
    · obtain ⟨-, rfl⟩ := ok_prod_inj heq
      exact hload.keeps
    · obtain ⟨⟨i, st₃⟩, hnew, heq⟩ := bind_eq_ok.1 heq
      obtain ⟨hkeeps, -⟩ := efsINew_keeps hload.wf hnew
      have h₃ := hload.keeps.trans_zero hkeeps
      exact h₃.trans_zero (efsDCreatEntry_keeps h₃.wf (hpd.trans_le h₃.dentries) heq)

end Entries

end RiscvLab.Fs
