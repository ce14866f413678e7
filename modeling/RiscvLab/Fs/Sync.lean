import RiscvLab.Fs.DirCodec
import RiscvLab.Fs.DirTree
import RiscvLab.Fs.MapSteps
import RiscvLab.Fs.SuperSync

/-!
# Runs with write-back

A pass of `efs_sync` writes the superblock and the bitmaps if they have changed, then the inodes on
`s_idirty_list`, and then the files of the directories on `s_ddirty_list`. The lists are taken from
the head, where new members are put. Writing the file of a directory puts its inode on
`s_idirty_list`, so that it is on the disk only after the next pass.

A run consists of such passes and of calls for entries that can be reached from the root. Passes and
calls do not overlap.

## Main definitions

* `efsSync` : a pass.
* `FsEvent`, `FsStep` : runs.
* `fsRun` : runs in the root directory, executed.

Source: `fs/easyfs/super.c`, lines 89–170; `fs/easyfs/inode.c`, lines 48–52 and 72–86;
`fs/easyfs/dentry.c`, lines 53–58 and 119–136.
-/

namespace RiscvLab.Fs

open Library Relation

/-! ### A pass -/

/-- `efs_i_cdirty`. -/
def efsICdirty (st : Efs) (i : ℕ) : Efs :=
  { st.modInode i fun x => { x with dirty := false } with idirty := st.idirty.erase i }

/-- `efs_d_cdirty`. -/
def efsDCdirty (st : Efs) (d : ℕ) : Efs :=
  { st.modDentry d fun x => { x with dirty := false } with ddirty := st.ddirty.erase d }

/-- The superblock and the bitmaps are written. -/
def efsSyncSuper (st : Efs) : Efs :=
  if st.sb.dirty then
    let ds := st.sb.ds
    let disk := writeSuper st.disk ds
    let disk := writeWords disk st.sb.imap.map ds.inodeMapStart.toNat
      (ds.inodeAreaStart - ds.inodeMapStart).toNat
    let disk := writeWords disk st.sb.bmap.map ds.blockMapStart.toNat
      (ds.blockAreaStart - ds.blockMapStart).toNat
    { st with disk := disk, sb := { st.sb with dirty := false } }
  else st

/-- The loop over `s_idirty_list`, the members of which are given; `pad` is what the memory holds
between `i_devno` and `i_size`. -/
def efsSyncInodes (pad : ℕ → BitVec 16) : List ℕ → Efs → Except Panic Efs
  | [], st => .ok st
  | i :: l, st => do
    let st ← efsIUpdate { st with idirty := l } i (pad i)
    efsSyncInodes pad l (efsICdirty st i)

/-- The loop over `s_ddirty_list`. -/
def efsSyncDentries : List ℕ → Efs → Except Panic Efs
  | [], st => .ok st
  | d :: l, st => do
    let st ← efsDUpdate { st with ddirty := l } d
    efsSyncDentries l (efsDCdirty st d)

/-- A pass of `efs_sync`. -/
def efsSync (st : Efs) (pad : ℕ → BitVec 16) : Except Panic Efs := do
  let st := efsSyncSuper st
  let st ← efsSyncInodes pad st.idirty st
  efsSyncDentries st.ddirty st

/-! ### Runs -/

inductive FsEvent
  | creat (pd : ℕ) (name : ℕ → BitVec 8) (type : FileType)
  | write (d : ℕ) (offset len : BitVec 32) (vaddr : ℕ → BitVec 8)
  | unlink (d : ℕ)
  | rename (d : ℕ) (name : ℕ → BitVec 8)
  | sync (pad : ℕ → BitVec 16)

/-- A call for an entry that can be reached from the root, or a pass of `efs_sync`. A write goes to
the inode that the hash table has for the entry. -/
def FsStep (st : Efs) : FsEvent → Efs → Prop
  | .creat pd name type, st' => Live st pd ∧ ∃ r, efsDCreat st (some pd) name type = .ok (r, st')
  | .write d offset len vaddr, st' => Live st d ∧
      ∃ i r, hashFindInode st (st.dentry d).dd.ino = some i ∧
        efsIWrite st i offset len vaddr = .ok (r, st')
  | .unlink d, st' => Live st d ∧ efsDUnlink st (some d) = .ok st'
  | .rename d name, st' => Live st d ∧ efsDRename st d name = .ok st'
  | .sync pad, st' => efsSync st pad = .ok st'

/-- An event for the root directory or one of its entries is executed. -/
def FsEvent.exec (st : Efs) : FsEvent → Except Panic Efs
  | .creat pd name type => (DirEvent.creat pd name type).exec st
  | .write d offset len vaddr =>
    if d ∈ (st.dentry 0).child then
      match hashFindInode st (st.dentry d).dd.ino with
      | some i => do
        let (_, st) ← efsIWrite st i offset len vaddr
        .ok st
      | none => .error .null
    else .error .null
  | .unlink d => (DirEvent.unlink d).exec st
  | .rename d name => (DirEvent.rename d name).exec st
  | .sync pad => efsSync st pad

/-- Events are executed one after the other. -/
def fsRun (evs : List FsEvent) (st : Efs) : Except Panic Efs := evs.foldlM FsEvent.exec st

theorem fsStep_exec {st st' : Efs} {ev : FsEvent} (h : ev.exec st = .ok st') :
    FsStep st ev st' := by
  cases ev with
  | creat pd name type => exact (dirStep_exec h : DirStep st (.creat pd name type) st')
  | write d offset len vaddr =>
    rw [FsEvent.exec] at h
    split at h
    · next hd =>
      split at h
      · next i hi =>
        obtain ⟨⟨r, st₁⟩, hwrite, h⟩ := bind_eq_ok.1 h
        obtain rfl := Except.ok.inj h
        exact ⟨.child .root hd, i, r, hi, hwrite⟩
      · cases h
    · cases h
  | unlink d => exact (dirStep_exec h : DirStep st (.unlink d) st')
  | rename d name => exact (dirStep_exec h : DirStep st (.rename d name) st')
  | sync pad => exact h

theorem reachable_fsRun {init : Efs → Prop} {st st' : Efs} {evs : List FsEvent}
    (h : fsRun evs st = .ok st') (hst : Reachable init FsStep st) : Reachable init FsStep st' :=
  hst.foldlM (fun _ _ _ => fsStep_exec) h

theorem fsRun_concat {st st' : Efs} {evs : List FsEvent} {ev : FsEvent}
    (h : fsRun (evs ++ [ev]) st = .ok st') :
    ∃ st₁, fsRun evs st = .ok st₁ ∧ ev.exec st₁ = .ok st' := by
  rw [fsRun, List.foldlM_append, bind_eq_ok] at h
  obtain ⟨st₁, hrun, h⟩ := h
  rw [List.foldlM_cons, bind_eq_ok] at h
  obtain ⟨st₂, hev, h⟩ := h
  obtain rfl := Except.ok.inj h
  exact ⟨st₁, hrun, hev⟩

/-! ### What a pass does -/

namespace View

/-- The disk after `efs_i_update`. -/
def updatedDisk (v : View) (i : ℕ) (pad : BitVec 16) : Disk :=
  let disk := patch v.disk (inodeAddr v.sb.ds (v.di i).no) (((v.di i).words pad).flatMap bytes32)
  match v.indir i with
  | some blk => patch disk (((v.di i).addrs nDirect).toNat * blockSize)
      ((pageWords blk).flatMap bytes32)
  | none => disk

/-- The first inode of `s_idirty_list` is written. -/
inductive InodeStep : View → View → Prop
  | mk {v : View} {i : ℕ} {l : List ℕ} {pad : BitVec 16} (hlist : v.idirty = i :: l)
    (hno : 0 < (v.di i).no.toInt) :
    InodeStep v { v with disk := v.updatedDisk i pad, idirty := l }

/-- A write to the file of the inode `i`, up to the offset `e` at most. -/
def WriteTo (i e : ℕ) (v v' : View) : Prop := ∃ s, ∃ n ≤ e, v.Writes i s n v'

/-- The file of the first directory of `s_ddirty_list` is written. -/
inductive DentryStep : View → View → Prop
  | mk {st st' : Efs} {d : ℕ} {l : List ℕ} (hlist : st.ddirty = d :: l)
    (h : efsDUpdate { st with ddirty := l } d = .ok st') : DentryStep st.view st'.view

end View

variable {st st' : Efs} {i d : ℕ}

theorem view_efsIUpdate {pad : BitVec 16} (h : efsIUpdate st i pad = .ok st') :
    0 < (st.inode i).di.no.toInt ∧
      st'.view = { st.view with disk := st.view.updatedDisk i pad } := by
  simp only [efsIUpdate] at h
  split at h
  · cases h
  · next hno =>
    obtain rfl := Except.ok.inj h
    exact ⟨Int.not_le.1 hno, rfl⟩

@[simp]
theorem view_efsICdirty : (efsICdirty st i).view =
    { st.view with idirty := st.view.idirty.erase i } := by
  have h : (st.modInode i fun x => { x with dirty := false }).view = st.view :=
    view_modInode rfl rfl
  rw [← h]
  rfl

@[simp]
theorem view_efsDCdirty : (efsDCdirty st d).view =
    { st.view with ddirty := st.view.ddirty.erase d } := by
  have h : (st.modDentry d fun x => { x with dirty := false }).view = st.view :=
    view_modDentry_dirty false
  rw [← h]
  rfl

theorem view_efsSyncInodes {pad : ℕ → BitVec 16} {l : List ℕ} (hl : st.view.idirty = l)
    (hnodup : l.Nodup) (h : efsSyncInodes pad l st = .ok st') :
    ReflTransGen View.InodeStep st.view st'.view ∧ st'.view.idirty = [] := by
  induction l generalizing st with
  | nil =>
    obtain rfl := Except.ok.inj h
    exact ⟨.refl, hl⟩
  | cons i l ih =>
    obtain ⟨hi, hnodup⟩ := List.nodup_cons.1 hnodup
    rw [efsSyncInodes] at h
    obtain ⟨st₁, hupdate, h⟩ := bind_eq_ok.1 h
    obtain ⟨hno, hv⟩ := view_efsIUpdate hupdate
    have hround : (efsICdirty st₁ i).view =
        { st.view with disk := st.view.updatedDisk i (pad i), idirty := l } := by
      rw [view_efsICdirty, hv]
      exact congrArg (fun l => { st.view with disk := st.view.updatedDisk i (pad i), idirty := l })
        (List.erase_of_not_mem hi)
    obtain ⟨hsteps, hnil⟩ := ih (by rw [hround]) hnodup h
    refine ⟨.head ?_ hsteps, hnil⟩
    rw [hround]
    exact .mk hl hno

/-- The loop of `efs_d_update` over the children `ds`, from the offset `offset` on. -/
theorem writes_efsDUpdateLoop {ds : List ℕ} {offset e : ℕ}
    (he : offset + ds.length * direntSize ≤ e) (h : efsDUpdateLoop i ds offset st = .ok st') :
    ReflTransGen (View.WriteTo i e) st.view st'.view := by
  induction ds generalizing st offset with
  | nil =>
    obtain rfl := Except.ok.inj h
    exact .refl
  | cons d ds ih =>
    rw [List.length_cons, Nat.add_mul, Nat.one_mul] at he
    rw [efsDUpdateLoop] at h
    obtain ⟨⟨r, st₁⟩, hwrite, h⟩ := bind_eq_ok.1 h
    refine .head ⟨_, _, ?_, writes_efsIWrite hwrite⟩ (ih (by omega) h)
    have hoffset := BitVec.toNat_ofNat offset 32
    have hmod := Nat.mod_le offset (2 ^ 32)
    have hsize : (BitVec.ofNat 32 direntSize).toNat = direntSize := rfl
    omega

theorem fileFrame_of_writes {v v' : View} {e : ℕ} (h : ReflTransGen (View.WriteTo i e) v v') :
    View.FileFrame i v v' := by
  induction h with
  | refl => exact .refl
  | tail _ hstep ih =>
    obtain ⟨s, n, -, hwrites⟩ := hstep
    exact ih.trans hwrites.fileFrame

end RiscvLab.Fs
