import RiscvLab.Fs.Sound
import RiscvLab.Lib.List

/-!
# Writing back the inodes

`efs_i_write` and `efs_i_type` change an inode and put it on `s_idirty_list`, unless its node is
linked already, which is what `list_empty` tests. The thread `efs_sync` takes an inode off the list
under `s_lock`, writes it to the disk under `i_slock`, and takes `s_lock` again for `efs_i_cdirty`,
which unlinks the node a second time. `list_pop` leaves the pointers of the node as they were. Hence
an inode that has been taken off looks as if it were on the list until `efs_i_cdirty`: a change
between the write to the disk and `efs_i_cdirty` is lost (`exists_lost_update`). An inode that is
put on the list meanwhile is lost as well, since `efs_i_cdirty` links the head of the list to the
old neighbour of its own inode.

Nothing is lost if in the meantime only inodes are changed that are on the list, and the inode that
has been taken off as long as it has not been written (`noLostUpdate_of_reachable`).

A call of `efs_i_write` or `efs_i_type` is one step, and so is each of the three parts of a round of
`efs_sync`. The list is `links`, where `none` is the head and `some i` the node `i_dirty` of the
inode `i`; it takes the place of the sequence `Efs.idirty`.

## Main definitions

* `ISyncState`, `ISyncEvent`, `ISyncStep` : the calls and the thread `efs_sync`.
* `NoLostUpdate` : what is not on the disk is on the list, or is about to be written.
* `InTime` : the calls that lose nothing.

Source: `fs/easyfs/super.c`, lines 117–135, `fs/easyfs/inode.c`, lines 41–52, 72–86, 258–286 and
423–433.
-/

namespace RiscvLab.Fs

open Library

/-! ### The threads -/

/-- Where `efs_sync` is: it has taken no inode off the list, it has taken one off, or it has written
this one to the disk. -/
inductive IPhase
  | idle
  | popped (i : ℕ)
  | updated (i : ℕ)
  deriving DecidableEq

structure ISyncState where
  efs : Efs
  /-- `s_idirty_list` and the nodes `i_dirty`. -/
  links : Links (Option ℕ)
  phase : IPhase

inductive ISyncEvent
  | write (i : ℕ) (offset len : BitVec 32) (vaddr : ℕ → BitVec 8)
  | type (i : ℕ) (ftype : FileType)
  | pop
  | update (pad : BitVec 16)
  | cdirty

/-- What `efs_i_sdirty` does to the list. -/
def sdirtyLinks (links : Links (Option ℕ)) (i : ℕ) : Links (Option ℕ) :=
  if listEmpty links (some i) then listAddHead links (some i) none else links

/-- A call that does not panic, or a step of `efs_sync`. A call of `efs_i_write` that returns -1
does not come to `efs_i_sdirty`. -/
def ISyncStep (s : ISyncState) (e : ISyncEvent) (s' : ISyncState) : Prop :=
  match e with
  | .write i offset len vaddr => i < s.efs.inodes ∧
      ∃ r st, efsIWrite s.efs i offset len vaddr = .ok (r, st) ∧
        s' = { s with efs := st, links := if r = -1 then s.links else sdirtyLinks s.links i }
  | .type i ftype => i < s.efs.inodes ∧
      s' = { s with efs := efsIType s.efs i ftype, links := sdirtyLinks s.links i }
  | .pop => s.phase = .idle ∧ ∃ i links, listPop s.links none = (some (some i), links) ∧
      s' = { s with links := links, phase := .popped i }
  | .update pad => ∃ i st, s.phase = .popped i ∧ efsIUpdate s.efs i pad = .ok st ∧
      s' = { s with efs := st, phase := .updated i }
  | .cdirty => ∃ i, s.phase = .updated i ∧
      s' = { efs := s.efs.modInode i fun x => { x with dirty := false }
             links := listDelInit s.links (some i)
             phase := .idle }

/-- A sound file system in which the inodes that are not on the list are on the disk. The nodes that
are not on the list are linked to themselves. -/
def ISyncState.Start (s : ISyncState) : Prop :=
  s.efs.view.Sound ∧ s.phase = .idle ∧ ∃ l : List ℕ, IsRing s.links none (l.map some) ∧
    (∀ i ∈ l, i < s.efs.inodes) ∧ ∀ i ∉ l, s.links.next (some i) = some i ∧
      (i < s.efs.inodes → s.efs.view.Copied i)

/-- An inode that differs from its copy on the disk is on the list, or has been taken off and not
been written yet. -/
def NoLostUpdate (s : ISyncState) : Prop :=
  ∀ i < s.efs.inodes, ¬s.efs.view.Copied i → OnRing s.links none (some i) ∨ s.phase = .popped i

/-- While an inode is off the list, a call changes only inodes that are not put on the list, and not
the inode that has just been written. -/
def InTime (s : ISyncState) (e : ISyncEvent) : Prop :=
  match e with
  | .write i .. | .type i _ =>
    s.phase = .idle ∨ listEmpty s.links (some i) = false ∧ s.phase ≠ .updated i
  | _ => True

/-! ### The invariant -/

/-- The members of the list are `l`. -/
structure ISyncInv (s : ISyncState) (l : List ℕ) : Prop where
  sound : s.efs.view.Sound
  ring : IsRing s.links none (l.map some)
  known : ∀ i ∈ l, i < s.efs.inodes
  isolated : ∀ i ∉ l, s.phase ≠ .popped i → s.phase ≠ .updated i → s.links.next (some i) = some i
  /-- The node that has been taken off still has its neighbours, the head and the first of the
  list. -/
  stale : ∀ i, s.phase = .popped i ∨ s.phase = .updated i → i ∉ l ∧ i < s.efs.inodes ∧
    s.links.prev (some i) = none ∧ s.links.next (some i) = s.links.next none
  copied : ∀ i < s.efs.inodes, i ∉ l → s.phase ≠ .popped i → s.efs.view.Copied i

variable {s s' : ISyncState} {l : List ℕ} {i : ℕ}

theorem ISyncState.Start.inv (h : s.Start) : ∃ l, ISyncInv s l := by
  obtain ⟨hsound, hphase, l, hring, hknown, hrest⟩ := h
  refine ⟨l, hsound, hring, hknown, fun i hi _ _ => (hrest i hi).1, fun i hi => ?_,
    fun i hlt hi _ => (hrest i hi).2 hlt⟩
  rw [hphase] at hi
  rcases hi with hi | hi <;> cases hi

namespace ISyncInv

variable (hI : ISyncInv s l)

include hI

theorem noLostUpdate : NoLostUpdate s := by
  intro i hi hcopied
  by_cases hl : i ∈ l
  · exact .inl (hI.ring.onRing_iff.2 (List.mem_map_of_mem hl))
  · refine .inr ?_
    by_contra hphase
    exact hcopied (hI.copied i hi hl hphase)

/-- `list_empty` tells whether an inode is on the list while none has been taken off. -/
theorem mem_iff (hphase : s.phase = .idle) : i ∈ l ↔ listEmpty s.links (some i) = false := by
  rw [listEmpty, decide_eq_false_iff_not]
  constructor
  · intro hi
    exact hI.ring.next_ne_self (List.mem_map_of_mem hi)
  · intro hne
    by_contra hi
    exact hne (hI.isolated i hi (by rw [hphase]; simp) (by rw [hphase]; simp))

/-- A call that may change the inode `i` and puts it on the list. -/
theorem sdirty {st : Efs} (hsound : st.view.Sound) (hinodes : st.inodes = s.efs.inodes)
    (hi : i < s.efs.inodes)
    (hcopied : ∀ j < s.efs.inodes, j ≠ i → s.efs.view.Copied j → st.view.Copied j)
    (ht : s.phase = .idle ∨ listEmpty s.links (some i) = false ∧ s.phase ≠ .updated i) :
    ∃ l', ISyncInv { s with efs := st, links := sdirtyLinks s.links i } l' := by
  by_cases hempty : listEmpty s.links (some i) = true
  · have hphase : s.phase = .idle := ht.resolve_right fun h => by simp [hempty] at h
    have hil : i ∉ l := fun h => by simpa [hempty] using (hI.mem_iff hphase).1 h
    have hnode : some i ∉ none :: l.map some := by simpa using hil
    refine ⟨i :: l, hsound, ?_, ?_, fun j hj _ _ => ?_, fun j hj => ?_, fun j hj hjl _ => ?_⟩
    · simp only [sdirtyLinks, hempty, if_true]
      exact hI.ring.insert_head hnode
    · dsimp only
      rw [hinodes]
      rintro j (_ | ⟨_, hj⟩)
      · exact hi
      · exact hI.known j hj
    · obtain ⟨hji, hjl⟩ : j ≠ i ∧ j ∉ l := by simpa using hj
      simp only [sdirtyLinks, hempty, if_true, listAddHead_next]
      rw [if_neg (by simpa using hji), if_neg (by simp)]
      exact hI.isolated j hjl (by rw [hphase]; simp) (by rw [hphase]; simp)
    · dsimp only at hj
      rw [hphase] at hj
      rcases hj with hj | hj <;> cases hj
    · obtain ⟨hji, hjl⟩ : j ≠ i ∧ j ∉ l := by simpa using hjl
      dsimp only at hj
      rw [hinodes] at hj
      exact hcopied j hj hji (hI.copied j hj hjl (by rw [hphase]; simp))
  · have hne : s.links.next (some i) ≠ some i := by simpa [listEmpty] using hempty
    have hlinks : sdirtyLinks s.links i = s.links := by
      rw [sdirtyLinks, if_neg hempty]
    rw [hlinks]
    -- The node is on the list, or it has been taken off and is still to be written.
    have hwhere : i ∈ l ∨ s.phase = .popped i := by
      by_contra h
      rw [not_or] at h
      refine hne (hI.isolated i h.1 h.2 ?_)
      rcases ht with ht | ht
      · rw [ht]
        simp
      · exact ht.2
    refine ⟨l, hsound, hI.ring, fun j hj => hinodes ▸ hI.known j hj, hI.isolated,
      fun j hj => ?_, fun j hj hjl hphase => ?_⟩
    · dsimp only
      rw [hinodes]
      exact hI.stale j hj
    · dsimp only at hj
      rw [hinodes] at hj
      refine hcopied j hj ?_ (hI.copied j hj hjl hphase)
      rintro rfl
      exact hwhere.elim hjl hphase

theorem pop {links : Links (Option ℕ)} (hphase : s.phase = .idle)
    (hpop : listPop s.links none = (some (some i), links)) :
    ∃ l', ISyncInv { s with links := links, phase := .popped i } l' := by
  cases l with
  | nil =>
    have hnext : s.links.next none = none := hI.ring.next_head_eq_iff.2 rfl
    simp [listPop, listEmpty, hnext] at hpop
  | cons k l =>
    obtain ⟨hpop', hring⟩ := hI.ring.pop_map
    rw [hpop', Prod.mk.injEq, Option.some_inj, Option.some_inj] at hpop
    obtain ⟨rfl, rfl⟩ := hpop
    have hnd : (k :: l).Nodup := by
      have := (List.nodup_cons.1 hI.ring.nodup).2
      exact List.Nodup.of_map some this
    have hprev : s.links.prev (some k) = none := hI.ring.seg.1.2
    have hself := hI.ring.next_ne_self (n := some k) (by simp)
    refine ⟨l, hI.sound, hring, fun j hj => hI.known j (List.mem_cons_of_mem _ hj),
      fun j hj hpopped _ => ?_, fun j hj => ?_, fun j hj hjl hpopped => ?_⟩
    · have hjk : j ≠ k := by
        rintro rfl
        exact hpopped rfl
      dsimp only
      rw [listDel_next, hprev, if_neg (by simp)]
      exact hI.isolated j (by simp [hjk, hj]) (by rw [hphase]; simp) (by rw [hphase]; simp)
    · obtain rfl : j = k := by simpa [eq_comm] using hj
      refine ⟨(List.nodup_cons.1 hnd).1, hI.known j List.mem_cons_self, ?_, ?_⟩
      · dsimp only
        rw [listDel_prev, if_neg (Ne.symm hself), hprev]
      · dsimp only
        rw [listDel_next, listDel_next, hprev, if_neg (by simp), if_pos rfl]
    · have hjk : j ≠ k := by
        rintro rfl
        exact hpopped rfl
      exact hI.copied j hj (by simp [hjk, hjl]) (by rw [hphase]; simp)

theorem update {st : Efs} {pad : BitVec 16} (hphase : s.phase = .popped i)
    (h : efsIUpdate s.efs i pad = .ok st) :
    ISyncInv { s with efs := st, phase := .updated i } l := by
  obtain ⟨hil, hi, hprev, hnext⟩ := hI.stale i (.inl hphase)
  have hv := (view_efsIUpdate h).2
  have hinodes : st.inodes = s.efs.inodes := congrArg View.inodes hv
  refine ⟨hv ▸ hI.sound.update hi, hI.ring, fun j hj => hinodes ▸ hI.known j hj,
    fun j hj _ hupdated => ?_, fun j hj => ?_, fun j hj hjl _ => ?_⟩
  · have hji : j ≠ i := by
      rintro rfl
      exact hupdated rfl
    exact hI.isolated j hj (by rw [hphase]; simpa using hji.symm) (by rw [hphase]; simp)
  · obtain rfl : j = i := by simpa [eq_comm] using hj
    dsimp only
    rw [hinodes]
    exact ⟨hil, hi, hprev, hnext⟩
  · dsimp only at hj ⊢
    rw [hinodes] at hj
    rw [hv]
    by_cases hji : j = i
    · subst hji
      exact hI.sound.copied_updated hj
    · exact hI.sound.copied_updated_of_ne hi hj hji
        (hI.copied j hj hjl (by rw [hphase]; simpa [eq_comm] using hji))

/-- `efs_i_cdirty` stores into the list what is there already. -/
theorem cdirty (hphase : s.phase = .updated i) :
    ISyncInv { efs := s.efs.modInode i fun x => { x with dirty := false }
               links := listDelInit s.links (some i)
               phase := .idle } l := by
  obtain ⟨hil, hi, hprev, hnext⟩ := hI.stale i (.inr hphase)
  have hdel : listDel s.links (some i) = s.links :=
    listDel_eq_self (by rw [hprev, hnext]) (by rw [hnext, hprev, hI.ring.prev_next_head])
  have hv : (s.efs.modInode i fun x => { x with dirty := false }).view = s.efs.view :=
    view_modInode rfl rfl
  rw [listDelInit, hdel]
  refine ⟨hv ▸ hI.sound, hI.ring.init (by simpa using hil), hI.known, fun j hj _ _ => ?_,
    fun j hj => ?_, fun j hj hjl _ => hv ▸ hI.copied j hj hjl (by rw [hphase]; simp)⟩
  · dsimp only
    rw [initListHead_next]
    split_ifs with hji
    · exact hji.symm
    · have hji : j ≠ i := fun e => hji (by rw [e])
      exact hI.isolated j hj (by rw [hphase]; simp) (by rw [hphase]; simpa using hji.symm)
  · rcases hj with hj | hj <;> cases hj

end ISyncInv

theorem view_efsIType (st : Efs) (i : ℕ) (ftype : FileType) : (efsIType st i ftype).view =
    (st.view.modDi i fun x => { x with type := ftype }).iSdirty i := by
  rw [efsIType, view_efsISdirty, view_modDi]

theorem ISyncInv.step {e : ISyncEvent} (hI : ISyncInv s l) (ht : InTime s e)
    (h : ISyncStep s e s') : ∃ l', ISyncInv s' l' := by
  cases e with
  | write i offset len vaddr =>
    obtain ⟨hi, r, st, hwrite, rfl⟩ := h
    by_cases hr : r = -1
    · subst hr
      rw [if_pos rfl, eq_of_rejected (rejected_of_efsIWrite hwrite) hwrite]
      exact ⟨l, hI⟩
    · have hwrites := writes_efsIWrite hwrite
      obtain ⟨hsound, hcopied⟩ := hI.sound.writes hi hwrites
      rw [if_neg hr]
      exact hI.sdirty hsound hwrites.fileFrame.inodes hi hcopied ht
  | type i ftype =>
    obtain ⟨hi, rfl⟩ := h
    have hv := view_efsIType s.efs i ftype
    refine hI.sdirty (hv ▸ hI.sound.setDi rfl rfl) (congrArg View.inodes hv) hi
      (fun j _ hji hcopied => ?_) ht
    rw [hv]
    exact hcopied.congr (Function.update_of_ne hji ..) rfl .refl (fun _ _ => rfl) fun _ _ _ => rfl
  | pop =>
    obtain ⟨hphase, i, links, hpop, rfl⟩ := h
    exact hI.pop hphase hpop
  | update pad =>
    obtain ⟨i, st, hphase, hupdate, rfl⟩ := h
    exact ⟨l, hI.update hphase hupdate⟩
  | cdirty =>
    obtain ⟨i, hphase, rfl⟩ := h
    exact ⟨l, hI.cdirty hphase⟩

/-- No update is lost in a run in which the calls are in time: an inode that differs from its copy
on the disk is on `s_idirty_list`, or `efs_sync` has taken it off and is about to write it. -/
theorem noLostUpdate_of_reachable
    (h : Reachable ISyncState.Start (guarded InTime ISyncStep) s) : NoLostUpdate s := by
  have hinv : ∃ l, ISyncInv s l := by
    refine h.invariant (fun _ => ISyncState.Start.inv) fun s e s' hI hstep => ?_
    obtain ⟨l, hI⟩ := hI
    exact hI.step hstep.1 hstep.2
  obtain ⟨l, hI⟩ := hinv
  exact hI.noLostUpdate

/-! ### Runs -/

section Mounted

variable {st : Efs} {diskSize : ℕ} {ipages bpages : ℕ → BitVec 64}

/-- Behind the metadata, a blank disk holds zeros after it has been formatted. -/
theorem formatted_area (hle : blockAreaStart diskSize < 2 ^ 20) (hpos : 0 < dataMapBlocks diskSize)
    {m k : ℕ} (hm : blockAreaStart diskSize ≤ m) (hk : k < blockSize) :
    formatted (fun _ => 0) diskSize (m * blockSize + k) = 0 := by
  obtain ⟨h₁, h₂, h₃⟩ := layout_eqs diskSize
  have h₄ : inodeMapStart = 2 := rfl
  have h₅ : superBlockLocation = 1 := rfl
  rw [formatted_apply (by omega) hk, if_neg (by omega), if_neg (by omega), if_neg (by omega),
    if_neg (by omega)]

/-- A blank disk that has been formatted and mounted is sound. -/
theorem sound_mounted (h : st.view.Mounted (fun _ => 0) diskSize ipages bpages) :
    st.view.Sound := by
  have hroot (i : ℕ) (hi : i < st.view.inodes) : i = 0 := by
    rw [h.inodes] at hi
    omega
  have hslot (i : ℕ) (t : Slot) (hi : i < st.view.inodes) : st.view.slotOn i t = 0 := by
    obtain rfl := hroot i hi
    cases t with
    | addr k => exact h.addrs_root k.isLt
    | entry k => exact if_pos (h.addrs_root (Nat.lt_succ_self _))
  refine ⟨⟨fun i t hi hne => absurd (hslot i t hi) hne, fun i t hi hne => absurd (hslot i t hi) hne,
    fun i _ t _ hi _ hne => absurd (hslot i t hi) hne, h.guarded⟩, fun i hi hsome => ?_,
    fun b hb _ k hk => ?_, h.arranged, fun i hi => ?_, fun i hi j hj _ => ?_⟩
  · obtain rfl := hroot i hi
    rw [h.indir] at hsome
    cases hsome
  · have hle := blockAreaStart_le h.fits
    rw [h.area_eq] at hb
    rw [h.disk]
    exact formatted_area (by omega) (dataMapBlocks_pos h.fits h.pos) hb hk
  · obtain rfl := hroot i hi
    rw [h.no_root]
    exact ⟨by decide, .inr rfl⟩
  · rw [hroot i hi, hroot j hj]

/-- So runs start from a blank disk that has been formatted and mounted. -/
theorem start_mounted (h : st.view.Mounted (fun _ => 0) diskSize ipages bpages) :
    ISyncState.Start ⟨st, Links.isolated, .idle⟩ := by
  refine ⟨sound_mounted h, rfl, [], ⟨by simp, rfl, rfl⟩, by simp, fun i _ => ⟨rfl, fun hi => ?_⟩⟩
  have hinodes : st.inodes = 1 := h.inodes
  obtain rfl : i = 0 := by
    dsimp only at hi
    omega
  refine ⟨h.recorded, fun blk hblk => ?_⟩
  rw [h.indir] at hblk
  cases hblk

end Mounted

theorem inodes_efsIType (st : Efs) (i : ℕ) (ftype : FileType) :
    (efsIType st i ftype).inodes = st.inodes := congrArg View.inodes (view_efsIType st i ftype)

/-- On a blank disk of 400 blocks, the type is changed, and changed again after the inode has been
taken off the list. -/
theorem noLostUpdate_two_types : ∃ s : ISyncState,
    Reachable ISyncState.Start (guarded InTime ISyncStep) s ∧ NoLostUpdate s ∧ s.phase = .idle ∧
      s.links.next none = none ∧ (s.efs.inode 0).di.type = .fDir := by
  have hends : endsWith (fun st => efsIUpdate (efsIType (efsIType st 0 .fReg) 0 .fDir) 0 0)
      (fun st => (st.inode 0).di.type = .fDir) = true := by decide +kernel
  obtain ⟨st₀, st₃, hfresh, hupdate, htype⟩ := exists_of_endsWith hends
  obtain ⟨diskSize, ipages, bpages, hmounted⟩ := Efs.FreshOn.mounted hfresh
  have hi : 0 < st₀.inodes := Nat.lt_of_lt_of_eq Nat.one_pos hmounted.inodes.symm
  have h₀ : Reachable ISyncState.Start (guarded InTime ISyncStep) _ :=
    .start (start_mounted hmounted)
  have h₁ := h₀.next (a := ISyncEvent.type 0 .fReg) ⟨.inl rfl, hi, rfl⟩
  have h₂ := h₁.next (a := ISyncEvent.pop) ⟨trivial, rfl, 0, _, rfl, rfl⟩
  have h₃ := h₂.next (a := ISyncEvent.type 0 .fDir)
    ⟨.inr ⟨rfl, by simp⟩, (inodes_efsIType ..).symm ▸ hi, rfl⟩
  have h₄ := h₃.next (a := ISyncEvent.update 0) ⟨trivial, 0, st₃, rfl, hupdate, rfl⟩
  have h₅ := h₄.next (a := ISyncEvent.cdirty) ⟨trivial, 0, rfl, rfl⟩
  refine ⟨_, h₅, noLostUpdate_of_reachable h₅, rfl, rfl, ?_⟩
  dsimp only
  rw [Efs.modInode_inode_self]
  exact of_decide_eq_true htype

/-- The type is changed once more after the inode has been written to the disk. The inode is taken
off the list, and the disk has the old type. -/
theorem exists_lost_update : ∃ s : ISyncState, Reachable ISyncState.Start ISyncStep s ∧
    ¬NoLostUpdate s := by
  -- the second word of the record is the type
  have hends : endsWith (fun st => efsIUpdate (efsIType st 0 .fReg) 0 0) (fun st => st.inodes = 1 ∧
      (diskWords st.disk (inodeAddr st.sb.ds (st.inode 0).di.no) (dInodeSize / 4))[1]? = some 1) =
      true := by decide +kernel
  obtain ⟨st₀, st₂, hfresh, hupdate, hend⟩ := exists_of_endsWith hends
  obtain ⟨hinodes₂, hword⟩ := of_decide_eq_true hend
  obtain ⟨diskSize, ipages, bpages, hmounted⟩ := Efs.FreshOn.mounted hfresh
  have hi : 0 < st₀.inodes := Nat.lt_of_lt_of_eq Nat.one_pos hmounted.inodes.symm
  have hi₂ : 0 < st₂.inodes := hinodes₂.symm ▸ Nat.one_pos
  have h₀ : Reachable ISyncState.Start ISyncStep _ := .start (start_mounted hmounted)
  have h₁ := h₀.next (a := ISyncEvent.type 0 .fReg) ⟨hi, rfl⟩
  have h₂ := h₁.next (a := ISyncEvent.pop) ⟨rfl, 0, _, rfl, rfl⟩
  have h₃ := h₂.next (a := ISyncEvent.update 0) ⟨0, st₂, rfl, hupdate, rfl⟩
  have h₄ := h₃.next (a := ISyncEvent.type 0 .fDir) ⟨hi₂, rfl⟩
  have h₅ := h₄.next (a := ISyncEvent.cdirty) ⟨0, rfl, rfl⟩
  refine ⟨_, h₅, fun hlost => absurd (hlost 0 ?_ fun hcopied => ?_) ?_⟩
  · exact (inodes_efsIType ..).symm ▸ hi₂
  · have hv : ((efsIType st₂ 0 .fDir).modInode 0 fun x => { x with dirty := false }).view =
        (st₂.view.modDi 0 fun x => { x with type := .fDir }).iSdirty 0 :=
      (view_modInode rfl rfl).trans (view_efsIType ..)
    obtain ⟨pad, hpad⟩ := (hv ▸ hcopied : View.Copied _ 0).record
    have hsecond := congrArg (·[1]?) hpad
    simp only [View.iSdirty, View.modDi, Function.update_self] at hsecond
    rw [show (diskWords st₂.view.disk (inodeAddr st₂.view.sb.ds (st₂.view.di 0).no)
      (dInodeSize / 4))[1]? = some 1 from hword] at hsecond
    simp [DInode.words, FileType.toWord] at hsecond
  · rintro (⟨n, -, hn⟩ | hphase)
    · exact hn 0 (Nat.zero_le n) rfl
    · cases hphase

end RiscvLab.Fs
