import RiscvLab.Fs.Mount
import RiscvLab.Library.Reachable

/-!
# Fetching an inode by several threads

`efs_i_get` looks an inode up in the hash table, or puts a new one there, under `s_lock`. The thread
that has put it there takes `i_slock` before it releases `s_lock`, and reads the inode from the disk
while it has `i_slock`; then it sets `I_VALID`. A thread that finds the inode tests `I_VALID`
without a lock, and waits for `i_slock` if the flag is not set yet.

The steps of a call are the section under `s_lock`, `efs_i_fill`, the setting of the flag,
`wake_up`, the test of the flag, `sleep_on`, and the `atomic_inc` with the return. `i_slock` is a
lock that at most one thread has (`mutexSafe_of_reachable`).

The root is read by `efs_i_root_init`, which also counts the reference that the kernel keeps. So
`efs_i_fill` never runs for it, and its counter is one above the number of calls
(`exists_root_refcnt`).

## Main definitions

* `IGetState`, `IGetStep` : the threads.
* `IGetSafe` : what holds in every state of every run.

## Main results

* `iGetSafe_of_reachable`.

Source: `fs/easyfs/inode.c`, lines 19–69, 188–229 and 405–421; `include/lib/hash.h`, lines 37–63.
-/

namespace RiscvLab.Fs

open Library

variable {τ : Type*}

/-- What a call of `efs_i_get` does next: read the inode, set the flag, release `i_slock`, test the
flag, wait for `i_slock`, release it again, or return. -/
inductive IGetPhase
  | fill
  | setValid
  | publish
  | test
  | wait
  | wake
  | ret
  deriving DecidableEq

/-- A call behind the section under `s_lock`: `ino` is its argument and `inode` what it has
found. -/
structure IGetCall where
  phase : IGetPhase
  ino : BitVec 32
  inode : ℕ

/-- The file system, the threads that have the locks `i_slock`, the calls, how often `efs_i_fill`
has run for a number, and the results of the calls that have returned. -/
structure IGetState (τ : Type*) where
  efs : Efs
  slock : ℕ → Option τ
  call : τ → Option IGetCall
  fills : BitVec 32 → ℕ
  returned : List (BitVec 32 × ℕ)

/-- The number is that of an inode on the disk. -/
def Efs.OnDisk (st : Efs) (ino : BitVec 32) : Prop :=
  0 < ino.toInt ∧ (DInode.read st.disk (inodeAddr st.sb.ds ino)).no = ino

/-- The new inode that `efs_i_get` puts into the hash table. -/
def efsIGetNew (st : Efs) (ino : BitVec 32) : ℕ × Efs :=
  let (i, st) := efsIAlloc st
  (i, efsIAddsb (st.modDi i fun x => { x with no := ino }) i)

inductive IGetEvent (τ : Type*)
  | enter (t : τ) (ino : BitVec 32)
  | fill (t : τ)
  | setValid (t : τ)
  | release (t : τ)
  | test (t : τ)
  | acquire (t : τ)
  | ret (t : τ)

/-- The call of the thread `t` becomes `c`. -/
def IGetState.setCall [DecidableEq τ] (s : IGetState τ) (t : τ) (c : Option IGetCall) :
    IGetState τ :=
  { s with call := Function.update s.call t c }

/-- One step of one thread. -/
def IGetStep [DecidableEq τ] (s : IGetState τ) (e : IGetEvent τ) (s' : IGetState τ) : Prop :=
  match e with
  | .enter t ino => s.call t = none ∧ s.efs.OnDisk ino ∧ s' =
      match hashFindInode s.efs ino with
      | some i => s.setCall t (some ⟨.test, ino, i⟩)
      | none =>
        let (i, efs) := efsIGetNew s.efs ino
        { s.setCall t (some ⟨.fill, ino, i⟩) with
          efs := efs
          slock := Function.update s.slock i (some t) }
  | .fill t => ∃ ino i efs, s.call t = some ⟨.fill, ino, i⟩ ∧ efsIFill s.efs i ino = .ok efs ∧
      s' = { s.setCall t (some ⟨.setValid, ino, i⟩) with
        efs := efs
        fills := Function.update s.fills ino (s.fills ino + 1) }
  | .setValid t => ∃ ino i, s.call t = some ⟨.setValid, ino, i⟩ ∧
      s' = { s.setCall t (some ⟨.publish, ino, i⟩) with
        efs := s.efs.modInode i fun x => { x with valid := true } }
  | .release t => ∃ phase ino i, s.call t = some ⟨phase, ino, i⟩ ∧
      (phase = .publish ∨ phase = .wake) ∧
      s' = { s.setCall t (some ⟨.ret, ino, i⟩) with slock := Function.update s.slock i none }
  | .test t => ∃ ino i, s.call t = some ⟨.test, ino, i⟩ ∧
      s' = s.setCall t (some ⟨if (s.efs.inode i).valid then .ret else .wait, ino, i⟩)
  | .acquire t => ∃ ino i, s.call t = some ⟨.wait, ino, i⟩ ∧ s.slock i = none ∧
      s' = { s.setCall t (some ⟨.wake, ino, i⟩) with slock := Function.update s.slock i (some t) }
  | .ret t => ∃ ino i, s.call t = some ⟨.ret, ino, i⟩ ∧
      s' = { s.setCall t none with
        efs := efsIDup s.efs i
        returned := (ino, i) :: s.returned }

/-- The superblock and the root inode have just been read, and no call has begun. -/
structure IGetState.Started (s : IGetState τ) : Prop where
  efs : ∃ disk sb dev junk, efsIRootInit (.blank disk sb dev junk) = .ok s.efs
  slock : ∀ i, s.slock i = none
  call : ∀ t, s.call t = none
  fills : ∀ ino, s.fills ino = 0
  returned : s.returned = []

/-- What holds in every state. The root has the number 1 and is the inode 0. -/
structure IGetSafe (s : IGetState τ) : Prop where
  /-- Calls for one number return the same inode. -/
  same : ∀ ino i j, (ino, i) ∈ s.returned → (ino, j) ∈ s.returned → i = j
  /-- `efs_i_fill` runs once at most, and not for the root. -/
  once : ∀ ino, s.fills ino ≤ if ino = 1 then 0 else 1
  /-- When a call has returned, it has run. -/
  filled : ∀ ino i, (ino, i) ∈ s.returned → ino ≠ 1 → s.fills ino = 1
  /-- The inode that is returned has been read from the disk. -/
  read : ∀ ino i, (ino, i) ∈ s.returned → (s.efs.inode i).valid = true ∧
    (s.efs.inode i).di = DInode.read s.efs.disk (inodeAddr s.efs.sb.ds ino)
  /-- The counter of references is the number of calls that have returned, and the root has one
  more. -/
  refcnt : ∀ i < s.efs.inodes, (s.efs.inode i).refcnt = BitVec.ofNat 32
    ((s.returned.filter fun x => x.1 = (s.efs.inode i).di.no).length + if i = 0 then 1 else 0)

/-! ### The hash table -/

/-- Every inode in memory is in the bucket of its number, and no two have the same number. -/
structure HashOk (st : Efs) : Prop where
  root : 0 < st.inodes ∧ (st.inode 0).di.no = 1
  bound : ∀ b, ∀ i ∈ st.ihash b, i < st.inodes
  known : ∀ i < st.inodes, i ∈ st.ihash ((st.inode i).di.no.toNat % buckets)
  unique : ∀ i < st.inodes, ∀ j < st.inodes, (st.inode i).di.no = (st.inode j).di.no → i = j

section Hash

variable {st st' : Efs} {ino : BitVec 32} {i : ℕ}

theorem HashOk.congr (h : HashOk st) (hinodes : st'.inodes = st.inodes)
    (hihash : st'.ihash = st.ihash)
    (hno : ∀ i, (st'.inode i).di.no = (st.inode i).di.no) : HashOk st' := by
  refine ⟨?_, ?_, ?_, ?_⟩
  · rw [hinodes, hno]
    exact h.root
  · rw [hinodes, hihash]
    exact h.bound
  · simpa only [hinodes, hihash, hno] using h.known
  · simpa only [hinodes, hno] using h.unique

theorem HashOk.of_find (h : HashOk st) (hf : hashFindInode st ino = some i) :
    i < st.inodes ∧ (st.inode i).di.no = ino :=
  ⟨h.bound _ i (List.mem_of_find?_eq_some hf), by simpa using List.find?_some hf⟩

theorem HashOk.ne_of_find (h : HashOk st) (hf : hashFindInode st ino = none) (hi : i < st.inodes) :
    (st.inode i).di.no ≠ ino := by
  intro e
  have hmem := h.known i hi
  rw [e] at hmem
  simpa [e] using List.find?_eq_none.1 hf i hmem

/-- The state behind the section under `s_lock`, when the inode was not in memory. -/
theorem efsIGetNew_eq (st : Efs) (ino : BitVec 32) : efsIGetNew st ino = (st.inodes, { st with
    inode := Function.update st.inode st.inodes
      ⟨⟨ino, .fNone, 0, 0, fun _ => 0, 0⟩, 0, false, false, none⟩
    inodes := st.inodes + 1
    ihash := Function.update st.ihash (ino.toNat % buckets)
      (st.inodes :: st.ihash (ino.toNat % buckets)) }) := by
  simp [efsIGetNew, efsIAlloc, efsIAddsb, Efs.modDi, Efs.modInode]

theorem HashOk.new (h : HashOk st) (hf : hashFindInode st ino = none) :
    HashOk (efsIGetNew st ino).2 := by
  have hne : ∀ i < st.inodes, i ≠ st.inodes := fun i hi => hi.ne
  rw [efsIGetNew_eq]
  refine ⟨⟨Nat.succ_pos _, ?_⟩, fun b i hi => ?_, fun i hi => ?_, fun i hi j hj hij => ?_⟩
  · dsimp only
    rw [Function.update_of_ne (hne 0 h.root.1)]
    exact h.root.2
  · dsimp only at hi ⊢
    by_cases hb : b = ino.toNat % buckets
    · subst hb
      rw [Function.update_self, List.mem_cons] at hi
      rcases hi with rfl | hi
      · exact Nat.lt_succ_self _
      · exact (h.bound _ i hi).trans (Nat.lt_succ_self _)
    · rw [Function.update_of_ne hb] at hi
      exact (h.bound _ i hi).trans (Nat.lt_succ_self _)
  · dsimp only at hi ⊢
    rcases Nat.lt_succ_iff_lt_or_eq.1 hi with hi | rfl
    · rw [Function.update_of_ne (hne i hi)]
      have hmem := h.known i hi
      by_cases hb : (st.inode i).di.no.toNat % buckets = ino.toNat % buckets
      · rw [hb, Function.update_self]
        exact List.mem_cons_of_mem _ (hb ▸ hmem)
      · rwa [Function.update_of_ne hb]
    · rw [Function.update_self, Function.update_self]
      exact List.mem_cons_self
  · dsimp only at hi hj hij
    rcases Nat.lt_succ_iff_lt_or_eq.1 hi with hi | rfl <;>
      rcases Nat.lt_succ_iff_lt_or_eq.1 hj with hj | rfl
    · rw [Function.update_of_ne (hne i hi), Function.update_of_ne (hne j hj)] at hij
      exact h.unique i hi j hj hij
    · rw [Function.update_of_ne (hne i hi), Function.update_self] at hij
      exact absurd hij (h.ne_of_find hf hi)
    · rw [Function.update_of_ne (hne j hj), Function.update_self] at hij
      exact absurd hij.symm (h.ne_of_find hf hj)
    · rfl

end Hash

/-! ### The invariant -/

/-- The inode has been read from the disk, by `efs_i_fill` unless it is the root. -/
def IGetState.Filled (s : IGetState τ) (i : ℕ) : Prop :=
  (s.efs.inode i).di = DInode.read s.efs.disk (inodeAddr s.efs.sb.ds (s.efs.inode i).di.no) ∧
    s.fills (s.efs.inode i).di.no = if i = 0 then 0 else 1

/-- The phases of a call that has `i_slock`. -/
def IGetPhase.HasLock : IGetPhase → Prop
  | fill | setValid | publish | wake => True
  | test | wait | ret => False

/-- The phases of a call that reads the inode. -/
def IGetPhase.IsFilling : IGetPhase → Prop
  | fill | setValid => True
  | publish | test | wait | wake | ret => False

/-- The phases of a call that has seen that the inode is valid. -/
def IGetPhase.SeenValid : IGetPhase → Prop
  | publish | wake | ret => True
  | fill | setValid | test | wait => False

theorem IGetPhase.IsFilling.hasLock {p : IGetPhase} (h : p.IsFilling) : p.HasLock := by
  cases p <;> first | exact h.elim | trivial

/-- What holds of a call of the thread `t`. -/
structure CallInv (s : IGetState τ) (t : τ) (c : IGetCall) : Prop where
  lt : c.inode < s.efs.inodes
  no : (s.efs.inode c.inode).di.no = c.ino
  disk : s.efs.OnDisk c.ino
  locked : c.phase.HasLock → s.slock c.inode = some t
  seen : c.phase.SeenValid → (s.efs.inode c.inode).valid = true
  filling : c.phase.IsFilling → (s.efs.inode c.inode).valid = false ∧ c.inode ≠ 0 ∧
    (c.phase = .fill ∧ s.fills c.ino = 0 ∨ c.phase = .setValid ∧ s.Filled c.inode)

/-- What holds of an inode in memory: it is valid, or a call reads it. -/
structure InodeInv (s : IGetState τ) (i : ℕ) : Prop where
  phase : (s.efs.inode i).valid = true ∧ s.Filled i ∨
    ∃ t c, s.call t = some c ∧ c.phase.IsFilling ∧ c.inode = i
  returned : ∀ x ∈ s.returned, x.2 = i →
    (s.efs.inode i).di.no = x.1 ∧ (s.efs.inode i).valid = true
  refcnt : (s.efs.inode i).refcnt = BitVec.ofNat 32
    ((s.returned.filter fun x => x.2 = i).length + if i = 0 then 1 else 0)

structure IGetInv (s : IGetState τ) : Prop where
  hash : HashOk s.efs
  call : ∀ t c, s.call t = some c → CallInv s t c
  inode : ∀ i < s.efs.inodes, InodeInv s i
  absent : ∀ ino, (∀ i < s.efs.inodes, (s.efs.inode i).di.no ≠ ino) → s.fills ino = 0
  returned : ∀ x ∈ s.returned, x.2 < s.efs.inodes

namespace IGetInv

variable {s s' : IGetState τ} {t t' : τ} {c c' : IGetCall} {ino : BitVec 32} {i : ℕ}

theorem filled (hI : IGetInv s) (hi : i < s.efs.inodes) (hvalid : (s.efs.inode i).valid = true) :
    s.Filled i := by
  rcases (hI.inode i hi).phase with h | ⟨t, c, hc, hfill, rfl⟩
  · exact h.2
  · rw [((hI.call t c hc).filling hfill).1] at hvalid
    cases hvalid

theorem safe (hI : IGetInv s) : IGetSafe s := by
  have hfilled : ∀ ino i, (ino, i) ∈ s.returned → (s.efs.inode i).valid = true ∧ s.Filled i ∧
      (s.efs.inode i).di.no = ino ∧ i < s.efs.inodes := by
    intro ino i hmem
    have hi := hI.returned _ hmem
    obtain ⟨hno, hvalid⟩ := (hI.inode i hi).returned _ hmem rfl
    exact ⟨hvalid, hI.filled hi hvalid, hno, hi⟩
  have hroot : ∀ i < s.efs.inodes, (s.efs.inode i).di.no = 1 ↔ i = 0 := fun i hi =>
    ⟨fun h => hI.hash.unique i hi 0 hI.hash.root.1 (h.trans hI.hash.root.2.symm),
      fun h => h ▸ hI.hash.root.2⟩
  refine ⟨fun ino i j hi hj => ?_, fun ino => ?_, fun ino i hmem hne => ?_, fun ino i hmem => ?_,
    fun i hi => ?_⟩
  · obtain ⟨-, -, hno, hlt⟩ := hfilled _ _ hi
    obtain ⟨-, -, hno', hlt'⟩ := hfilled _ _ hj
    exact hI.hash.unique i hlt j hlt' (hno.trans hno'.symm)
  · by_cases hex : ∃ i < s.efs.inodes, (s.efs.inode i).di.no = ino
    · obtain ⟨i, hi, rfl⟩ := hex
      rw [if_congr (hroot i hi) rfl rfl]
      rcases (hI.inode i hi).phase with ⟨-, -, h⟩ | ⟨t, c, hc, hfill, rfl⟩
      · exact h.le
      have hcall := hI.call t c hc
      rw [hcall.no]
      rcases (hcall.filling hfill).2.2 with ⟨-, h⟩ | ⟨-, -, h⟩
      · rw [h]
        exact Nat.zero_le _
      · rw [hcall.no] at h
        exact h.le
    · rw [hI.absent ino fun i hi h => hex ⟨i, hi, h⟩]
      exact Nat.zero_le _
  · obtain ⟨-, ⟨-, h⟩, rfl, hlt⟩ := hfilled _ _ hmem
    rw [h, if_neg fun e => hne ((hroot i hlt).2 e)]
  · obtain ⟨hvalid, ⟨h, -⟩, hno, -⟩ := hfilled _ _ hmem
    rw [hno] at h
    exact ⟨hvalid, h⟩
  · rw [(hI.inode i hi).refcnt]
    congr 3
    refine List.filter_congr fun x hx => ?_
    obtain ⟨-, -, hno, hlt⟩ := hfilled x.1 x.2 hx
    rw [decide_eq_decide, ← hno]
    exact ⟨fun h => by rw [h], fun h => hI.hash.unique _ hlt _ hi h⟩

/-- Two calls that have the lock of an inode are one. -/
theorem eq_of_locked (hI : IGetInv s) (hc : s.call t = some c) (hc' : s.call t' = some c')
    (hl : c.phase.HasLock) (hl' : c'.phase.HasLock) (hi : c.inode = c'.inode) : t = t' := by
  have h := (hI.call t c hc).locked hl
  rw [hi, (hI.call t' c' hc').locked hl'] at h
  exact (Option.some.inj h).symm

theorem start (h : s.Started) : IGetInv s := by
  obtain ⟨disk, sb, dev, junk, hinit⟩ := h.efs
  obtain ⟨hn, hroot, hno, hhash, hsb, -⟩ := efsIRootInit_cases hinit
  have hdisk := disk_of_efsIRootInit hinit
  have hzero : ∀ i < s.efs.inodes, i = 0 := fun i hi => by omega
  have hmem : ∀ b, ∀ i ∈ s.efs.ihash b, b = 1 ∧ i = 0 := by
    intro b i hi
    rw [hhash] at hi
    by_cases hb : b = 1
    · simpa [hb, Efs.blank] using hi
    · simp [hb, Efs.blank] at hi
  have hone : (s.efs.inode 0).di.no = 1 := by rw [hroot]; exact hno
  refine ⟨⟨⟨by omega, hone⟩, fun b i hi => ?_, fun i hi => ?_, fun i hi j hj _ => ?_⟩,
    fun t c hc => ?_, fun i hi => ⟨?_, fun x hx => ?_, ?_⟩, fun ino _ => h.fills ino,
    fun x hx => ?_⟩
  · rw [(hmem b i hi).2, hn]
    exact Nat.one_pos
  · rw [hzero i hi, hone, hhash]
    exact List.mem_cons_self
  · rw [hzero i hi, hzero j hj]
  · rw [h.call t] at hc
    cases hc
  · rw [hzero i hi]
    refine .inl ⟨by rw [hroot], ?_, by rw [h.fills, if_pos rfl]⟩
    rw [hone, hroot, hsb, hdisk]
  · rw [h.returned] at hx
    cases hx
  · rw [hzero i hi, hroot, h.returned]
    rfl
  · rw [h.returned] at hx
    cases hx

end IGetInv

/-! ### Steps -/

/-- A step of the thread `t` for the inode `i`, which may be new. The other inodes, and what the
other threads do, stay. -/
structure IGetState.Changes (s s' : IGetState τ) (t : τ) (i : ℕ) : Prop where
  disk : s'.efs.disk = s.efs.disk
  sb : s'.efs.sb = s.efs.sb
  lt : i < s'.efs.inodes
  le : s.efs.inodes ≤ s'.efs.inodes
  inodes : ∀ j < s'.efs.inodes, j ≠ i → j < s.efs.inodes
  inode : ∀ j < s.efs.inodes, j ≠ i → s'.efs.inode j = s.efs.inode j
  no : i < s.efs.inodes → (s'.efs.inode i).di.no = (s.efs.inode i).di.no
  call : ∀ t' ≠ t, s'.call t' = s.call t'
  slock : ∀ j ≠ i, s'.slock j = s.slock j
  fills : ∀ ino, ino ≠ (s'.efs.inode i).di.no → s'.fills ino = s.fills ino
  returned : ∀ j ≠ i, (s'.returned.filter fun x => x.2 = j) = s.returned.filter fun x => x.2 = j

namespace IGetState.Changes

variable {s s' : IGetState τ} {t t' : τ} {c c' : IGetCall} {i j : ℕ}

variable (h : s.Changes s' t i)

include h

theorem onDisk {ino : BitVec 32} (hd : s.efs.OnDisk ino) : s'.efs.OnDisk ino := by
  rwa [Efs.OnDisk, h.disk, h.sb]

theorem mem {x : BitVec 32 × ℕ} (hx : x ∈ s'.returned) (hne : x.2 ≠ i) : x ∈ s.returned := by
  have : x ∈ s'.returned.filter fun y => y.2 = x.2 := List.mem_filter.2 ⟨hx, decide_eq_true rfl⟩
  rw [h.returned _ hne] at this
  exact (List.mem_filter.1 this).1

theorem fills_eq (hhash : HashOk s'.efs) (hj : j < s.efs.inodes) (hne : j ≠ i) :
    s'.fills (s.efs.inode j).di.no = s.fills (s.efs.inode j).di.no := by
  refine h.fills _ fun e => hne (hhash.unique j (hj.trans_le h.le) i h.lt ?_)
  rw [h.inode j hj hne, e]

theorem filled (hhash : HashOk s'.efs) (hj : j < s.efs.inodes) (hne : j ≠ i) (hF : s.Filled j) :
    s'.Filled j := by
  rw [IGetState.Filled, h.inode j hj hne, h.disk, h.sb, h.fills_eq hhash hj hne]
  exact hF

/-- The call of another thread, for another inode. -/
theorem callInv (hhash : HashOk s'.efs) (hc : CallInv s t' c) (hne : c.inode ≠ i) :
    CallInv s' t' c := by
  refine ⟨hc.lt.trans_le h.le, ?_, h.onDisk hc.disk, ?_, ?_, fun hfill => ?_⟩
  · rw [h.inode _ hc.lt hne, hc.no]
  · rw [h.slock _ hne]
    exact hc.locked
  · rw [h.inode _ hc.lt hne]
    exact hc.seen
  · have hfills := h.fills_eq hhash hc.lt hne
    rw [hc.no] at hfills
    rw [h.inode _ hc.lt hne, hfills]
    obtain ⟨hvalid, h₀, hor⟩ := hc.filling hfill
    exact ⟨hvalid, h₀, hor.imp_right (And.imp_right (h.filled hhash hc.lt hne))⟩

theorem inodeInv (hhash : HashOk s'.efs) (hj : j < s.efs.inodes) (hne : j ≠ i)
    (hold : ∀ c, s.call t = some c → c.phase.IsFilling → c.inode = i) (hI : InodeInv s j) :
    InodeInv s' j := by
  refine ⟨?_, fun x hx hxj => ?_, ?_⟩ <;> rw [h.inode j hj hne]
  · refine hI.phase.imp (And.imp_right (h.filled hhash hj hne)) ?_
    rintro ⟨t', c, hc, hfill, rfl⟩
    refine ⟨t', c, ?_, hfill, rfl⟩
    rwa [h.call]
    rintro rfl
    exact hne (hold c hc hfill)
  · exact hI.returned x (h.mem hx (hxj ▸ hne)) hxj
  · rw [h.returned j hne]
    exact hI.refcnt

theorem inv (hI : IGetInv s) (hhash : HashOk s'.efs)
    (hself : ∀ c, s'.call t = some c → CallInv s' t c)
    (hother : ∀ t' c, t' ≠ t → s.call t' = some c → c.inode = i → CallInv s' t' c)
    (hold : ∀ c, s.call t = some c → c.phase.IsFilling → c.inode = i) (hi : InodeInv s' i) :
    IGetInv s' := by
  refine ⟨hhash, fun t' c hc => ?_, fun j hj => ?_, fun ino hno => ?_, fun x hx => ?_⟩
  · by_cases ht : t' = t
    · subst ht
      exact hself c hc
    rw [h.call t' ht] at hc
    by_cases hci : c.inode = i
    · exact hother t' c ht hc hci
    · exact h.callInv hhash (hI.call t' c hc) hci
  · by_cases hji : j = i
    · exact hji ▸ hi
    · have hj := h.inodes j hj hji
      exact h.inodeInv hhash hj hji hold (hI.inode j hj)
  · rw [h.fills ino (hno i h.lt).symm]
    refine hI.absent ino fun j hj => ?_
    have hne := hno j (hj.trans_le h.le)
    by_cases hji : j = i
    · subst hji
      rwa [h.no hj] at hne
    · rwa [h.inode j hj hji] at hne
  · by_cases hxi : x.2 = i
    · exact hxi ▸ h.lt
    · exact (hI.returned x (h.mem hx hxi)).trans_le h.le

end IGetState.Changes

variable [DecidableEq τ]

namespace IGetInv

variable {s s' : IGetState τ} {t : τ} {ino : BitVec 32} {i : ℕ}

theorem setCall_of_ne {t' : τ} {c : Option IGetCall} (ht : t' ≠ t) :
    (s.setCall t c).call t' = s.call t' :=
  Function.update_of_ne ht _ _

theorem setCall_self {c : Option IGetCall} : (s.setCall t c).call t = c :=
  Function.update_self ..

/-- A call that does not read the inode goes on. -/
theorem move (hI : IGetInv s) {c : IGetCall} {slock : ℕ → Option τ}
    (hold : ∀ c₀, s.call t = some c₀ → ¬c₀.phase.IsFilling) (hnew : ¬c.phase.IsFilling)
    (hlt : c.inode < s.efs.inodes) (hno : (s.efs.inode c.inode).di.no = c.ino)
    (hdisk : s.efs.OnDisk c.ino) (hlock : c.phase.HasLock → slock c.inode = some t)
    (hslock : ∀ j ≠ c.inode, slock j = s.slock j)
    (hother : ∀ t' c', t' ≠ t → s.call t' = some c' → c'.phase.HasLock → c'.inode = c.inode →
      slock c'.inode = some t')
    (hseen : c.phase.SeenValid → (s.efs.inode c.inode).valid = true) :
    IGetInv { s.setCall t (some c) with slock := slock } := by
  have h : s.Changes { s.setCall t (some c) with slock := slock } t c.inode :=
    ⟨rfl, rfl, hlt, le_rfl, fun _ hj _ => hj, fun _ _ _ => rfl, fun _ => rfl,
      fun _ => setCall_of_ne, hslock, fun _ _ => rfl, fun _ _ => rfl⟩
  refine h.inv hI hI.hash (fun c' hc' => ?_) (fun t' c' ht hc' hi => ?_)
    (fun c₀ h₀ hf => absurd hf (hold c₀ h₀)) { hI.inode _ hlt with phase := ?_ }
  · obtain rfl := Option.some.inj (setCall_self.symm.trans hc')
    exact ⟨hlt, hno, hdisk, hlock, hseen, fun hf => absurd hf hnew⟩
  · exact { hI.call t' c' hc' with locked := fun hl => hother t' c' ht hc' hl hi }
  · refine (hI.inode _ hlt).phase.imp_right ?_
    rintro ⟨t', c', hc, hf, hc'⟩
    refine ⟨t', c', (setCall_of_ne ?_).trans hc, hf, hc'⟩
    rintro rfl
    exact hold c' hc hf

theorem enter_new (hI : IGetInv s) (hf : hashFindInode s.efs ino = none) (hdisk : s.efs.OnDisk ino)
    (hidle : s.call t = none) :
    IGetInv { s.setCall t (some ⟨.fill, ino, s.efs.inodes⟩) with
      efs := (efsIGetNew s.efs ino).2
      slock := Function.update s.slock s.efs.inodes (some t) } := by
  have hhash := hI.hash.new hf
  have hzero : s.fills ino = 0 := hI.absent ino fun i hi => hI.hash.ne_of_find hf hi
  have hnone : (s.returned.filter fun x => x.2 = s.efs.inodes) = [] := by
    rw [List.filter_eq_nil_iff]
    intro x hx
    simpa using (hI.returned x hx).ne
  rw [efsIGetNew_eq] at hhash ⊢
  refine IGetState.Changes.inv (s := s) (t := t) (i := s.efs.inodes) ⟨rfl, rfl, Nat.lt_succ_self _,
    Nat.le_succ _, fun j hj hne => ?_, fun j hj hne => ?_, fun h => absurd h (lt_irrefl _),
    fun _ => setCall_of_ne, fun j hne => ?_, fun _ _ => rfl, fun _ _ => rfl⟩ hI hhash
    (fun c hc => ?_) (fun t' c ht hc hi => ?_) (fun c hc => ?_) ⟨?_, fun x hx hxi => ?_, ?_⟩
  · dsimp only at hj
    omega
  · exact Function.update_of_ne hne ..
  · exact Function.update_of_ne hne ..
  · obtain rfl := Option.some.inj (setCall_self.symm.trans hc)
    exact ⟨Nat.lt_succ_self _, by simp, hdisk, fun _ => Function.update_self .., False.elim,
      fun _ => ⟨by simp, hI.hash.root.1.ne', .inl ⟨rfl, hzero⟩⟩⟩
  · exact absurd hi (hI.call t' c hc).lt.ne
  · rw [hidle] at hc
    cases hc
  · exact .inr ⟨t, _, setCall_self, trivial, rfl⟩
  · exact absurd hxi (hI.returned x hx).ne
  · dsimp only
    rw [Function.update_self]
    simp [IGetState.setCall, hnone, hI.hash.root.1.ne']

/-- A call changes its inode, which no other call reads. -/
theorem modInode (hI : IGetInv s) {c : IGetCall} (hc : s.call t = some c) {co : Option IGetCall}
    {f : MInode → MInode} {fills : BitVec 32 → ℕ} {returned : List (BitVec 32 × ℕ)}
    (hs' : s' = { s.setCall t co with
      efs := s.efs.modInode c.inode f
      fills := fills
      returned := returned })
    (hno : (f (s.efs.inode c.inode)).di.no = c.ino)
    (hvalid : (s.efs.inode c.inode).valid = true → (f (s.efs.inode c.inode)).valid = true)
    (hfills : ∀ ino ≠ c.ino, fills ino = s.fills ino)
    (hreturned : ∀ j ≠ c.inode,
      (returned.filter fun x => x.2 = j) = s.returned.filter fun x => x.2 = j)
    (halone : ∀ t' c', t' ≠ t → s.call t' = some c' → c'.inode = c.inode → ¬c'.phase.IsFilling)
    (hself : ∀ c', co = some c' → CallInv s' t c') (hi : InodeInv s' c.inode) : IGetInv s' := by
  have hcall := hI.call t c hc
  have hnos (j : ℕ) : ((s.efs.modInode c.inode f).inode j).di.no = (s.efs.inode j).di.no := by
    by_cases hj : j = c.inode
    · rw [hj, Efs.modInode_inode_self, hno, hcall.no]
    · rw [Efs.modInode_inode_of_ne hj]
  have h : s.Changes s' t c.inode := by
    subst hs'
    exact ⟨rfl, rfl, hcall.lt, le_rfl, fun _ hj _ => hj, fun _ _ => Efs.modInode_inode_of_ne,
      fun _ => hnos _, fun _ => setCall_of_ne, fun _ _ => rfl,
      fun ino hne => hfills ino ((hnos _).trans hcall.no ▸ hne), hreturned⟩
  subst hs'
  refine h.inv hI (hI.hash.congr rfl rfl hnos)
    (fun c' hc' => hself c' (setCall_self.symm.trans hc')) (fun t' c' ht hc' hci => ?_)
    (fun c' hc' _ => ?_) hi
  · have hcall' := hI.call t' c' hc'
    refine ⟨hcall'.lt, (hnos _).trans hcall'.no, hcall'.disk, hcall'.locked, fun hs => ?_,
      fun hf => absurd hf (halone t' c' ht hc' hci)⟩
    dsimp only
    rw [hci, Efs.modInode_inode_self]
    exact hvalid (hci ▸ hcall'.seen hs)
  · obtain rfl := Option.some.inj (hc.symm.trans hc')
    rfl

/-- The call that made the inode reads it from the disk. -/
theorem fill (hI : IGetInv s) (hc : s.call t = some ⟨.fill, ino, i⟩) :
    IGetInv { s.setCall t (some ⟨.setValid, ino, i⟩) with
      efs := s.efs.modDi i fun _ => .read s.efs.disk (inodeAddr s.efs.sb.ds ino)
      fills := Function.update s.fills ino (s.fills ino + 1) } := by
  obtain ⟨hi, hno, hdisk, hlock, -, hfilling⟩ := hI.call t _ hc
  obtain ⟨hvalid, h₀, hzero⟩ := hfilling trivial
  dsimp only at hi hno hdisk hlock hvalid h₀ hzero
  have hzero : s.fills ino = 0 := by simpa using hzero
  rw [Efs.modDi]
  refine hI.modInode hc rfl hdisk.2 id (fun _ hne => Function.update_of_ne hne ..)
    (fun _ _ => rfl) (fun t' c ht hc' hci hf => ht (hI.eq_of_locked hc' hc hf.hasLock trivial hci))
    (fun c hc' => ?_) ⟨.inr ⟨t, _, setCall_self, trivial, rfl⟩, fun x hx hxi => ?_, ?_⟩
  · obtain rfl := Option.some.inj hc'
    refine ⟨hi, ?_, hdisk, fun _ => hlock trivial, False.elim, fun _ => ?_⟩
    · dsimp only
      rw [Efs.modInode_inode_self]
      exact hdisk.2
    · dsimp only [IGetState.Filled]
      rw [Efs.modInode_inode_self, hdisk.2, Function.update_self, hzero, if_neg h₀]
      exact ⟨hvalid, h₀, .inr ⟨rfl, rfl, rfl⟩⟩
  · have := ((hI.inode i hi).returned x hx hxi).2
    rw [hvalid] at this
    cases this
  · dsimp only
    rw [Efs.modInode_inode_self]
    exact (hI.inode i hi).refcnt

/-- The inode that has been read becomes valid. -/
theorem setValid (hI : IGetInv s) (hc : s.call t = some ⟨.setValid, ino, i⟩) :
    IGetInv { s.setCall t (some ⟨.publish, ino, i⟩) with
      efs := s.efs.modInode i fun x => { x with valid := true } } := by
  obtain ⟨hi, hno, hdisk, hlock, -, hfilling⟩ := hI.call t _ hc
  have hF : s.Filled i := by
    simpa using (hfilling trivial).2.2
  refine hI.modInode hc rfl hno (fun _ => rfl) (fun _ _ => rfl) (fun _ _ => rfl)
    (fun t' c ht hc' hci hf => ht (hI.eq_of_locked hc' hc hf.hasLock trivial hci))
    (fun c hc' => ?_) ⟨.inl ⟨?_, ?_⟩, fun x hx hxi => ?_, ?_⟩
  · obtain rfl := Option.some.inj hc'
    refine ⟨hi, ?_, hdisk, fun _ => hlock trivial, fun _ => ?_, False.elim⟩
    all_goals
      dsimp only
      rw [Efs.modInode_inode_self]
    exact hno
  all_goals
    dsimp only [IGetState.Filled]
    rw [Efs.modInode_inode_self]
  · exact hF
  · exact ⟨((hI.inode i hi).returned x hx hxi).1, rfl⟩
  · exact (hI.inode i hi).refcnt

/-- A call returns, and its reference is counted. -/
theorem ret (hI : IGetInv s) (hc : s.call t = some ⟨.ret, ino, i⟩) :
    IGetInv { s.setCall t none with
      efs := efsIDup s.efs i
      returned := (ino, i) :: s.returned } := by
  obtain ⟨hi, hno, -, -, hseen, -⟩ := hI.call t _ hc
  have hv := hseen trivial
  dsimp only at hi hno hv
  rw [efsIDup]
  refine hI.modInode hc rfl hno id (fun _ _ => rfl) (fun j hj => by simp [hj.symm])
    (fun t' c ht hc' hci hf => ?_) (fun c hc' => ?_) ⟨.inl ⟨?_, ?_⟩, fun x hx hxi => ?_, ?_⟩
  · have := ((hI.call t' c hc').filling hf).1
    rw [hci, hv] at this
    cases this
  · cases hc'
  all_goals
    dsimp only [IGetState.Filled]
    rw [Efs.modInode_inode_self]
  · exact hv
  · exact hI.filled hi hv
  · rcases List.mem_cons.1 hx with rfl | hx
    · exact ⟨hno, hv⟩
    · exact (hI.inode i hi).returned x hx hxi
  · simp only [List.filter_cons, decide_true, if_true, List.length_cons]
    rw [Nat.add_right_comm, BitVec.ofNat_add _ 1]
    exact congrArg (· + 1) (hI.inode i hi).refcnt

theorem step {e : IGetEvent τ} (hI : IGetInv s) (h : IGetStep s e s') : IGetInv s' := by
  cases e with
  | enter t ino =>
    obtain ⟨hidle, hdisk, rfl⟩ := h
    cases hf : hashFindInode s.efs ino with
    | none => exact hI.enter_new hf hdisk hidle
    | some i =>
      obtain ⟨hi, hno⟩ := hI.hash.of_find hf
      refine hI.move (c := ⟨.test, ino, i⟩) (fun c₀ h₀ => ?_) id hi hno hdisk False.elim
        (fun _ _ => rfl) (fun t' c' _ h hl _ => (hI.call t' c' h).locked hl) False.elim
      rw [hidle] at h₀
      cases h₀
  | fill t =>
    obtain ⟨ino, i, efs, hc, hfill, rfl⟩ := h
    have hpos := (hI.call t _ hc).disk.1
    simp only [efsIFill, if_neg hpos.not_ge] at hfill
    obtain rfl := Except.ok.inj hfill
    exact hI.fill hc
  | setValid t =>
    obtain ⟨ino, i, hc, rfl⟩ := h
    exact hI.setValid hc
  | release t =>
    obtain ⟨phase, ino, i, hc, hphase, rfl⟩ := h
    have hlock : phase.HasLock := by
      rcases hphase with rfl | rfl <;> trivial
    have hseen : phase.SeenValid := by
      rcases hphase with rfl | rfl <;> trivial
    have hcall := hI.call t _ hc
    refine hI.move (c := ⟨.ret, ino, i⟩) (fun c₀ h₀ => ?_) id hcall.lt hcall.no hcall.disk
      False.elim (fun _ hne => Function.update_of_ne hne ..)
      (fun t' c' ht h hl hi => absurd (hI.eq_of_locked h hc hl hlock hi) ht)
      fun _ => hcall.seen hseen
    obtain rfl := Option.some.inj (hc.symm.trans h₀)
    rcases hphase with rfl | rfl <;> exact id
  | test t =>
    obtain ⟨ino, i, hc, rfl⟩ := h
    have hcall := hI.call t _ hc
    refine hI.move (c := ⟨_, ino, i⟩) (fun c₀ h₀ => ?_) ?_ hcall.lt hcall.no hcall.disk ?_
      (fun _ _ => rfl) (fun t' c' _ h hl _ => (hI.call t' c' h).locked hl) fun hs => ?_
    · obtain rfl := Option.some.inj (hc.symm.trans h₀)
      exact id
    · dsimp only
      split <;> exact id
    · dsimp only
      split <;> exact False.elim
    · dsimp only at hs ⊢
      by_contra hv
      rw [if_neg hv] at hs
      exact hs
  | acquire t =>
    obtain ⟨ino, i, hc, hfree, rfl⟩ := h
    have hcall := hI.call t _ hc
    have hvalid : (s.efs.inode i).valid = true := by
      rcases (hI.inode i hcall.lt).phase with ⟨hv, -⟩ | ⟨t', c', h, hfill, rfl⟩
      · exact hv
      · rw [(hI.call t' c' h).locked hfill.hasLock] at hfree
        cases hfree
    refine hI.move (c := ⟨.wake, ino, i⟩) (fun c₀ h₀ => ?_) id hcall.lt hcall.no hcall.disk
      (fun _ => Function.update_self ..) (fun _ hne => Function.update_of_ne hne ..)
      (fun t' c' _ h hl hi => ?_) fun _ => hvalid
    · obtain rfl := Option.some.inj (hc.symm.trans h₀)
      exact id
    · have hlock := (hI.call t' c' h).locked hl
      rw [hi, hfree] at hlock
      cases hlock
  | ret t =>
    obtain ⟨ino, i, hc, rfl⟩ := h
    exact hI.ret hc

end IGetInv

/-- In every interleaving of the calls of `efs_i_get`, the inode of a number is made and read once,
and no call returns before. -/
theorem iGetSafe_of_reachable {s : IGetState τ}
    (hreach : Reachable IGetState.Started IGetStep s) : IGetSafe s :=
  (hreach.invariant (fun _ h => IGetInv.start h) fun _ _ _ hI h => hI.step h).safe

/-! ### Runs -/

/-- A disk with the inodes 1 and 2. -/
private def twoInodes : Disk :=
  Function.update (Function.update (fun _ => 0) (inodeAddr (easySb 1000) 1) 1)
    (inodeAddr (easySb 1000) 2) 2

private def twoInodesRoot : Efs :=
  efsIAddsb { Efs.blank twoInodes (mounted twoInodes 0 0 1000) 0 (fun _ _ => 0) with
    inode := Function.update (fun _ => ⟨⟨0, .fNone, 0, 0, fun _ => 0, 0⟩, 0, false, false, none⟩) 0
      ⟨.read twoInodes (inodeAddr (easySb 1000) 1), 1, false, true, none⟩
    inodes := 1 } 0

private def twoInodesStart : IGetState Bool :=
  ⟨twoInodesRoot, fun _ => none, fun _ => none, fun _ => 0, []⟩

private theorem started_twoInodes : twoInodesStart.Started := by
  refine ⟨⟨twoInodes, mounted twoInodes 0 0 1000, 0, fun _ _ => 0, ?_⟩, fun _ => rfl, fun _ => rfl,
    fun _ => rfl, rfl⟩
  have hno : ¬(DInode.read twoInodes (inodeAddr (easySb 1000) 1)).no ≠ 1 := by decide
  rw [efsIRootInit]
  exact if_neg hno

/-- Two threads ask for the inode 2. The second one finds it in the hash table before the first one
has read it, waits for `i_slock`, and returns the same inode. -/
theorem iGetSafe_two_threads : ∃ s : IGetState Bool, Reachable IGetState.Started IGetStep s ∧
    IGetSafe s ∧ s.returned = [(2, 1), (2, 1)] ∧ s.fills 2 = 1 ∧ (s.efs.inode 1).refcnt = 2 := by
  have hdisk : twoInodesRoot.OnDisk 2 := ⟨by decide, by decide⟩
  have hreach : Reachable IGetState.Started IGetStep _ :=
    .next (a := IGetEvent.enter true 2) (.start started_twoInodes) ⟨rfl, hdisk, rfl⟩
  have hreach := Reachable.next (a := IGetEvent.enter false 2) hreach ⟨rfl, hdisk, rfl⟩
  have hreach := Reachable.next (a := IGetEvent.test false) hreach ⟨2, 1, rfl, rfl⟩
  have hreach := Reachable.next (a := IGetEvent.fill true) hreach ⟨2, 1, _, rfl, rfl, rfl⟩
  have hreach := Reachable.next (a := IGetEvent.setValid true) hreach ⟨2, 1, rfl, rfl⟩
  have hreach := Reachable.next (a := IGetEvent.release true) hreach ⟨_, 2, 1, rfl, .inl rfl, rfl⟩
  have hreach := Reachable.next (a := IGetEvent.acquire false) hreach ⟨2, 1, rfl, rfl, rfl⟩
  have hreach := Reachable.next (a := IGetEvent.ret true) hreach ⟨2, 1, rfl, rfl⟩
  have hreach := Reachable.next (a := IGetEvent.release false) hreach ⟨_, 2, 1, rfl, .inr rfl, rfl⟩
  have hreach := Reachable.next (a := IGetEvent.ret false) hreach ⟨2, 1, rfl, rfl⟩
  exact ⟨_, hreach, iGetSafe_of_reachable hreach, rfl, rfl, rfl⟩

/-- After one call for the root its counter is two, and `efs_i_fill` has not run. -/
theorem exists_root_refcnt : ∃ s : IGetState Bool, Reachable IGetState.Started IGetStep s ∧
    s.returned = [(1, 0)] ∧ (s.efs.inode 0).refcnt = 2 ∧ s.fills 1 = 0 := by
  have hdisk : twoInodesRoot.OnDisk 1 := ⟨by decide, by decide⟩
  have hreach : Reachable IGetState.Started IGetStep _ :=
    .next (a := IGetEvent.enter true 1) (.start started_twoInodes) ⟨rfl, hdisk, rfl⟩
  have hreach := Reachable.next (a := IGetEvent.test true) hreach ⟨1, 0, rfl, rfl⟩
  have hreach := Reachable.next (a := IGetEvent.ret true) hreach ⟨1, 0, rfl, rfl⟩
  exact ⟨_, hreach, rfl, rfl, rfl⟩

end RiscvLab.Fs
