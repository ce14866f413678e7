import Mathlib.Data.Fintype.Card
import RiscvLab.Lib.Semaphore

/-!
# Mutexes

A mutex is a semaphore with the value one, and two fields that name the owner. The fields are
written without a lock: `mutex_lock` writes them after `sem_wait`, `mutex_unlock` before
`sem_signal`. Each write is a step of its own here, as are `sem_wait` and `sem_signal`, which run
under the lock of the semaphore. In between the threads use the other semaphores of the kernel, also
those that hold the mutex.

The semaphore admits one thread at a time: of the threads that have called `sem_wait` and not
`sem_signal` yet, one does not wait in the queue (`MutexInv`). All writes to the owner fields are
its own.

## Main results

* `mutexSafe_of_reachable` : at most one thread is between `mutex_lock` and `mutex_unlock`, and the
  owner fields say which.

Source: `lib/mutex.c`; `include/lib/mutex.h`; `lib/semaphore.c`, lines 16–65;
`include/mm/memlayout.h`, line 44.
-/

namespace RiscvLab

open Library

/-- Where a thread is: outside, in `sem_wait`, before the two writes of `mutex_lock`, between
`mutex_lock` and `mutex_unlock`, and behind the two writes of `mutex_unlock`. -/
inductive MutexPc
  | outside
  | waiting
  | acquired
  | marked
  | inside
  | unmarked
  | cleared
  deriving DecidableEq

/-- A mutex and its users. Of the semaphores, `none` is that of the mutex. -/
structure MutexState (σ τ : Type*) where
  sems : SemState (Option σ) τ
  locked : ℤ
  thread : Option τ
  pc : τ → MutexPc

/-- `AVAILABLE_MEMORY`, the bytes from `KERNBASE` on. -/
def availableMemory : ℕ := 128 * 1024 * 1024

/-- `MUTEX_LOCK`. -/
def mutexLocked : ℤ := 1

/-- `MUTEX_UNLOCK`. -/
def mutexUnlocked : ℤ := 0

variable {σ τ : Type*} [DecidableEq σ] [DecidableEq τ]

/-- `mutex_init`. -/
def mutexInit (st : MutexState σ τ) : MutexState σ τ :=
  { st with
    sems := semInit st.sems none (BitVec.ofInt 32 mutexLocked)
    locked := mutexLocked
    thread := none }

/-- `mutex_is_hold` for the thread `t`. -/
def mutexIsHold (st : MutexState σ τ) (t : τ) : Bool :=
  decide (st.locked ≠ 0) && decide (st.thread = some t)

/-- The steps of the threads. -/
inductive MutexEvent (σ τ : Type*)
  | semWait (t : τ)
  | passed (t : τ)
  | setLocked (t : τ)
  | setThread (t : τ)
  | unsetLocked (t : τ)
  | unsetThread (t : τ)
  | semSignal (t : τ)
  | relock (t : τ)
  | otherWait (s : σ) (t : τ)
  | otherSignal (s : σ)
  | elsewhere

/-- The thread `t` goes on. -/
def MutexState.move (st : MutexState σ τ) (t : τ) (pc : MutexPc) : MutexState σ τ :=
  { st with pc := Function.update st.pc t pc }

/-- The thread `t` is awake and has come to `pc`. -/
def MutexState.At (st : MutexState σ τ) (t : τ) (pc : MutexPc) : Prop :=
  st.pc t = pc ∧ st.sems.state t ≠ .sleeping

/-- One step. A thread unlocks only what it has locked, and uses other semaphores while it is
outside or has the mutex. A thread that locks again what it has does not come back. -/
def MutexStep (st : MutexState σ τ) (e : MutexEvent σ τ) (st' : MutexState σ τ) : Prop :=
  match e with
  | .semWait t => st.At t .outside ∧
      st' = { st.move t .waiting with sems := semWait st.sems none t }
  | .passed t => st.At t .waiting ∧ st' = st.move t .acquired
  | .setLocked t => st.At t .acquired ∧ st' = { st.move t .marked with locked := mutexLocked }
  | .setThread t => st.At t .marked ∧ st' = { st.move t .inside with thread := some t }
  | .unsetLocked t => st.At t .inside ∧
      st' = { st.move t .unmarked with locked := mutexUnlocked }
  | .unsetThread t => st.At t .unmarked ∧ st' = { st.move t .cleared with thread := none }
  | .semSignal t => st.At t .cleared ∧ ∃ w m, semSignal st.sems none = some (w, m) ∧
      st' = { st.move t .outside with sems := m }
  | .relock t => st.At t .inside ∧ st' = { st with sems := semWait st.sems none t }
  | .otherWait s t => (st.At t .outside ∨ st.At t .inside) ∧
      st' = { st with sems := semWait st.sems (some s) t }
  | .otherSignal s => ∃ w m, semSignal st.sems (some s) = some (w, m) ∧
      st' = { st with sems := m }
  | .elsewhere => ∃ m, Elsewhere st.sems m ∧ st' = { st with sems := m }

/-- After `mutex_init`, before anybody has come: nobody sleeps, and the other semaphores have been
initialised too. -/
structure MutexState.Started (st : MutexState σ τ) : Prop where
  init : mutexInit st = st
  others : ∀ s, ∃ v : BitVec 32, 0 ≤ v.toInt ∧ semInit st.sems (some s) v = st.sems
  awake : ∀ t, st.sems.state t ≠ .sleeping
  outside : ∀ t, st.pc t = .outside

/-- At most one thread is between `mutex_lock` and `mutex_unlock`, and the fields of the mutex name
it. -/
structure MutexSafe (st : MutexState σ τ) : Prop where
  exclusive : ∀ t t', st.pc t = .inside → st.pc t' = .inside → t = t'
  owner : ∀ t, st.pc t = .inside → st.locked = 1 ∧ st.thread = some t
  isHold : ∀ t, st.pc t = .inside → ∀ t', mutexIsHold st t' = true ↔ t' = t

/-! ### The invariant -/

/-- What the owner fields are while the thread that is admitted is at `pc`. -/
def Owned (locked : ℤ) (thread : Option τ) (t : τ) : MutexPc → Prop
  | .marked => locked = mutexLocked
  | .inside => locked = mutexLocked ∧ thread = some t
  | _ => True

/-- `W` are the waiters of the semaphores, and `h` is the thread that the mutex admits. -/
structure MutexInv (st : MutexState σ τ) (W : Option σ → List τ) (h : Option τ) : Prop where
  queues : Queues st.sems W
  value : (st.sems.sem none).value.toInt = (if h = none then 1 else 0) - (W none).length
  active : ∀ t, st.pc t ≠ .outside ↔ h = some t ∨ t ∈ W none
  waits : ∀ t ∈ W none, h ≠ some t → st.pc t = .waiting
  free : h = none → W none = []
  owned : ∀ t, h = some t → Owned st.locked st.thread t (st.pc t)

namespace Queues

variable {ρ : Type*} [DecidableEq ρ] {m : SemState ρ τ} {W : ρ → List τ} {s : ρ} {t : τ}

omit [DecidableEq ρ] [DecidableEq τ] in
theorem nodup (hQ : Queues m W) (s : ρ) : (W s).Nodup :=
  .of_map _ (List.nodup_cons.mp (hQ.rings.ring s).nodup).2

omit [DecidableEq ρ] [DecidableEq τ] in
/-- A counter is not further below zero than there are threads, which lie in memory. -/
theorem low (hQ : Queues m W) (info : τ ↪ Fin availableMemory) (s : ρ) :
    -2 ^ 31 < (m.sem s).value.toInt := by
  have hlen := hQ.length s
  have hle := ((hQ.nodup s).map info.injective).length_le_card
  rw [List.length_map, Fintype.card_fin, availableMemory] at hle
  omega

/-- `sem_wait` changes one queue and one counter. -/
theorem wait (hQ : Queues m W) (info : τ ↪ Fin availableMemory)
    (ht : m.state t ≠ .sleeping) :
    ∃ l, Queues (semWait m s t) (Function.update W s l) ∧
      ∀ s' ≠ s, (semWait m s t).sem s' = m.sem s' := by
  by_cases hpos : 0 < (m.sem s).value.toInt
  · obtain ⟨-, -, hsem, hQ'⟩ := hQ.wait_pass t hpos
    exact ⟨W s, by rwa [Function.update_eq_self], hsem⟩
  · obtain ⟨-, -, hsem, hQ'⟩ := hQ.wait_block ht (not_lt.mp hpos) (hQ.low info s)
    exact ⟨_, hQ', hsem⟩

end Queues

namespace MutexInv

variable {st : MutexState σ τ} {W W' : Option σ → List τ} {h : Option τ} {t : τ}

omit [DecidableEq σ] [DecidableEq τ] in
/-- A thread that has come past `sem_wait` is the one that is admitted. -/
theorem admitted_of_pc (hI : MutexInv st W h) (ht : st.pc t ≠ .outside) (hw : st.pc t ≠ .waiting) :
    h = some t := by
  by_contra hne
  exact hw (hI.waits t (((hI.active t).1 ht).resolve_left hne) hne)

omit [DecidableEq σ] [DecidableEq τ] in
theorem admitted_of_at (hI : MutexInv st W h) {pc : MutexPc} (ht : st.At t pc)
    (hpc : pc ≠ .outside) : h = some t :=
  ((hI.active t).1 (ht.1 ▸ hpc)).resolve_right (hI.queues.notMem_of_awake ht.2 none)

omit [DecidableEq σ] in
theorem safe (hI : MutexInv st W h) : MutexSafe st := by
  have hadm : ∀ t, st.pc t = .inside → h = some t := fun t ht =>
    hI.admitted_of_pc (by simp [ht]) (by simp [ht])
  have hown : ∀ t, st.pc t = .inside → st.locked = 1 ∧ st.thread = some t := fun t ht => by
    have := hI.owned t (hadm t ht)
    rwa [ht] at this
  refine ⟨fun t t' ht ht' => ?_, hown, fun t ht t' => ?_⟩
  · exact Option.some.inj ((hadm t ht).symm.trans (hadm t' ht'))
  · obtain ⟨hl, hth⟩ := hown t ht
    simp [mutexIsHold, hl, hth, eq_comm]

omit [DecidableEq σ] in
/-- The thread that is admitted goes on, and writes the owner fields. -/
theorem advance (hI : MutexInv st W h) {pc pc' : MutexPc} (ht : st.At t pc) (hpc : pc ≠ .outside)
    (hpc' : pc' ≠ .outside) {locked : ℤ} {thread : Option τ} (hown : Owned locked thread t pc') :
    MutexInv ⟨st.sems, locked, thread, Function.update st.pc t pc'⟩ W h := by
  have hh := hI.admitted_of_at ht hpc
  refine ⟨hI.queues, hI.value, fun t' => ?_, fun t' ht' hne => ?_, hI.free, fun t' ht' => ?_⟩
  · by_cases htt : t' = t
    · subst htt
      simp [hpc', hh]
    · simpa [htt] using hI.active t'
  · have htt : t' ≠ t := fun e => hne (by rw [hh, e])
    simpa [htt] using hI.waits t' ht' hne
  · obtain rfl : t = t' := Option.some.inj (hh.symm.trans ht')
    simpa using hown

omit [DecidableEq σ] [DecidableEq τ] in
theorem other (hI : MutexInv st W h) {m : SemState (Option σ) τ} (hQ : Queues m W')
    (hsem : m.sem none = st.sems.sem none) (hW : W' none = W none) :
    MutexInv { st with sems := m } W' h := by
  refine ⟨hQ, ?_, fun t => ?_, fun t ht => ?_, fun hh => ?_, hI.owned⟩
  · rw [hsem, hW]
    exact hI.value
  · rw [hW]
    exact hI.active t
  · exact hI.waits t (hW ▸ ht)
  · rw [hW]
    exact hI.free hh

/-- `sem_wait` on a free mutex admits the thread. -/
theorem pass (hI : MutexInv st W none) (hpc : st.pc t = .outside) :
    MutexInv { st.move t .waiting with sems := semWait st.sems none t } W (some t) := by
  have hW := hI.free rfl
  have hval := hI.value
  rw [if_pos rfl, hW, List.length_nil] at hval
  obtain ⟨-, hval', -, hQ⟩ := hI.queues.wait_pass t (s := none) (by omega)
  refine ⟨hQ, ?_, fun t' => ?_, by simp [hW], by simp, fun t' ht' => ?_⟩
  · rw [if_neg (by simp), hW, List.length_nil]
    dsimp only
    omega
  · have hact := hI.active t'
    by_cases htt : t' = t
    · subst htt
      simp [MutexState.move]
    · simpa [MutexState.move, htt, hW, Ne.symm htt] using hact
  · obtain rfl := Option.some.inj ht'
    simp [MutexState.move, Owned]

/-- `sem_wait` on a mutex that admits `t₀` enqueues the thread, be it another or `t₀` itself. -/
theorem block {t₀ : τ} (hI : MutexInv st W (some t₀)) (info : τ ↪ Fin availableMemory)
    {pc pc' : MutexPc} (ht : st.At t pc) (hpc' : pc' ≠ .outside)
    (hother : t ≠ t₀ → pc' = .waiting) (hsame : t = t₀ → pc' = pc) :
    ∃ W', MutexInv { st.move t pc' with sems := semWait st.sems none t } W' (some t₀) := by
  have hval := hI.value
  rw [if_neg (by simp)] at hval
  obtain ⟨-, hval', -, hQ⟩ :=
    hI.queues.wait_block ht.2 (s := none) (by omega) (hI.queues.low info none)
  refine ⟨_, hQ, ?_, fun t' => ?_, fun t' ht' hne => ?_, by simp, fun t' ht' => ?_⟩
  · rw [if_neg (by simp), Function.update_self, List.length_append, List.length_singleton]
    dsimp only
    omega
  · by_cases htt : t' = t
    · subst htt
      simp [MutexState.move, hpc']
    · simpa [MutexState.move, htt] using hI.active t'
  · rw [Function.update_self, List.mem_append, List.mem_singleton] at ht'
    by_cases htt : t' = t
    · subst htt
      simpa [MutexState.move] using hother fun e => hne (by rw [e])
    · simpa [MutexState.move, htt] using hI.waits t' (ht'.resolve_right htt) hne
  · obtain rfl := Option.some.inj ht'
    have hown := hI.owned t₀ rfl
    by_cases htt : t₀ = t
    · subst htt
      simpa [MutexState.move, hsame rfl, ht.1] using hown
    · simpa [MutexState.move, htt] using hown

/-- `sem_signal` admits the first thread of the queue, if there is one. -/
theorem signal (hI : MutexInv st W h) (ht : st.At t .cleared) {w : Option τ}
    {m : SemState (Option σ) τ} (hm : semSignal st.sems none = some (w, m)) :
    ∃ W', MutexInv { st.move t .outside with sems := m } W' w := by
  have hh := hI.admitted_of_at ht (by simp)
  have hnot := hI.queues.notMem_of_awake ht.2 none
  have hnodup := hI.queues.nodup none
  have hval := hI.value
  obtain ⟨l, hW, hval', -, hQ⟩ := hI.queues.signal_ok hm
  rw [if_neg (by simp [hh]), hW] at hval
  have hempty : w = none → l = [] := by
    rintro rfl
    have hlen := hQ.length none
    rw [Function.update_self] at hlen
    simp only [Option.toList_none, List.nil_append] at hval
    exact List.length_eq_zero_iff.mp (by omega)
  refine ⟨_, hQ, ?_, fun t' => ?_, fun t' ht' hne => ?_, fun hw => ?_, fun t' ht' => ?_⟩
  · rw [Function.update_self]
    dsimp only
    cases w <;> simp at hval ⊢ <;> omega
  · rw [Function.update_self]
    have hact := hI.active t'
    rw [hW, List.mem_append, Option.mem_toList, hh] at hact
    rw [hW, List.mem_append, Option.mem_toList] at hnot
    by_cases htt : t' = t
    · subst htt
      simpa [MutexState.move] using hnot
    · simpa [MutexState.move, htt, Ne.symm htt] using hact
  · rw [Function.update_self] at ht'
    have hmem : t' ∈ W none := by simp [hW, ht']
    have htt : t' ≠ t := fun e => hnot (e ▸ hmem)
    simpa [MutexState.move, htt] using hI.waits t' hmem (by simpa [hh] using htt.symm)
  · rw [Function.update_self, hempty hw]
  · have hmem : t' ∈ W none := by simp [hW, ht']
    have htt : t' ≠ t := fun e => hnot (e ▸ hmem)
    have hwait := hI.waits t' hmem (by simpa [hh] using htt.symm)
    simp [MutexState.move, htt, hwait, Owned]

theorem step (info : τ ↪ Fin availableMemory) {st' : MutexState σ τ}
    (hI : MutexInv st W h) {e : MutexEvent σ τ} (hstep : MutexStep st e st') :
    ∃ W' h', MutexInv st' W' h' := by
  cases e with
  | semWait t =>
    obtain ⟨ht, rfl⟩ := hstep
    have hnot : h ≠ some t := fun e => (hI.active t).2 (.inl e) ht.1
    cases h with
    | none => exact ⟨_, _, hI.pass ht.1⟩
    | some t₀ =>
      have hne : t ≠ t₀ := fun e => hnot (by rw [e])
      obtain ⟨W', hI'⟩ := hI.block info ht (by simp) (fun _ => rfl) fun e => absurd e hne
      exact ⟨W', _, hI'⟩
  | passed t =>
    obtain ⟨ht, rfl⟩ := hstep
    exact ⟨W, h, hI.advance ht (by simp) (by simp) trivial⟩
  | setLocked t =>
    obtain ⟨ht, rfl⟩ := hstep
    exact ⟨W, h, hI.advance ht (by simp) (by simp) rfl⟩
  | setThread t =>
    obtain ⟨ht, rfl⟩ := hstep
    have hlocked := hI.owned t (hI.admitted_of_at ht (by simp))
    rw [ht.1] at hlocked
    exact ⟨W, h, hI.advance ht (by simp) (by simp) ⟨hlocked, rfl⟩⟩
  | unsetLocked t =>
    obtain ⟨ht, rfl⟩ := hstep
    exact ⟨W, h, hI.advance ht (by simp) (by simp) trivial⟩
  | unsetThread t =>
    obtain ⟨ht, rfl⟩ := hstep
    exact ⟨W, h, hI.advance ht (by simp) (by simp) trivial⟩
  | semSignal t =>
    obtain ⟨ht, w, m, hm, rfl⟩ := hstep
    obtain ⟨W', hI'⟩ := hI.signal ht hm
    exact ⟨W', w, hI'⟩
  | relock t =>
    obtain ⟨ht, rfl⟩ := hstep
    obtain rfl := hI.admitted_of_at ht (by simp)
    obtain ⟨W', hI'⟩ := hI.block info ht (by simp) (fun hne => absurd rfl hne) fun _ => rfl
    have hmove : st.move t .inside = st := by
      rw [MutexState.move, ← ht.1, Function.update_eq_self]
    rw [hmove] at hI'
    exact ⟨W', _, hI'⟩
  | otherWait s t =>
    obtain ⟨ht, rfl⟩ := hstep
    have hawake : st.sems.state t ≠ .sleeping := ht.elim And.right And.right
    obtain ⟨l, hQ, hsem⟩ := hI.queues.wait info hawake (s := some s)
    exact ⟨_, h, hI.other hQ (hsem none (by simp)) (by simp)⟩
  | otherSignal s =>
    obtain ⟨w, m, hm, rfl⟩ := hstep
    obtain ⟨l, -, -, hsem, hQ⟩ := hI.queues.signal_ok hm
    exact ⟨_, h, hI.other hQ (hsem none (by simp)) (by simp)⟩
  | elsewhere =>
    obtain ⟨m, hm, rfl⟩ := hstep
    exact ⟨W, h, hI.other (hI.queues.elsewhere hm) (by rw [hm.sem]) rfl⟩

theorem start (hst : st.Started) : MutexInv st (fun _ => []) none := by
  choose v hv hinit using hst.others
  have hmutex : semInit st.sems none 1 = st.sems := congrArg MutexState.sems hst.init
  let value : Option σ → BitVec 32 := fun s => s.elim 1 v
  obtain ⟨hsem, hQ⟩ := Queues.of_init (m := st.sems) (v := value)
    (by rintro (_ | s); exacts [hmutex, hinit s])
    (by rintro (_ | s); exacts [(by decide : 0 ≤ (1 : BitVec 32).toInt), hv s]) hst.awake
  refine ⟨hQ, ?_, fun t => by simp [hst.outside], by simp, by simp, by simp⟩
  rw [hsem]
  rfl

end MutexInv

/-! ### Every run -/

/-- At most one thread has the mutex, and `mutex_is_hold` answers true for that thread only. Each
thread has its `struct thread_info` at an address of its own in memory, so that the counter of no
semaphore wraps. -/
theorem mutexSafe_of_reachable (info : τ ↪ Fin availableMemory) {st : MutexState σ τ}
    (hreach : Reachable MutexState.Started MutexStep st) : MutexSafe st := by
  obtain ⟨W, h, hI⟩ : ∃ W h, MutexInv st W h := hreach.invariant
    (P := fun st => ∃ W h, MutexInv st W h) (fun _ hst => ⟨_, _, MutexInv.start hst⟩)
    fun _ _ _ ⟨_, _, hI⟩ hstep => hI.step info hstep
  exact hI.safe

/-- One of two threads has the mutex, the other waits for it. -/
theorem mutexSafe_two_threads :
    ∃ st : MutexState Empty Bool, st.pc true = .inside ∧ st.pc false = .waiting ∧
      MutexSafe st := by
  let st₀ : MutexState Empty Bool :=
    ⟨(SemRun.start fun _ => 1).st, mutexLocked, none, fun _ => .outside⟩
  have hstarted : st₀.Started := by
    refine ⟨?_, fun s => s.elim, fun _ => by simp [st₀, SemRun.start], fun _ => rfl⟩
    have hsems := (SemRun.started_start (τ := Bool) fun _ : Option Empty => 1).init none
    exact congrArg (fun m => ({ st₀ with sems := m } : MutexState Empty Bool)) hsems
  let st₁ : MutexState Empty Bool :=
    { st₀.move true .waiting with sems := semWait st₀.sems none true }
  let st₂ := st₁.move true .acquired
  let st₃ : MutexState Empty Bool := { st₂.move true .marked with locked := mutexLocked }
  let st₄ : MutexState Empty Bool := { st₃.move true .inside with thread := some true }
  let st₅ : MutexState Empty Bool :=
    { st₄.move false .waiting with sems := semWait st₄.sems none false }
  have h₁ : MutexStep st₀ (.semWait true) st₁ := ⟨⟨by decide, by decide⟩, rfl⟩
  have h₂ : MutexStep st₁ (.passed true) st₂ := ⟨⟨by decide, by decide⟩, rfl⟩
  have h₃ : MutexStep st₂ (.setLocked true) st₃ := ⟨⟨by decide, by decide⟩, rfl⟩
  have h₄ : MutexStep st₃ (.setThread true) st₄ := ⟨⟨by decide, by decide⟩, rfl⟩
  have h₅ : MutexStep st₄ (.semWait false) st₅ := ⟨⟨by decide, by decide⟩, rfl⟩
  exact ⟨st₅, by decide, by decide, mutexSafe_of_reachable
    ⟨fun t => ⟨t.toNat, by cases t <;> decide⟩, by decide⟩
    (.next (.next (.next (.next (.next (.start hstarted) h₁) h₂) h₃) h₄) h₅)⟩

end RiscvLab
