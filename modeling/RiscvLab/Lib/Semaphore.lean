import RiscvLab.Lib.List
import RiscvLab.Library.Reachable
import RiscvLab.Library.Int32
import Mathlib.Algebra.Order.Group.Unbundled.Int

/-!
# Counting semaphores

A semaphore is a 32-bit counter and a queue of the threads that wait for it, linked through their
`sched` nodes. `sem_wait` and `sem_signal` run under the lock of the semaphore, so each of them is
one step here: `semWait`, `semSignal`. A family of semaphores shares one heap of list nodes and one
table of thread states.

`Queues m W` says that the sequences `W` are the queues of the state `m`: they are linked, their
threads are the sleeping ones, and their lengths are those that counter and size field tell. The
lemmas `Queues.wait_pass`, `Queues.wait_block`, `Queues.signal` and `Queues.signal_panic` say what
the operations do to it. On runs of these operations, with the history of each run at hand, the
counter keeps account: `semAccounting_of_reachable`. The account only fails where the counter leaves
the range of `int`, as in `exists_signal_panic`.

Source: `lib/semaphore.c`; `include/lib/fifo.h`; `include/lib/atomic.h`, lines 11–45;
`include/core/proc.h`, lines 53–62.
-/

namespace RiscvLab

open Library

/-- `enum task_state`. -/
inductive TaskState
  | unused
  | used
  | sleeping
  | runnable
  | running
  | zombie
  | idle
  deriving DecidableEq

/-- A list node of a semaphore or a thread. -/
inductive WaitNode (σ τ : Type*)
  | waiters (sem : σ)
  | sched (thread : τ)
  deriving DecidableEq

/-- `semaphore_t`: the counter, and the size field of the queue. -/
structure Semaphore where
  value : BitVec 32
  size : BitVec 32

/-- Semaphores, list nodes and thread states. -/
structure SemState (σ τ : Type*) where
  sem : σ → Semaphore
  links : Links (WaitNode σ τ)
  state : τ → TaskState

section Fifo

variable {ν : Type*} [DecidableEq ν]

/-- `fifo_push`. -/
def fifoPush (size : BitVec 32) (h : Links ν) (list entry : ν) : BitVec 32 × Links ν :=
  (size + 1, listAddTail h entry list)

/-- `fifo_pop`. -/
def fifoPop (size : BitVec 32) (h : Links ν) (list : ν) : Option ν × BitVec 32 × Links ν :=
  if listEmpty h list then (none, size, h)
  else ((listPop h list).1, size - 1, (listPop h list).2)

end Fifo

variable {σ τ : Type*} [DecidableEq σ] [DecidableEq τ]

/-- `sem_init`. -/
def semInit (m : SemState σ τ) (s : σ) (value : BitVec 32) : SemState σ τ :=
  { m with
    sem := Function.update m.sem s ⟨value, 0⟩
    links := initListHead m.links (.waiters s) }

/-- `sem_wait` by the thread `t`, up to the point where it returns or has gone to sleep. -/
def semWait (m : SemState σ τ) (s : σ) (t : τ) : SemState σ τ :=
  let value := (m.sem s).value - 1
  if value.slt 0 then
    let (size, links) := fifoPush (m.sem s).size m.links (.waiters s) (.sched t)
    { sem := Function.update m.sem s ⟨value, size⟩
      links := links
      state := Function.update m.state t .sleeping }
  else { m with sem := Function.update m.sem s ⟨value, (m.sem s).size⟩ }

/-- What `wakeup_process` does to the state of a thread. -/
def wakeupProcess (m : SemState σ τ) (t : τ) : SemState σ τ :=
  { m with state := Function.update m.state t .runnable }

/-- `sem_signal`, with the thread that it wakes; `none` if it panics. -/
def semSignal (m : SemState σ τ) (s : σ) : Option (Option τ × SemState σ τ) :=
  let value := (m.sem s).value + 1
  if value.sle 0 then
    match fifoPop (m.sem s).size m.links (.waiters s) with
    | (some (.sched t), size, links) =>
      some (some t, wakeupProcess
        { m with sem := Function.update m.sem s ⟨value, size⟩, links := links } t)
    | _ => none
  else some (none, { m with sem := Function.update m.sem s ⟨value, (m.sem s).size⟩ })

/-! ### The queues -/

/-- The sequences `W` are the queues of the semaphores. -/
structure Queues (m : SemState σ τ) (W : σ → List τ) : Prop where
  rings : Rings m.links .waiters fun s => (W s).map .sched
  asleep : ∀ t, m.state t = .sleeping ↔ ∃ s, t ∈ W s
  size : ∀ s, (m.sem s).size = BitVec.ofNat 32 (W s).length
  length : ∀ s, ((W s).length : ℤ) = max 0 (-(m.sem s).value.toInt)

namespace Queues

variable {m m' : SemState σ τ} {W : σ → List τ} {s : σ} {t : τ}

/-- Semaphores as `sem_init` leaves them have empty queues. -/
theorem of_init {v : σ → BitVec 32} (hinit : ∀ s, semInit m s (v s) = m)
    (hv : ∀ s, 0 ≤ (v s).toInt) (hawake : ∀ t, m.state t ≠ .sleeping) :
    (∀ s, m.sem s = ⟨v s, 0⟩) ∧ Queues m fun _ => [] := by
  have hsem (s : σ) : m.sem s = ⟨v s, 0⟩ := by
    have := congrArg (fun m : SemState σ τ => m.sem s) (hinit s)
    simpa [semInit] using this.symm
  have hlink (s : σ) : m.links.next (.waiters s) = .waiters s ∧
      m.links.prev (.waiters s) = .waiters s := by
    rw [← congrArg SemState.links (hinit s)]
    simp [semInit, initListHead_next, initListHead_prev]
  refine ⟨hsem, ⟨fun s => ⟨by simp, hlink s⟩, fun j k hjk => by simpa using hjk⟩, fun t => ?_,
    fun s => by simp [hsem], fun s => ?_⟩
  · simpa using hawake t
  · have := hv s
    simp only [hsem, List.length_nil]
    omega

variable (hQ : Queues m W)

include hQ

omit [DecidableEq σ] [DecidableEq τ] in
theorem notMem_of_awake (ht : m.state t ≠ .sleeping) (s : σ) : t ∉ W s :=
  fun h => ht ((hQ.asleep t).mpr ⟨s, h⟩)

omit [DecidableEq σ] [DecidableEq τ] in
theorem unique {s' : σ} (h : t ∈ W s) (h' : t ∈ W s') : s = s' := by
  by_contra hne
  exact hQ.rings.disjoint s s' hne (.sched t) (by simpa using h) (by simpa using h')

omit [DecidableEq τ] in
private theorem store {x : Semaphore} {l : List τ} {links : Links (WaitNode σ τ)}
    {state : τ → TaskState}
    (hrings : Rings links .waiters fun s' => (Function.update W s l s').map .sched)
    (hasleep : ∀ t, state t = .sleeping ↔ ∃ s', t ∈ Function.update W s l s')
    (hsize : x.size = BitVec.ofNat 32 l.length) (hlen : (l.length : ℤ) = max 0 (-x.value.toInt)) :
    Queues ⟨Function.update m.sem s x, links, state⟩ (Function.update W s l) := by
  refine ⟨hrings, hasleep, fun s' => ?_, fun s' => ?_⟩ <;> by_cases hs : s' = s
  · subst hs
    simpa using hsize
  · simpa [hs] using hQ.size s'
  · subst hs
    simpa using hlen
  · simpa [hs] using hQ.length s'

omit [DecidableEq τ] in
/-- The counter of one semaphore is stored, and its queue stays. -/
private theorem setValue {value : BitVec 32} (hlen : ((W s).length : ℤ) = max 0 (-value.toInt)) :
    Queues { m with sem := Function.update m.sem s ⟨value, (m.sem s).size⟩ } W := by
  have hW := Function.update_eq_self s W
  have := hQ.store (s := s) (x := ⟨value, (m.sem s).size⟩) (l := W s)
    (by simpa only [hW] using hQ.rings) (by simpa only [hW] using hQ.asleep) (hQ.size s) hlen
  rwa [hW] at this

/-- `sem_wait` on a positive counter returns at once. -/
theorem wait_pass (t : τ) (hpos : 0 < (m.sem s).value.toInt) :
    (semWait m s t).state = m.state ∧
      ((semWait m s t).sem s).value.toInt = (m.sem s).value.toInt - 1 ∧
      (∀ s' ≠ s, (semWait m s t).sem s' = m.sem s') ∧ Queues (semWait m s t) W := by
  have hval := toInt_sub_one (x := (m.sem s).value) (by omega)
  have hslt : ¬ ((m.sem s).value - 1).slt 0 = true := by
    rw [BitVec.slt_iff_toInt_lt, hval, show (0 : BitVec 32).toInt = 0 from rfl]
    omega
  have heq : semWait m s t =
      { m with sem := Function.update m.sem s ⟨(m.sem s).value - 1, (m.sem s).size⟩ } :=
    if_neg hslt
  rw [heq]
  refine ⟨rfl, by simpa using hval, fun s' hs => by simp [hs], hQ.setValue ?_⟩
  have := hQ.length s
  omega

/-- `sem_wait` on a counter that is not positive enqueues the thread. -/
theorem wait_block (ht : m.state t ≠ .sleeping) (hnon : (m.sem s).value.toInt ≤ 0)
    (hmin : -2 ^ 31 < (m.sem s).value.toInt) :
    (semWait m s t).state = Function.update m.state t .sleeping ∧
      ((semWait m s t).sem s).value.toInt = (m.sem s).value.toInt - 1 ∧
      (∀ s' ≠ s, (semWait m s t).sem s' = m.sem s') ∧
      Queues (semWait m s t) (Function.update W s (W s ++ [t])) := by
  have hval := toInt_sub_one hmin
  have hslt : ((m.sem s).value - 1).slt 0 = true := by
    rw [BitVec.slt_iff_toInt_lt, hval, show (0 : BitVec 32).toInt = 0 from rfl]
    omega
  have heq : semWait m s t =
      { sem := Function.update m.sem s ⟨(m.sem s).value - 1, (m.sem s).size + 1⟩
        links := listAddTail m.links (.sched t) (.waiters s)
        state := Function.update m.state t .sleeping } := if_pos hslt
  have hlen := hQ.length s
  rw [heq]
  refine ⟨rfl, by simpa using hval, fun s' hs => by simp [hs],
    hQ.store (hQ.rings.addTail_map s fun s' => ?_) (fun u => ?_) ?_ ?_⟩
  · simpa using hQ.notMem_of_awake ht s'
  · by_cases hu : u = t
    · subst hu
      exact iff_of_true (Function.update_self ..) ⟨s, by simp⟩
    · rw [Function.update_of_ne hu, hQ.asleep u]
      refine exists_congr fun s' => ?_
      by_cases hs : s' = s
      · subst hs
        simp [hu]
      · simp [hs]
  · simp [hQ.size s, BitVec.ofNat_add]
  · simp only [List.length_append, List.length_singleton, hval]
    omega

theorem signal_none (hnon : 0 ≤ (m.sem s).value.toInt) (hmax : (m.sem s).value.toInt < 2 ^ 31 - 1) :
    ∃ m', semSignal m s = some (none, m') ∧
      (m'.sem s).value.toInt = (m.sem s).value.toInt + 1 ∧
      (∀ s' ≠ s, m'.sem s' = m.sem s') ∧ Queues m' W := by
  have hval := toInt_add_one hmax
  have hsle : ¬ ((m.sem s).value + 1).sle 0 = true := by
    rw [BitVec.sle_iff_toInt_le, hval, show (0 : BitVec 32).toInt = 0 from rfl]
    omega
  refine ⟨_, if_neg hsle, by simpa using hval, fun s' hs => by simp [hs], hQ.setValue ?_⟩
  have := hQ.length s
  omega

/-- `sem_signal` with waiters wakes the first of them. -/
theorem signal_some (hneg : (m.sem s).value.toInt < 0) :
    ∃ t l m', W s = t :: l ∧ semSignal m s = some (some t, m') ∧
      (m'.sem s).value.toInt = (m.sem s).value.toInt + 1 ∧
      (∀ s' ≠ s, m'.sem s' = m.sem s') ∧ Queues m' (Function.update W s l) := by
  have hlen := hQ.length s
  obtain ⟨t, l, hW⟩ : ∃ t l, W s = t :: l := by
    cases hW : W s with
    | nil =>
      rw [hW, List.length_nil] at hlen
      omega
    | cons t l => exact ⟨t, l, rfl⟩
  have hval := toInt_add_one (x := (m.sem s).value) (by omega)
  have hsle : ((m.sem s).value + 1).sle 0 = true := by
    rw [BitVec.sle_iff_toInt_le, hval, show (0 : BitVec 32).toInt = 0 from rfl]
    omega
  have hne : listEmpty m.links (.waiters s) = false := by
    simpa [hW] using (hQ.rings.empty_iff s).not
  obtain ⟨hpop, hrings⟩ := hQ.rings.pop_map hW
  have heq : semSignal m s = some (some t,
      { sem := Function.update m.sem s ⟨(m.sem s).value + 1, (m.sem s).size - 1⟩
        links := listDel m.links (.sched t)
        state := Function.update m.state t .runnable }) :=
    (if_pos hsle).trans (by simp [fifoPop, hne, hpop, wakeupProcess])
  rw [hW, List.length_cons] at hlen
  refine ⟨t, l, _, hW, heq, by simpa using hval, fun s' hs => by simp [hs],
    hQ.store hrings (fun u => ?_) ?_ ?_⟩
  · have hnd : (t :: l).Nodup := by
      have := (hQ.rings.ring s).nodup
      rw [hW] at this
      exact .of_map _ (List.nodup_cons.mp this).2
    by_cases hu : u = t
    · subst hu
      refine iff_of_false (by simp) ?_
      rintro ⟨s', hs'⟩
      by_cases hs : s' = s
      · subst hs
        exact (List.nodup_cons.mp hnd).1 (by simpa using hs')
      · rw [Function.update_of_ne hs] at hs'
        exact hs (hQ.unique hs' (by simp [hW]))
    · rw [Function.update_of_ne hu, hQ.asleep u]
      refine exists_congr fun s' => ?_
      by_cases hs : s' = s
      · subst hs
        simp [hW, hu]
      · simp [hs]
  · rw [hQ.size s, hW, List.length_cons, BitVec.ofNat_add]
    exact BitVec.add_sub_cancel _ _
  · simp only [hval]
    omega

/-- `sem_signal` below the largest counter counts, and wakes the first waiter if any. -/
theorem signal (hmax : (m.sem s).value.toInt < 2 ^ 31 - 1) :
    ∃ w l m', W s = w.toList ++ l ∧ semSignal m s = some (w, m') ∧
      (m'.sem s).value.toInt = (m.sem s).value.toInt + 1 ∧ (∀ s' ≠ s, m'.sem s' = m.sem s') ∧
        Queues m' (Function.update W s l) := by
  by_cases hneg : (m.sem s).value.toInt < 0
  · obtain ⟨t, l, m', hW, hsignal⟩ := hQ.signal_some hneg
    exact ⟨some t, l, m', hW, hsignal⟩
  · obtain ⟨m', heq, hval, hsem, hQ'⟩ := hQ.signal_none (not_lt.mp hneg) hmax
    exact ⟨none, W s, m', rfl, heq, hval, hsem, by rwa [Function.update_eq_self]⟩

/-- At the largest counter it panics, since nobody waits. -/
theorem signal_panic (hmax : ¬(m.sem s).value.toInt < 2 ^ 31 - 1) : semSignal m s = none := by
  have hval : (m.sem s).value = 0x7fffffff := by
    have := (m.sem s).value.two_mul_toInt_lt
    have hmaxInt : (0x7fffffff : BitVec 32).toInt = 2 ^ 31 - 1 := rfl
    exact BitVec.eq_of_toInt_eq (by omega)
  have hempty : listEmpty m.links (.waiters s) = true := by
    have hlen := hQ.length s
    rw [hQ.rings.empty_iff s, List.map_eq_nil_iff, ← List.length_eq_zero_iff]
    omega
  simp [semSignal, hval, fifoPop, hempty]

/-- A call of `sem_signal` that returns has counted, and has woken the first waiter if any. -/
theorem signal_ok {w : Option τ} (h : semSignal m s = some (w, m')) :
    ∃ l, W s = w.toList ++ l ∧ (m'.sem s).value.toInt = (m.sem s).value.toInt + 1 ∧
      (∀ s' ≠ s, m'.sem s' = m.sem s') ∧ Queues m' (Function.update W s l) := by
  by_cases hmax : (m.sem s).value.toInt < 2 ^ 31 - 1
  · obtain ⟨w', l, m₁, hW, heq, hsignal⟩ := hQ.signal hmax
    obtain ⟨rfl, rfl⟩ : w' = w ∧ m₁ = m' := by simpa [heq] using h
    exact ⟨l, hW, hsignal⟩
  · rw [hQ.signal_panic hmax] at h
    cases h

/-- `sem_init` of a semaphore that nobody waits for. -/
theorem init (hs : W s = []) {value : BitVec 32} (hv : 0 ≤ value.toInt) :
    Queues (semInit m s value) W := by
  have hW := Function.update_eq_self s W
  have hrings := hQ.rings.init_head (k := s) (by simp [hs])
  have := hQ.store (s := s) (x := ⟨value, 0⟩) (l := W s) (by simpa only [hW] using hrings)
    (by simpa only [hW] using hQ.asleep) (by simp [hs]) (by simp only [hs, List.length_nil]; omega)
  rwa [hW] at this

end Queues

/-! ### Runs -/

/-- What the rest of the kernel may do: it sets and links threads that do not sleep. -/
structure Elsewhere (m m' : SemState σ τ) : Prop where
  sem : m'.sem = m.sem
  asleep : ∀ t, m'.state t = .sleeping ↔ m.state t = .sleeping
  waiters : ∀ s, m'.links.next (.waiters s) = m.links.next (.waiters s) ∧
    m'.links.prev (.waiters s) = m.links.prev (.waiters s)
  sched : ∀ t, m.state t = .sleeping → m'.links.next (.sched t) = m.links.next (.sched t) ∧
    m'.links.prev (.sched t) = m.links.prev (.sched t)

omit [DecidableEq σ] [DecidableEq τ] in
theorem Queues.elsewhere {m m' : SemState σ τ} {W : σ → List τ} (hQ : Queues m W)
    (h : Elsewhere m m') : Queues m' W := by
  refine ⟨hQ.rings.congr fun s x hx => ?_, fun t => (h.asleep t).trans (hQ.asleep t),
    by simpa only [h.sem] using hQ.size, by simpa only [h.sem] using hQ.length⟩
  rcases List.mem_cons.mp hx with rfl | hx
  · exact h.waiters s
  · obtain ⟨t, ht, rfl⟩ := List.mem_map.mp hx
    exact h.sched t ((hQ.asleep t).mpr ⟨s, ht⟩)

/-- A state with the history of each semaphore: the numbers of calls, and the threads that went to
sleep, were woken, and got past `sem_wait`, in this order in time. -/
structure SemRun (σ τ : Type*) where
  st : SemState σ τ
  waits : σ → ℕ
  signals : σ → ℕ
  blocked : σ → List τ
  woken : σ → List τ
  passed : σ → List τ

/-- What happens in a run. -/
inductive SemEvent (σ τ : Type*)
  | wait (s : σ) (t : τ)
  | signal (s : σ)
  | elsewhere

/-- `sem_wait` with its history. -/
def SemRun.wait (r : SemRun σ τ) (s : σ) (t : τ) : SemRun σ τ :=
  let m := semWait r.st s t
  let waits := Function.update r.waits s (r.waits s + 1)
  if m.state t = .sleeping then
    { r with st := m, waits := waits, blocked := Function.update r.blocked s (r.blocked s ++ [t]) }
  else { r with st := m, waits := waits, passed := Function.update r.passed s (r.passed s ++ [t]) }

/-- `sem_signal` with its history; it has woken `w`, and `m` is the state after it. -/
def SemRun.signal (r : SemRun σ τ) (s : σ) (w : Option τ) (m : SemState σ τ) : SemRun σ τ :=
  { r with
    st := m
    signals := Function.update r.signals s (r.signals s + 1)
    woken := Function.update r.woken s (r.woken s ++ w.toList)
    passed := Function.update r.passed s (r.passed s ++ w.toList) }

/-- One step of a run: a thread that does not sleep waits, somebody signals, or other code runs. -/
def SemStep (r : SemRun σ τ) : SemEvent σ τ → SemRun σ τ → Prop
  | .wait s t, r' => r.st.state t ≠ .sleeping ∧ r' = r.wait s t
  | .signal s, r' => ∃ w m, semSignal r.st s = some (w, m) ∧ r' = r.signal s w m
  | .elsewhere, r' => ∃ m, Elsewhere r.st m ∧ r' = { r with st := m }

/-- Every semaphore is as `sem_init` leaves it, nobody sleeps, and nothing has happened. -/
structure SemRun.Started (v : σ → BitVec 32) (r : SemRun σ τ) : Prop where
  init : ∀ s, semInit r.st s (v s) = r.st
  awake : ∀ t, r.st.state t ≠ .sleeping
  waits : ∀ s, r.waits s = 0
  signals : ∀ s, r.signals s = 0
  blocked : ∀ s, r.blocked s = []
  woken : ∀ s, r.woken s = []
  passed : ∀ s, r.passed s = []

variable {v : σ → BitVec 32} {r r' : SemRun σ τ} {W : σ → List τ}

/-- The initial value, plus the signals, minus the waits. -/
def SemRun.balance (r : SemRun σ τ) (v : σ → BitVec 32) (s : σ) : ℤ :=
  (v s).toInt + r.signals s - r.waits s

/-- The step keeps the balance of the semaphore in the range of `int`, and the number of waiters
as well. -/
def InRange (v : σ → BitVec 32) (r : SemRun σ τ) : SemEvent σ τ → Prop
  | .wait s _ => -2 ^ 31 + 1 < r.balance v s
  | .signal s => r.balance v s < 2 ^ 31 - 1
  | .elsewhere => True

instance (v : σ → BitVec 32) (r : SemRun σ τ) (e : SemEvent σ τ) : Decidable (InRange v r e) := by
  cases e <;> unfold InRange <;> infer_instance

/-- The books of a semaphore are right. -/
structure SemAccounting (v : σ → BitVec 32) (r : SemRun σ τ) (s : σ) (ws : List τ) : Prop where
  value : (r.st.sem s).value.toInt = (v s).toInt + r.signals s - r.waits s
  ring : IsRing r.st.links (.waiters s) (ws.map .sched)
  asleep : ∀ t ∈ ws, r.st.state t = .sleeping
  size : (r.st.sem s).size.toInt = ws.length
  length : (ws.length : ℤ) = max 0 (-(r.st.sem s).value.toInt)
  passed : ((r.passed s).length : ℤ) = min (r.waits s : ℤ) ((v s).toInt + r.signals s)
  order : r.blocked s = r.woken s ++ ws
  noPanic : InRange v r (.signal s) → semSignal r.st s ≠ none

/-- What every step of a run in range preserves. -/
private structure SemInv (v : σ → BitVec 32) (r : SemRun σ τ) (W : σ → List τ) : Prop where
  queues : Queues r.st W
  value : ∀ s, (r.st.sem s).value.toInt = r.balance v s
  low : ∀ s, -2 ^ 31 < r.balance v s
  passed : ∀ s, (r.passed s).length + (W s).length = r.waits s
  order : ∀ s, r.blocked s = r.woken s ++ W s

namespace SemInv

private theorem start (hv : ∀ s, 0 ≤ (v s).toInt) (h : r.Started v) :
    SemInv v r fun _ => [] := by
  obtain ⟨hsem, hQ⟩ := Queues.of_init h.init hv h.awake
  have hbal (s : σ) : r.balance v s = (v s).toInt := by simp [SemRun.balance, h.signals, h.waits]
  refine ⟨hQ, fun s => by rw [hsem, hbal], fun s => ?_, fun s => by simp [h.passed, h.waits],
    fun s => by simp [h.blocked, h.woken]⟩
  have := hv s
  rw [hbal]
  omega

omit [DecidableEq σ] [DecidableEq τ] in
private theorem elsewhere (hI : SemInv v r W) {m : SemState σ τ} (h : Elsewhere r.st m) :
    SemInv v { r with st := m } W :=
  ⟨hI.queues.elsewhere h, fun s => by rw [h.sem]; exact hI.value s, hI.low, hI.passed, hI.order⟩

omit [DecidableEq τ] in
/-- A step at the semaphore `s`: the books of the others stay as they are. -/
private theorem at_sem (hI : SemInv v r W) {s : σ} {l : List τ}
    (hQ : Queues r'.st (Function.update W s l))
    (hsem : ∀ s' ≠ s, r'.st.sem s' = r.st.sem s') (hwaits : ∀ s' ≠ s, r'.waits s' = r.waits s')
    (hsignals : ∀ s' ≠ s, r'.signals s' = r.signals s')
    (hpassed : ∀ s' ≠ s, r'.passed s' = r.passed s')
    (hblocked : ∀ s' ≠ s, r'.blocked s' = r.blocked s')
    (hwoken : ∀ s' ≠ s, r'.woken s' = r.woken s')
    (hvalue : (r'.st.sem s).value.toInt = r'.balance v s) (hlow : -2 ^ 31 < r'.balance v s)
    (hp : (r'.passed s).length + l.length = r'.waits s) (ho : r'.blocked s = r'.woken s ++ l) :
    SemInv v r' (Function.update W s l) := by
  have hbal (s' : σ) (hs : s' ≠ s) : r'.balance v s' = r.balance v s' := by
    simp only [SemRun.balance, hwaits s' hs, hsignals s' hs]
  refine ⟨hQ, fun s' => ?_, fun s' => ?_, fun s' => ?_, fun s' => ?_⟩ <;>
    rcases eq_or_ne s' s with rfl | hs
  · exact hvalue
  · rw [hsem s' hs, hbal s' hs]
    exact hI.value s'
  · exact hlow
  · rw [hbal s' hs]
    exact hI.low s'
  · simpa using hp
  · rw [hpassed s' hs, hwaits s' hs, Function.update_of_ne hs]
    exact hI.passed s'
  · simpa using ho
  · rw [hblocked s' hs, hwoken s' hs, Function.update_of_ne hs]
    exact hI.order s'

private theorem wait (hI : SemInv v r W) {s : σ} {t : τ} (ht : r.st.state t ≠ .sleeping)
    (hr : InRange v r (.wait s t)) : ∃ W', SemInv v (r.wait s t) W' := by
  have hvalue := hI.value s
  have hpassed := hI.passed s
  simp only [InRange, SemRun.balance] at hr hvalue
  by_cases hpos : 0 < (r.st.sem s).value.toInt
  · obtain ⟨hstate, hval, hsem, hQ⟩ := hI.queues.wait_pass t hpos
    have heq : r.wait s t =
        { r with
          st := semWait r.st s t
          waits := Function.update r.waits s (r.waits s + 1)
          passed := Function.update r.passed s (r.passed s ++ [t]) } :=
      if_neg (by rwa [hstate])
    rw [heq]
    rw [← Function.update_eq_self s W] at hQ
    refine ⟨_, hI.at_sem hQ hsem (fun s' hs => by simp [hs]) (fun s' hs => by simp)
      (fun s' hs => by simp [hs]) (fun s' hs => by simp) (fun s' hs => by simp) ?_ ?_ ?_
      (hI.order s)⟩
    · simp only [SemRun.balance, Function.update_self, hval]
      omega
    · simp only [SemRun.balance, Function.update_self]
      omega
    · simp only [Function.update_self, List.length_append, List.length_singleton]
      omega
  · obtain ⟨hstate, hval, hsem, hQ⟩ := hI.queues.wait_block ht (not_lt.mp hpos) (by omega)
    have heq : r.wait s t =
        { r with
          st := semWait r.st s t
          waits := Function.update r.waits s (r.waits s + 1)
          blocked := Function.update r.blocked s (r.blocked s ++ [t]) } :=
      if_pos (by simp [hstate])
    rw [heq]
    refine ⟨_, hI.at_sem hQ hsem (fun s' hs => by simp [hs]) (fun s' hs => by simp)
      (fun s' hs => by simp) (fun s' hs => by simp [hs]) (fun s' hs => by simp) ?_ ?_ ?_ ?_⟩
    · simp only [SemRun.balance, Function.update_self, hval]
      omega
    · simp only [SemRun.balance, Function.update_self]
      omega
    · simp only [Function.update_self, List.length_append, List.length_singleton]
      omega
    · simp [hI.order s]

private theorem signal (hI : SemInv v r W) {s : σ} {w : Option τ} {m : SemState σ τ}
    (hw : semSignal r.st s = some (w, m)) : ∃ W', SemInv v (r.signal s w m) W' := by
  obtain ⟨l, hW, hval, hsem, hQ⟩ := hI.queues.signal_ok hw
  have hvalue := hI.value s
  have hpassed := hI.passed s
  have hlow := hI.low s
  simp only [hW, List.length_append] at hpassed
  simp only [SemRun.balance] at hvalue hlow
  refine ⟨Function.update W s l, ?_⟩
  unfold SemRun.signal
  refine hI.at_sem hQ hsem (fun s' hs => by simp) (fun s' hs => by simp [hs])
    (fun s' hs => by simp [hs]) (fun s' hs => by simp) (fun s' hs => by simp [hs]) ?_ ?_ ?_ ?_
  · simp only [SemRun.balance, Function.update_self, hval]
    omega
  · simp only [SemRun.balance, Function.update_self]
    omega
  · simp only [Function.update_self, List.length_append]
    omega
  · simp [hI.order s, hW]

private theorem step (hI : ∃ W, SemInv v r W) {e : SemEvent σ τ}
    (h : guarded (InRange v) SemStep r e r') : ∃ W, SemInv v r' W := by
  obtain ⟨W, hI⟩ := hI
  obtain ⟨hr, h⟩ := h
  cases e with
  | wait s t =>
    obtain ⟨ht, rfl⟩ := h
    exact hI.wait ht hr
  | signal s =>
    obtain ⟨w, m, hw, rfl⟩ := h
    exact hI.signal hw
  | elsewhere =>
    obtain ⟨m, hm, rfl⟩ := h
    exact ⟨W, hI.elsewhere hm⟩

private theorem accounting (hI : SemInv v r W) (s : σ) : SemAccounting v r s (W s) := by
  have hvalue := hI.value s
  have hlen := hI.queues.length s
  have hpassed := hI.passed s
  have hlow := hI.low s
  simp only [SemRun.balance] at hvalue hlow
  refine ⟨hvalue, hI.queues.rings.ring s, fun t ht => (hI.queues.asleep t).mpr ⟨s, ht⟩, ?_, hlen,
    by omega, hI.order s, fun hr => ?_⟩
  · rw [hI.queues.size s, BitVec.toInt_ofNat']
    exact Int.bmod_eq_of_le (by omega) (by omega)
  · obtain ⟨w, l, m, -, heq, -⟩ := hI.queues.signal (by rwa [hI.value])
    simp [heq]

end SemInv

/-- The books of every semaphore are right in every run that keeps its balance in the range of
`int`: the counter is the initial value plus the signals minus the waits; the waiters are linked in
the order in which they blocked, are as many as the counter is below zero, and are woken from the
front; and as many threads got past `sem_wait` as there were waits, or as initial value and signals
admit. -/
theorem semAccounting_of_reachable (hv : ∀ s, 0 ≤ (v s).toInt)
    (h : Reachable (SemRun.Started v) (guarded (InRange v) SemStep) r) (s : σ) :
    ∃ ws, SemAccounting v r s ws := by
  have hI : ∃ W, SemInv v r W :=
    h.invariant (P := fun r => ∃ W, SemInv v r W) (fun r h => ⟨_, .start hv h⟩)
      fun _ _ _ hI hs => SemInv.step hI hs
  obtain ⟨W, hI⟩ := hI
  exact ⟨W s, hI.accounting s⟩

/-- Semaphores right after `sem_init`. -/
def SemRun.start (v : σ → BitVec 32) : SemRun σ τ :=
  ⟨⟨fun s => ⟨v s, 0⟩, Links.isolated, fun _ => .running⟩, fun _ => 0, fun _ => 0, fun _ => [],
    fun _ => [], fun _ => []⟩

theorem SemRun.started_start (v : σ → BitVec 32) : (start v : SemRun σ τ).Started v := by
  refine ⟨fun s => ?_, by simp [start], fun _ => rfl, fun _ => rfl, fun _ => rfl, fun _ => rfl,
    fun _ => rfl⟩
  have hsem : Function.update (fun s => (⟨v s, 0⟩ : Semaphore)) s ⟨v s, 0⟩ =
      fun s => ⟨v s, 0⟩ := Function.update_eq_self s _
  have hlinks : initListHead Links.isolated (.waiters s) =
      (Links.isolated : Links (WaitNode σ τ)) := by
    ext x <;> simp [initListHead_next, initListHead_prev, Links.isolated, eq_comm]
  simp only [start, semInit, hsem, hlinks]

/-- Two threads block on a semaphore with the value zero; one signal wakes the first. -/
theorem semAccounting_two_waiters :
    ∃ r : SemRun Unit Bool, r.woken () = [true] ∧ ∃ ws, SemAccounting (fun _ => 0) r () ws := by
  let v : Unit → BitVec 32 := fun _ => 0
  let r₀ : SemRun Unit Bool := .start v
  let r₁ := r₀.wait () true
  let r₂ := r₁.wait () false
  have hfst : (semSignal r₂.st ()).map Prod.fst = some (some true) := by decide
  obtain ⟨⟨w, m⟩, hm, rfl : w = some true⟩ := Option.map_eq_some_iff.mp hfst
  have h₁ : guarded (InRange v) SemStep r₀ (.wait () true) r₁ := ⟨by decide, by decide, rfl⟩
  have h₂ : guarded (InRange v) SemStep r₁ (.wait () false) r₂ := ⟨by decide, by decide, rfl⟩
  have h₃ : guarded (InRange v) SemStep r₂ (.signal ()) (r₂.signal () (some true) m) :=
    ⟨by decide, some true, m, hm, rfl⟩
  have hwoken : r₂.woken () = [] := by decide
  exact ⟨_, by simp [SemRun.signal, hwoken], semAccounting_of_reachable (fun _ => le_rfl)
    (.next (.next (.next (.start (SemRun.started_start v)) h₁) h₂) h₃) ()⟩

/-- At the largest `int` one more signal makes the counter negative, and there is nobody to wake. -/
theorem exists_signal_panic :
    ∃ (v : Unit → BitVec 32) (r : SemRun Unit Unit), 0 ≤ (v ()).toInt ∧
      Reachable (SemRun.Started v) SemStep r ∧ semSignal r.st () = none :=
  ⟨fun _ => 0x7fffffff, .start _, by decide, .start (SemRun.started_start _), rfl⟩

end RiscvLab
