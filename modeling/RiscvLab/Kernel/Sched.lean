import RiscvLab.Lib.Semaphore
import Mathlib.Data.Fin.Basic
import Mathlib.Data.ZMod.Defs

/-!
# Threads on several CPUs

The scheduler of every CPU takes threads off its own run list; threads are put on run lists when
they are created, woken, or yield. The model is a machine whose CPUs each have a control point
(`Pc`), and one step of which lets one CPU go on from its control point to the next. A control point
stands before or after a lock operation, a list operation, a store to `thread->state`, or a context
switch, so that all interleavings of those are runs. Each list operation is one step; in the source
it is done under the lock of the list. The section under `load_lock` is one step as well.

The code of a thread between these operations, and interrupt handlers, which may signal semaphores
and create threads on top of a thread or of an idle scheduler, are represented by the operations
they call. Whether interrupts are enabled is not part of this machine: a handler may run on top of
the code of a thread outside these operations, and of a scheduler that is about to pick.

The machine keeps a history, the threads that were put on and taken off each run list.

Source: `kernel/sched.c`; `kernel/proc.c`, lines 26–66 and 105–124; `lib/semaphore.c`, lines 16–65.
-/

namespace RiscvLab.Kernel

open Library

/-- The lists that thread nodes are on, for `n` CPUs and semaphores of type `σ`. -/
inductive SchedList (n : ℕ) (σ : Type*)
  | run (cpu : Fin n)
  | out (cpu : Fin n)
  | waiters (sem : σ)
  deriving DecidableEq

/-- A list node: the head of a list, or that of a thread. -/
inductive SchedNode (n : ℕ) (σ τ : Type*)
  | head (list : SchedList n σ)
  | sched (thread : τ)
  deriving DecidableEq

/-- What a CPU was doing when `sem_signal` or `kthread_create` was called. -/
inductive Context (τ : Type*)
  | scheduler
  | thread (t : τ)

/-- Where `add_runnable_task` returns to: `yield`, or `wakeup_process` called in a context, on
behalf of `sem_signal` of a semaphore or of `kthread_create`. -/
inductive EnqCont (σ τ : Type*)
  | yield
  | wakeup (ctx : Context τ) (sem : Option σ)

/-- The control points of a CPU. -/
inductive Pc (n : ℕ) (σ τ : Type*)
  /-- `scheduler`, at the top of its loop. -/
  | pick
  | picking
  | picked (next : τ)
  | nextLocked (next : τ)
  | unlinked (next : τ)
  | dispatch (next : τ)
  /-- `scheduler`, back from `swtch`. -/
  | back (next : τ)
  | backUnlocked
  /-- A thread that `swtch` has switched to. -/
  | resumed (t : τ)
  | runs (t : τ)
  | yieldLocked (t : τ)
  /-- `add_runnable_task`. -/
  | enq (t : τ) (k : EnqCont σ τ)
  | enqChosen (t : τ) (cpu : Fin n) (k : EnqCont σ τ)
  | enqHeld (t : τ) (cpu : Fin n) (k : EnqCont σ τ)
  | enqLinked (t : τ) (cpu : Fin n) (k : EnqCont σ τ)
  | enqDone (t : τ) (k : EnqCont σ τ)
  /-- `sem_wait`. -/
  | waitPass (t : τ) (sem : σ)
  | waitHeld (t : τ) (sem : σ)
  | waitLocked (t : τ) (sem : σ)
  | waitPushed (t : τ) (sem : σ)
  | waitUnlocked (t : τ)
  | sleeps (t : τ)
  /-- `sem_signal`. -/
  | signalHeld (ctx : Context τ) (sem : σ)
  | signalPopped (ctx : Context τ) (sem : σ) (t : τ)
  | signalEnd (ctx : Context τ) (sem : σ)
  /-- `wakeup_process`. -/
  | wakeLocked (ctx : Context τ) (sem : Option σ) (t : τ)
  /-- `quit`. -/
  | quitLocked (t : τ)
  | quitZombie (t : τ)
  | quitLinked (t : τ)
  | panicked (ctx : Context τ)

/-- The part of the machine that the threads are in. -/
structure SchedCore (n : ℕ) (σ τ : Type*) where
  pc : Fin n → Pc n σ τ
  threadLock : τ → Option (Fin n)
  links : Links (SchedNode n σ τ)
  state : τ → TaskState
  cpuThread : Fin n → Option τ
  created : τ → Bool
  enqueued : Fin n → List τ
  dispatched : Fin n → List τ

/-- The machine. A lock holds the CPU that has taken it. -/
structure Machine (n : ℕ) (σ τ : Type*) extends SchedCore n σ τ where
  listLock : Fin n → Option (Fin n)
  semLock : σ → Option (Fin n)
  sem : σ → Semaphore
  affinity : τ → Option (Fin n)
  loadCpuId : Fin n

/-- The control point that a context goes on from. -/
def Context.pc {n : ℕ} {σ τ : Type*} : Context τ → Pc n σ τ
  | .scheduler => .pick
  | .thread t => .runs t

variable {n : ℕ} {σ τ : Type*} [DecidableEq σ] [DecidableEq τ]

/-- The loop of `pick_next_task` from a node on; `none` if the fuel does not suffice, or the walk
comes to the head of another list. -/
def pickLoop (m : SchedCore n σ τ) (list : SchedList n σ) :
    ℕ → SchedNode n σ τ → Option (Option τ)
  | 0, _ => none
  | _ + 1, .head i => if i = list then some none else none
  | fuel + 1, .sched t =>
    if m.state t = .runnable then some (some t)
    else pickLoop m list fuel (m.links.prev (.sched t))

/-- `pick_next_task` on the run list of a CPU. -/
def pickNextTask (m : SchedCore n σ τ) (c : Fin n) (fuel : ℕ) : Option (Option τ) :=
  if listEmpty m.links (.head (.run c)) then some none
  else pickLoop m (.run c) fuel (m.links.prev (.head (.run c)))

/-- The CPU that `add_runnable_task` chooses for a thread of the given affinity, and `load_cpu_id`
after it. -/
def chooseCpu [NeZero n] (loadCpuId : Fin n) : Option (Fin n) → Fin n × Fin n
  | none => (loadCpuId + 1, loadCpuId + 1)
  | some cpu => (cpu, loadCpuId)

/-- What `wakeup_process` returns to. -/
def wakeReturn (ctx : Context τ) : Option σ → Pc n σ τ
  | none => ctx.pc
  | some s => .signalEnd ctx s

/-- One step of the CPU `c`. -/
inductive Step [NeZero n] : Machine n σ τ → Fin n → Machine n σ τ → Prop
  /- `scheduler` -/
  | lockRun {m c} (h : m.pc c = .pick) (hl : m.listLock c = none) :
      Step m c
        { m with
          pc := Function.update m.pc c .picking
          listLock := Function.update m.listLock c (some c) }
  | pickNone {m c fuel} (h : m.pc c = .picking)
      (hp : pickNextTask m.toSchedCore c fuel = some none) :
      Step m c
        { m with
          pc := Function.update m.pc c .pick
          listLock := Function.update m.listLock c none }
  | pickSome {m c fuel t} (h : m.pc c = .picking)
      (hp : pickNextTask m.toSchedCore c fuel = some (some t)) :
      Step m c { m with pc := Function.update m.pc c (.picked t) }
  | lockNext {m c t} (h : m.pc c = .picked t) (hl : m.threadLock t = none) :
      Step m c
        { m with
          pc := Function.update m.pc c (.nextLocked t)
          threadLock := Function.update m.threadLock t (some c) }
  | unlinkNext {m c t} (h : m.pc c = .nextLocked t) :
      Step m c
        { m with
          pc := Function.update m.pc c (.unlinked t)
          links := listDel m.links (.sched t)
          dispatched := Function.update m.dispatched c (m.dispatched c ++ [t]) }
  | unlockRun {m c t} (h : m.pc c = .unlinked t) :
      Step m c
        { m with
          pc := Function.update m.pc c (.dispatch t)
          listLock := Function.update m.listLock c none }
  | swtchTo {m c t} (h : m.pc c = .dispatch t) :
      Step m c
        { m with
          pc := Function.update m.pc c (.resumed t)
          state := Function.update m.state t .running
          cpuThread := Function.update m.cpuThread c (some t) }
  | unlockNext {m c t} (h : m.pc c = .back t) :
      Step m c
        { m with
          pc := Function.update m.pc c .backUnlocked
          threadLock := Function.update m.threadLock t none }
  | clearThread {m c} (h : m.pc c = .backUnlocked) :
      Step m c
        { m with
          pc := Function.update m.pc c .pick
          cpuThread := Function.update m.cpuThread c none }
  /- the end of `sched`, and the start of `thread_entry` -/
  | unlockSelf {m c t} (h : m.pc c = .resumed t) :
      Step m c
        { m with
          pc := Function.update m.pc c (.runs t)
          threadLock := Function.update m.threadLock t none }
  /- `yield` -/
  | yieldLock {m c t u} (h : m.pc c = .runs t) (hu : m.cpuThread c = some u)
      (hl : m.threadLock u = none) :
      Step m c
        { m with
          pc := Function.update m.pc c (.yieldLocked u)
          threadLock := Function.update m.threadLock u (some c) }
  | yieldRunnable {m c t} (h : m.pc c = .yieldLocked t) :
      Step m c
        { m with
          pc := Function.update m.pc c (.enq t .yield)
          state := Function.update m.state t .runnable }
  | yieldSwtch {m c t} (h : m.pc c = .enqDone t .yield) :
      Step m c { m with pc := Function.update m.pc c (.back t) }
  /- `add_runnable_task` -/
  | enqChoose {m c t k} (h : m.pc c = .enq t k) :
      Step m c
        { m with
          pc := Function.update m.pc c (.enqChosen t (chooseCpu m.loadCpuId (m.affinity t)).1 k)
          loadCpuId := (chooseCpu m.loadCpuId (m.affinity t)).2 }
  | enqLock {m c t cpu k} (h : m.pc c = .enqChosen t cpu k) (hl : m.listLock cpu = none) :
      Step m c
        { m with
          pc := Function.update m.pc c (.enqHeld t cpu k)
          listLock := Function.update m.listLock cpu (some c) }
  | enqLink {m c t cpu k} (h : m.pc c = .enqHeld t cpu k) :
      Step m c
        { m with
          pc := Function.update m.pc c (.enqLinked t cpu k)
          links := listAddHead m.links (.sched t) (.head (.run cpu))
          enqueued := Function.update m.enqueued cpu (m.enqueued cpu ++ [t]) }
  | enqUnlock {m c t cpu k} (h : m.pc c = .enqLinked t cpu k) :
      Step m c
        { m with
          pc := Function.update m.pc c (.enqDone t k)
          listLock := Function.update m.listLock cpu none }
  /- `sem_wait` -/
  | wait {m c t s} (h : m.pc c = .runs t) (hl : m.semLock s = none) :
      Step m c
        { m with
          pc := Function.update m.pc c
            (if ((m.sem s).value - 1).slt 0 then .waitHeld t s else .waitPass t s)
          semLock := Function.update m.semLock s (some c)
          sem := Function.update m.sem s { m.sem s with value := (m.sem s).value - 1 } }
  | waitReturn {m c t s} (h : m.pc c = .waitPass t s) :
      Step m c
        { m with
          pc := Function.update m.pc c (.runs t)
          semLock := Function.update m.semLock s none }
  | waitLock {m c t u s} (h : m.pc c = .waitHeld t s) (hu : m.cpuThread c = some u)
      (hl : m.threadLock u = none) :
      Step m c
        { m with
          pc := Function.update m.pc c (.waitLocked u s)
          threadLock := Function.update m.threadLock u (some c) }
  | waitPush {m c t s} (h : m.pc c = .waitLocked t s) :
      Step m c
        { m with
          pc := Function.update m.pc c (.waitPushed t s)
          links := (fifoPush (m.sem s).size m.links (.head (.waiters s)) (.sched t)).2
          sem := Function.update m.sem s { m.sem s with
            size := (fifoPush (m.sem s).size m.links (.head (.waiters s)) (.sched t)).1 } }
  | waitUnlock {m c t s} (h : m.pc c = .waitPushed t s) :
      Step m c
        { m with
          pc := Function.update m.pc c (.waitUnlocked t)
          semLock := Function.update m.semLock s none }
  | waitSleep {m c t} (h : m.pc c = .waitUnlocked t) :
      Step m c
        { m with
          pc := Function.update m.pc c (.sleeps t)
          state := Function.update m.state t .sleeping }
  | waitSwtch {m c t} (h : m.pc c = .sleeps t) :
      Step m c { m with pc := Function.update m.pc c (.back t) }
  /- `sem_signal` and `wakeup_process` -/
  | signal {m c ctx s} (h : m.pc c = Context.pc ctx) (hl : m.semLock s = none) :
      Step m c
        { m with
          pc := Function.update m.pc c
            (if ((m.sem s).value + 1).sle 0 then .signalHeld ctx s else .signalEnd ctx s)
          semLock := Function.update m.semLock s (some c)
          sem := Function.update m.sem s { m.sem s with value := (m.sem s).value + 1 } }
  | signalPop {m c ctx s t size links} (h : m.pc c = .signalHeld ctx s)
      (hp : fifoPop (m.sem s).size m.links (.head (.waiters s)) =
        (some (.sched t), size, links)) :
      Step m c
        { m with
          pc := Function.update m.pc c (.signalPopped ctx s t)
          links := links
          sem := Function.update m.sem s { m.sem s with size := size } }
  | signalPanic {m c ctx s} (h : m.pc c = .signalHeld ctx s)
      (hp : (fifoPop (m.sem s).size m.links (.head (.waiters s))).1 = none) :
      Step m c { m with pc := Function.update m.pc c (.panicked ctx) }
  | wakeLock {m c ctx s t} (h : m.pc c = .signalPopped ctx s t) (hl : m.threadLock t = none) :
      Step m c
        { m with
          pc := Function.update m.pc c (.wakeLocked ctx (some s) t)
          threadLock := Function.update m.threadLock t (some c) }
  | wakeRunnable {m c ctx s t} (h : m.pc c = .wakeLocked ctx s t) :
      Step m c
        { m with
          pc := Function.update m.pc c (.enq t (.wakeup ctx s))
          state := Function.update m.state t .runnable }
  | wakeUnlock {m c ctx s t} (h : m.pc c = .enqDone t (.wakeup ctx s)) :
      Step m c
        { m with
          pc := Function.update m.pc c (wakeReturn ctx s)
          threadLock := Function.update m.threadLock t none }
  | signalReturn {m c ctx s} (h : m.pc c = .signalEnd ctx s) :
      Step m c
        { m with
          pc := Function.update m.pc c (Context.pc ctx)
          semLock := Function.update m.semLock s none }
  /- `kthread_create`, up to the lock in `wakeup_process` -/
  | create {m c ctx t aff} (h : m.pc c = Context.pc ctx) (ht : m.created t = false) :
      Step m c
        { m with
          pc := Function.update m.pc c (.wakeLocked ctx none t)
          threadLock := Function.update m.threadLock t (some c)
          links := initListHead m.links (.sched t)
          created := Function.update m.created t true
          affinity := Function.update m.affinity t aff }
  /- `quit` -/
  | quitLock {m c t u} (h : m.pc c = .runs t) (hu : m.cpuThread c = some u)
      (hl : m.threadLock u = none) :
      Step m c
        { m with
          pc := Function.update m.pc c (.quitLocked u)
          threadLock := Function.update m.threadLock u (some c) }
  | quitState {m c t} (h : m.pc c = .quitLocked t) :
      Step m c
        { m with
          pc := Function.update m.pc c (.quitZombie t)
          state := Function.update m.state t .zombie }
  | quitLink {m c t} (h : m.pc c = .quitZombie t) :
      Step m c
        { m with
          pc := Function.update m.pc c (.quitLinked t)
          links := listAddTail m.links (.sched t) (.head (.out c)) }
  | quitSwtch {m c t} (h : m.pc c = .quitLinked t) :
      Step m c { m with pc := Function.update m.pc c (.back t) }

/-- After `sched_init`: all CPUs are about to pick, and there is no thread yet. -/
structure Machine.Started [NeZero n] (m : Machine n σ τ) : Prop where
  pc : ∀ c, m.pc c = .pick
  threadLock : ∀ t, m.threadLock t = none
  listLock : ∀ c, m.listLock c = none
  semLock : ∀ s, m.semLock s = none
  run : ∀ c, initListHead m.links (.head (.run c)) = m.links
  out : ∀ c, initListHead m.links (.head (.out c)) = m.links
  waiters : ∀ s, initListHead m.links (.head (.waiters s)) = m.links
  cpuThread : ∀ c, m.cpuThread c = none
  created : ∀ t, m.created t = false
  loadCpuId : m.loadCpuId = -1
  enqueued : ∀ c, m.enqueued c = []
  dispatched : ∀ c, m.dispatched c = []

end RiscvLab.Kernel
