import RiscvLab.Kernel.Sched

/-!
# Interrupts across context switches

`push_off` and `pop_off` nest: a CPU counts in `noff` how often interrupts have been turned off, and
`spin_lock` and `spin_unlock` call them. Context switches are made with spinlocks held, and the
scheduler and the threads release what the other has taken. The code between two points where
interrupts may be enabled is one step here, written as the sequence of its `push_off` and `pop_off`
calls; those of `myproc` are included.

`sem_wait` calls `push_off` once more before it switches to the scheduler, and `pop_off` when the
thread is resumed. The scheduler does not know about it. A CPU on which a thread has blocked is left
with `noff` too high by one, and the CPU that resumes the thread with `noff` too low by one: it
panics if it has no excess to take it from (`noff_eq_of_reachable`, `panicked_iff_of_reachable`).

## Main results

* `disciplined_iff_of_reachable` : while no `sem_wait` blocks, `pop_off` does not panic and `noff`
  is zero whenever a scheduler picks a thread; the first `sem_wait` that blocks ends this.
* `exists_not_disciplined` : a thread blocks on one CPU, and `pop_off` panics on another.

Source: `lib/spinlock.c`, lines 20–96; `lib/semaphore.c`; `kernel/sched.c`, lines 61–161;
`kernel/proc.c`, lines 26–66 and 203–209; `kernel/trap/trap.c`, lines 33–54 and 159–175.
-/

namespace RiscvLab.Kernel

open Library

/-! ### Nesting -/

/-- The interrupt state of a CPU: whether interrupts are enabled, and two fields of `struct cpu`. -/
structure IntrCpu where
  intr : Bool
  noff : ℕ
  intena : Bool

/-- `push_off`. -/
def pushOff (x : IntrCpu) : IntrCpu :=
  { intr := false
    noff := x.noff + 1
    intena := if x.noff = 0 then x.intr else x.intena }

/-- `pop_off`; `none` if it panics. -/
def popOff (x : IntrCpu) : Option IntrCpu :=
  if x.intr then none
  else if x.noff < 1 then none
  else some { x with noff := x.noff - 1, intr := x.noff - 1 = 0 && x.intena }

/-- A call of `push_off` or `pop_off`. -/
inductive NestOp
  | push
  | pop

/-- A sequence of calls. -/
def runOps : List NestOp → IntrCpu → Option IntrCpu
  | [], x => some x
  | .push :: ops, x => runOps ops (pushOff x)
  | .pop :: ops, x => (popOff x).bind (runOps ops)

/-- The depth after a sequence of calls that does not go below the depth it started from. -/
def depthAfter : List NestOp → ℕ → Option ℕ
  | [], d => some d
  | .push :: ops, d => depthAfter ops (d + 1)
  | .pop :: ops, d + 1 => depthAfter ops d
  | .pop :: _, 0 => none

/-- The CPU is nested to the depth `d` above the base `b`. -/
def NestedAt (b d : ℕ) (x : IntrCpu) : Prop := x.noff = b + d ∧ (0 < d → x.intr = false)

/-- A sequence of calls that stays above its base does not panic. -/
theorem NestedAt.run {b d e : ℕ} {x : IntrCpu} (hx : NestedAt b d x) (ops : List NestOp)
    (hd : depthAfter ops d = some e) : ∃ y, runOps ops x = some y ∧ NestedAt b e y := by
  induction ops generalizing d x with
  | nil =>
    obtain rfl : d = e := by simpa [depthAfter] using hd
    exact ⟨x, rfl, hx⟩
  | cons op ops ih =>
    cases op with
    | push => exact ih (x := pushOff x) ⟨by rw [pushOff, hx.1, Nat.add_assoc], fun _ => rfl⟩ hd
    | pop =>
      cases d with
      | zero => simp [depthAfter] at hd
      | succ d =>
        have hnoff : x.noff - 1 = b + d := by rw [hx.1]; omega
        have hpop : popOff x =
            some { x with noff := b + d, intr := b + d = 0 && x.intena } := by
          have hlt : ¬ x.noff < 1 := by rw [hx.1]; omega
          simp only [popOff, hx.2 d.succ_pos, Bool.false_eq_true, if_false, if_neg hlt, hnoff]
        obtain ⟨y, hy, hy'⟩ := ih (x := { x with noff := b + d, intr := b + d = 0 && x.intena })
          ⟨rfl, fun hpos => by
            rw [decide_eq_false (Nat.ne_of_gt (Nat.add_pos_right b hpos)), Bool.false_and]⟩ hd
        refine ⟨y, ?_, hy'⟩
        rw [runOps, hpop, Option.bind_some, hy]

/-- Where the depth is zero, interrupts may be on or off. -/
theorem NestedAt.of_noff {b : ℕ} {x y : IntrCpu} (hx : NestedAt b 0 x) (h : y.noff = x.noff) :
    NestedAt b 0 y :=
  ⟨h.trans hx.1, fun h0 => absurd h0 (Nat.lt_irrefl 0)⟩

/-! ### The machine -/

/-- What a CPU executes: the scheduler about to pick, a thread just switched to, or a thread. -/
inductive CpuMode (τ : Type*)
  | pick
  | switched (t : τ)
  | runs (t : τ)
  deriving DecidableEq

/-- How a thread goes on when it is switched to: from `thread_entry`, or from `sched` called by
`yield` or by `sem_wait`, with the `intena` that `sched` has saved. -/
inductive SavedContext
  | entry
  | yielded (intena : Bool)
  | blocked (intena : Bool)

/-- CPUs, threads and semaphores. The run list that a thread is on is that of the CPU `ready`;
`traps` counts the timer interrupts that a thread has not returned from, and the last two fields
count how often threads have blocked, and blocked threads have been resumed, on each CPU. -/
structure IntrState (n : ℕ) (σ τ : Type*) where
  cpu : Fin n → IntrCpu
  mode : Fin n → CpuMode τ
  saved : τ → SavedContext
  ready : τ → Option (Fin n)
  traps : τ → ℕ
  created : τ → Bool
  affinity : τ → Option (Fin n)
  loadCpuId : Fin n
  sems : SemState σ τ
  panicked : Bool
  blocks : Fin n → ℕ
  resumes : Fin n → ℕ

/-- The steps. Signals, creations and other spinlocks (`spin`, also a timer interrupt that does not
yield) may come from the code of a thread or from a handler. -/
inductive IntrEvent (n : ℕ) (σ τ : Type*)
  | idle (c : Fin n)
  | dispatch (c : Fin n) (t : τ)
  | enter (c : Fin n)
  | timer (c : Fin n)
  | trapReturn (c : Fin n)
  | wait (c : Fin n) (s : σ)
  | signal (c : Fin n) (s : σ) (handler : Bool)
  | create (c : Fin n) (t : τ) (aff : Option (Fin n)) (handler : Bool)
  | exit (c : Fin n)
  | spin (c : Fin n) (handler : Bool)

/-- `myproc`, and a `spin_lock` with its `spin_unlock`. -/
def pairOps : List NestOp := [.push, .pop]

/-- `add_runnable_task`: `load_lock`, then the lock of a run list. -/
def addRunnableOps : List NestOp := pairOps ++ pairOps

/-- `wakeup_process`. -/
def wakeupOps : List NestOp := [.push] ++ addRunnableOps ++ [.pop]

/-- `timer_intr` and `yield`, up to the switch in `sched`. -/
def yieldOps : List NestOp := pairOps ++ pairOps ++ [.push] ++ addRunnableOps ++ pairOps

/-- `sem_wait` when it blocks, up to the switch in `sched`: the lock of the semaphore is taken, then
that of the thread, the first is released, and interrupts are pushed off once more. -/
def blockOps : List NestOp := [.push] ++ pairOps ++ [.push, .pop, .push] ++ pairOps

/-- `thread_exit` after `intr_off`, up to the switch in `sched`. -/
def quitOps : List NestOp := [.push] ++ pairOps

/-- `sem_signal`, which wakes a thread or not. -/
def signalOps (wakes : Bool) : List NestOp :=
  [.push] ++ (if wakes then wakeupOps else []) ++ [.pop]

/-- `kthread_create`: a process number is drawn under its lock. -/
def createOps : List NestOp := pairOps ++ wakeupOps

/-- The lock that `scheduler` and `sched` release when the other has switched to them. -/
def backOps : List NestOp := [.pop]

/-- `thread_entry` up to `intr_on`. -/
def entryOps : List NestOp := pairOps ++ [.pop]

variable {n : ℕ} {σ τ : Type*}

/-- Code of a handler runs with interrupts disabled, and the return from the trap enables them. -/
def runCode (handler : Bool) (ops : List NestOp) (x : IntrCpu) : Option IntrCpu :=
  if handler then (runOps ops { x with intr := false }).map fun y => { y with intr := true }
  else runOps ops x

namespace IntrState

@[simp] def setCpu (st : IntrState n σ τ) (c : Fin n) (x : IntrCpu) : IntrState n σ τ :=
  { st with cpu := Function.update st.cpu c x }

@[simp] def setMode (st : IntrState n σ τ) (c : Fin n) (m : CpuMode τ) : IntrState n σ τ :=
  { st with mode := Function.update st.mode c m }

/-- `add_runnable_task`. -/
def enqueue [NeZero n] [DecidableEq τ] (st : IntrState n σ τ) (t : τ) : IntrState n σ τ :=
  let choice := chooseCpu st.loadCpuId (st.affinity t)
  { st with ready := Function.update st.ready t (some choice.1), loadCpuId := choice.2 }

/-- The thread on the CPU switches to the scheduler: it leaves `saved` behind. -/
def switchOut [DecidableEq τ] (st : IntrState n σ τ) (c : Fin n) (t : τ) (saved : SavedContext)
    (x : IntrCpu) : Option (IntrState n σ τ) :=
  (runOps backOps x).map fun y =>
    { (st.setCpu c y).setMode c .pick with saved := Function.update st.saved t saved }

end IntrState

/-- The effect of a step; `none` if `pop_off` panics. -/
def effect [NeZero n] [DecidableEq σ] [DecidableEq τ] (st : IntrState n σ τ) :
    IntrEvent n σ τ → Option (IntrState n σ τ)
  | .idle c =>
    (runOps pairOps (st.cpu c)).map fun x => st.setCpu c { x with intr := true }
  | .dispatch c t =>
    (runOps [.push, .push, .pop] (st.cpu c)).map fun x =>
      { (st.setCpu c x).setMode c (.switched t) with ready := Function.update st.ready t none }
  | .enter c =>
    match st.mode c with
    | .switched t =>
      match st.saved t with
      | .entry =>
        (runOps entryOps (st.cpu c)).map fun x =>
          (st.setCpu c { x with intr := true }).setMode c (.runs t)
      | .yielded intena =>
        (runOps backOps (st.cpu c)).map fun x =>
          (st.setCpu c { x with intena := intena }).setMode c (.runs t)
      | .blocked intena =>
        (runOps backOps (st.cpu c)).bind fun x =>
          (runOps [.pop] { x with intena := intena }).map fun y =>
            { (st.setCpu c y).setMode c (.runs t) with
              resumes := Function.update st.resumes c (st.resumes c + 1) }
    | _ => some st
  | .timer c =>
    match st.mode c with
    | .runs t =>
      (runOps yieldOps { st.cpu c with intr := false }).bind fun x =>
        { st.enqueue t with traps := Function.update st.traps t (st.traps t + 1) }.switchOut c t
          (.yielded x.intena) x
    | _ => some st
  | .trapReturn c =>
    match st.mode c with
    | .runs t =>
      some { st.setCpu c { st.cpu c with intr := true } with
        traps := Function.update st.traps t (st.traps t - 1) }
    | _ => some st
  | .wait c s =>
    match st.mode c with
    | .runs t =>
      if ((st.sems.sem s).value - 1).slt 0 then
        (runOps blockOps (st.cpu c)).bind fun x =>
          { st with
            sems := semWait st.sems s t
            blocks := Function.update st.blocks c (st.blocks c + 1) }.switchOut c t
              (.blocked x.intena) x
      else
        (runOps pairOps (st.cpu c)).map fun x =>
          { st.setCpu c x with sems := semWait st.sems s t }
    | _ => some st
  | .signal c s handler =>
    match semSignal st.sems s with
    | some (some t, m) =>
      (runCode handler (signalOps true) (st.cpu c)).map fun x =>
        { (st.enqueue t).setCpu c x with sems := m }
    | some (none, m) =>
      (runCode handler (signalOps false) (st.cpu c)).map fun x =>
        { st.setCpu c x with sems := m }
    | none => some st
  | .create c t aff handler =>
    (runCode handler createOps (st.cpu c)).map fun x =>
      ({ st with
        created := Function.update st.created t true
        affinity := Function.update st.affinity t aff
        saved := Function.update st.saved t .entry }.enqueue t).setCpu c x
  | .exit c =>
    match st.mode c with
    | .runs t =>
      (runOps pairOps (st.cpu c)).bind fun x =>
        (runOps quitOps { x with intr := false }).bind fun y =>
          st.switchOut c t (st.saved t) y
    | _ => some st
  | .spin c handler => (runCode handler pairOps (st.cpu c)).map fun x => st.setCpu c x

/-- A handler runs when interrupts are enabled; other code is that of a thread that is not about to
return from a timer interrupt. -/
def Caller (st : IntrState n σ τ) (c : Fin n) (handler : Bool) : Prop :=
  if handler then (st.cpu c).intr = true ∧ ∀ t, st.mode c ≠ .switched t
  else ∃ t, st.mode c = .runs t ∧ st.traps t = 0

/-- When a step is possible. -/
def Enabled [DecidableEq σ] [DecidableEq τ] (st : IntrState n σ τ) : IntrEvent n σ τ → Prop
  | .idle c => st.mode c = .pick ∧ ∀ t, st.ready t ≠ some c
  | .dispatch c t => st.mode c = .pick ∧ st.ready t = some c
  | .enter c => ∃ t, st.mode c = .switched t
  | .timer c => (st.cpu c).intr = true ∧ ∃ t, st.mode c = .runs t
  | .trapReturn c => ∃ t, st.mode c = .runs t ∧ 0 < st.traps t
  | .wait c _ | .exit c => Caller st c false
  | .spin c handler => Caller st c handler
  | .signal c s handler => Caller st c handler ∧ semSignal st.sems s ≠ none
  | .create c t _ handler => Caller st c handler ∧ st.created t = false

/-- One step: its effect, or a panic. -/
def IntrStep [NeZero n] [DecidableEq σ] [DecidableEq τ] (st : IntrState n σ τ) (a : IntrEvent n σ τ)
    (st' : IntrState n σ τ) : Prop :=
  st.panicked = false ∧ Enabled st a ∧ st' = (effect st a).getD { st with panicked := true }

/-- All CPUs are in their scheduler loop with interrupts on, and there is no thread. -/
structure IntrState.Started [NeZero n] (st : IntrState n σ τ) : Prop where
  intr : ∀ c, (st.cpu c).intr = true
  noff : ∀ c, (st.cpu c).noff = 0
  mode : ∀ c, st.mode c = .pick
  saved : ∀ t, st.saved t = .entry
  ready : ∀ t, st.ready t = none
  created : ∀ t, st.created t = false
  loadCpuId : st.loadCpuId = -1
  panicked : st.panicked = false
  blocks : ∀ c, st.blocks c = 0
  resumes : ∀ c, st.resumes c = 0

/-- `pop_off` has not panicked, and `noff` is zero where a scheduler is about to pick. -/
def Disciplined (st : IntrState n σ τ) : Prop :=
  st.panicked = false ∧ ∀ c, st.mode c = .pick → (st.cpu c).noff = 0

/-- The step is not a `sem_wait` that blocks. -/
def Passes (st : IntrState n σ τ) : IntrEvent n σ τ → Prop
  | .wait _ s => ((st.sems.sem s).value - 1).slt 0 = false
  | _ => True

/-! ### Accounting -/

/-- How deep the CPU is nested above its base. -/
@[simp] def CpuMode.depth : CpuMode τ → ℕ
  | .pick | .runs _ => 0
  | .switched _ => 1

/-- The base of the CPU is the number of threads that have blocked on it, less those it resumed. -/
def AccountedAt (st : IntrState n σ τ) (c : Fin n) : Prop :=
  ∃ b, st.blocks c = st.resumes c + b ∧ NestedAt b (st.mode c).depth (st.cpu c)

/-- The CPU is about to resume a blocked thread, and its base is zero. -/
def OverPops (st : IntrState n σ τ) : IntrEvent n σ τ → Prop
  | .enter c => ∃ t intena, st.mode c = .switched t ∧ st.saved t = .blocked intena ∧
      st.blocks c = st.resumes c
  | _ => False

/-- The code of a thread or of a handler returns to the depth it started from. -/
theorem NestedAt.runCode {b : ℕ} {x : IntrCpu} (hx : NestedAt b 0 x) (handler : Bool)
    (ops : List NestOp) (hd : depthAfter ops 0 = some 0) :
    ∃ y, runCode handler ops x = some y ∧ NestedAt b 0 y := by
  cases handler with
  | false => exact hx.run ops hd
  | true =>
    obtain ⟨y, hy, hy'⟩ := NestedAt.run (x := { x with intr := false }) ⟨hx.1, fun _ => rfl⟩ ops hd
    exact ⟨{ y with intr := true }, by simp [Kernel.runCode, hy], hy'.1, by simp⟩

/-- The step does not panic, and the accounts are in order after it. -/
private def Goes (st : IntrState n σ τ) (o : Option (IntrState n σ τ)) : Prop :=
  ∃ st', o = some st' ∧ (∀ d, AccountedAt st' d) ∧ st'.panicked = st.panicked

/-- A step touches one CPU, and leaves the accounts of the others. -/
private theorem Goes.set {st st' : IntrState n σ τ} {c : Fin n} {x : IntrCpu} {m : CpuMode τ}
    {b : ℕ} (h : ∀ d, d ≠ c → AccountedAt st d) (hx : NestedAt b m.depth x)
    (hcpu : st'.cpu = Function.update st.cpu c x) (hmode : st'.mode = Function.update st.mode c m)
    (hb : st'.blocks c = st'.resumes c + b) (hblocks : ∀ d, d ≠ c → st'.blocks d = st.blocks d)
    (hresumes : ∀ d, d ≠ c → st'.resumes d = st.resumes d) (hp : st'.panicked = st.panicked) :
    Goes st (some st') := by
  refine ⟨st', rfl, fun d => ?_, hp⟩
  by_cases hd : d = c
  · subst hd
    exact ⟨b, hb, by simpa only [hcpu, hmode, Function.update_self] using hx⟩
  · simpa only [AccountedAt, hcpu, hmode, Function.update_of_ne hd, hblocks d hd, hresumes d hd]
      using h d hd

/-- The step leaves the mode and the counts as they are. -/
private theorem Goes.stay {st st' : IntrState n σ τ} {c : Fin n} {x : IntrCpu} {b : ℕ}
    (h : ∀ d, AccountedAt st d) (hx : NestedAt b (st.mode c).depth x)
    (hb : st.blocks c = st.resumes c + b) (hcpu : st'.cpu = Function.update st.cpu c x)
    (hmode : st'.mode = st.mode) (hblocks : st'.blocks = st.blocks)
    (hresumes : st'.resumes = st.resumes) (hp : st'.panicked = st.panicked) :
    Goes st (some st') :=
  Goes.set (fun d _ => h d) hx hcpu (by rw [hmode, Function.update_eq_self])
    (by rw [hblocks, hresumes, hb]) (fun _ _ => by rw [hblocks]) (fun _ _ => by rw [hresumes]) hp

private theorem Caller.depth_eq {st : IntrState n σ τ} {c : Fin n} {handler : Bool}
    (h : Caller st c handler) : (st.mode c).depth = 0 := by
  cases handler with
  | false =>
    obtain ⟨t, ht, -⟩ : ∃ t, st.mode c = .runs t ∧ st.traps t = 0 := h
    rw [ht, CpuMode.depth]
  | true =>
    have hmode : ∀ t, st.mode c ≠ .switched t := h.2
    cases hc : st.mode c with
    | switched t => exact absurd hc (hmode t)
    | _ => rfl

section Blocked

variable {st st' : IntrState n σ τ} {a : IntrEvent n σ τ}

private theorem IntrState.Started.accounted [NeZero n] (h : st.Started) (d : Fin n) :
    AccountedAt st d :=
  ⟨0, by rw [h.blocks, h.resumes], by rw [h.mode]; exact ⟨h.noff d, by simp⟩⟩

/-- No thread has blocked. -/
private def NoneBlocked (st : IntrState n σ τ) : Prop :=
  (∀ c, st.blocks c = 0) ∧ ∀ t intena, st.saved t ≠ .blocked intena

/-- No thread blocks in the step. -/
private def Quiet (st st' : IntrState n σ τ) : Prop :=
  st'.blocks = st.blocks ∧ ∀ t intena, st'.saved t = .blocked intena → st.saved t = .blocked intena

private theorem Quiet.of_eq (hblocks : st'.blocks = st.blocks) (hsaved : st'.saved = st.saved) :
    Quiet st st' :=
  ⟨hblocks, fun _ _ h => hsaved ▸ h⟩

private theorem Quiet.map {α : Type*} {o : Option α} {f : α → IntrState n σ τ}
    (h : o.map f = some st') (hf : ∀ x, Quiet st (f x)) : Quiet st st' := by
  obtain ⟨x, -, rfl⟩ := Option.map_eq_some_iff.1 h
  exact hf x

private theorem Quiet.bind {α : Type*} {o : Option α} {f : α → Option (IntrState n σ τ)}
    (h : o.bind f = some st') (hf : ∀ x, f x = some st' → Quiet st st') : Quiet st st' := by
  obtain ⟨x, -, hx⟩ := Option.bind_eq_some_iff.1 h
  exact hf x hx

private theorem NoneBlocked.not_overPops (h : NoneBlocked st) : ¬ OverPops st a := by
  cases a with
  | enter c =>
    rintro ⟨t, intena, -, hs, -⟩
    exact h.2 t intena hs
  | _ => exact id

private theorem NoneBlocked.disciplined (h : NoneBlocked st) (hp : st.panicked = false)
    (hacc : ∀ d, AccountedAt st d) : Disciplined st := by
  refine ⟨hp, fun c hc => ?_⟩
  obtain ⟨b, hb, hn⟩ := hacc c
  rw [h.1 c] at hb
  rw [hn.1, hc, CpuMode.depth]
  omega

private theorem Quiet.switchOut [DecidableEq τ] {c : Fin n} {t : τ} {x : IntrCpu}
    {saved : SavedContext} {st₁ : IntrState n σ τ} (h : st₁.switchOut c t saved x = some st')
    (hblocks : st₁.blocks = st.blocks) (hsaved : st₁.saved = st.saved)
    (hs : ∀ intena, saved = .blocked intena → st.saved t = .blocked intena) : Quiet st st' := by
  refine Quiet.map h fun y => ⟨hblocks, fun u intena hu => ?_⟩
  have hu : Function.update st₁.saved t saved u = .blocked intena := hu
  rw [hsaved, Function.update_apply] at hu
  split at hu
  · next heq => exact heq ▸ hs intena hu
  · exact hu

end Blocked

variable [DecidableEq τ]

/-- The scheduler releases one lock, so that a thread that switches out at depth `d + 1` leaves the
base higher by `d`. -/
private theorem switchOut_goes {st : IntrState n σ τ} {c : Fin n} {x : IntrCpu} {b d : ℕ}
    (h : ∀ e, e ≠ c → AccountedAt st e) (hb : st.blocks c = st.resumes c + (b + d))
    (hx : NestedAt b (d + 1) x) (t : τ) (saved : SavedContext) :
    Goes st (st.switchOut c t saved x) := by
  have hx' : NestedAt (b + d) 1 x := ⟨by rw [hx.1, Nat.add_assoc], fun _ => hx.2 d.succ_pos⟩
  obtain ⟨y, hy, hy'⟩ := hx'.run backOps (e := 0) rfl
  rw [IntrState.switchOut, hy, Option.map_some]
  exact Goes.set (m := .pick) h hy' rfl rfl hb (fun _ _ => rfl) (fun _ _ => rfl) rfl

variable [DecidableEq σ] [NeZero n]

private theorem enter_goes {st : IntrState n σ τ} {c : Fin n} (h : ∀ d, AccountedAt st d)
    (ha : Enabled st (.enter c)) (hno : ¬ OverPops st (.enter c)) :
    Goes st (effect st (.enter c)) := by
  obtain ⟨t, ht⟩ := ha
  obtain ⟨b, hb, hn⟩ := h c
  rw [ht, CpuMode.depth] at hn
  cases hs : st.saved t with
  | entry =>
    obtain ⟨x, hx, hx'⟩ := hn.run entryOps (e := 0) rfl
    simp only [effect, ht, hs, hx, Option.map_some]
    exact Goes.set (x := { x with intr := true }) (m := .runs t) (fun d _ => h d)
      (hx'.of_noff rfl) rfl rfl hb (fun _ _ => rfl) (fun _ _ => rfl) rfl
  | yielded intena =>
    obtain ⟨x, hx, hx'⟩ := hn.run backOps (e := 0) rfl
    simp only [effect, ht, hs, hx, Option.map_some]
    exact Goes.set (x := { x with intena := intena }) (m := .runs t) (fun d _ => h d)
      (hx'.of_noff rfl) rfl rfl hb (fun _ _ => rfl) (fun _ _ => rfl) rfl
  | blocked intena =>
    -- the thread pops off once more than the scheduler has pushed: this comes out of the base
    have hpos : b ≠ 0 := fun hb0 => hno ⟨t, intena, ht, hs, by rw [hb, hb0, Nat.add_zero]⟩
    obtain ⟨k, rfl⟩ := Nat.exists_eq_add_one_of_ne_zero hpos
    have hn2 : NestedAt k 2 (st.cpu c) := ⟨by rw [hn.1], fun _ => hn.2 Nat.one_pos⟩
    obtain ⟨x, hx, hx'⟩ := hn2.run backOps (e := 1) rfl
    obtain ⟨y, hy, hy'⟩ := NestedAt.run (x := { x with intena := intena }) hx' [.pop] (e := 0) rfl
    simp only [effect, ht, hs, hx, Option.bind_some, hy, Option.map_some]
    refine Goes.set (m := .runs t) (fun d _ => h d) hy' rfl rfl ?_ (fun _ _ => rfl)
      (fun d hd => Function.update_of_ne hd _ _) rfl
    simp only [Function.update_self, IntrState.setCpu, IntrState.setMode, hb]
    omega

/-- A step goes on unless the CPU has to pop off below zero. -/
private theorem effect_goes {st : IntrState n σ τ} {a : IntrEvent n σ τ}
    (h : ∀ d, AccountedAt st d) (ha : Enabled st a) (hno : ¬ OverPops st a) :
    Goes st (effect st a) := by
  cases a with
  | idle c =>
    obtain ⟨b, hb, hn⟩ := h c
    have hd : (st.mode c).depth = 0 := by rw [ha.1, CpuMode.depth]
    obtain ⟨x, hx, hx'⟩ := (hd ▸ hn).run pairOps (e := 0) rfl
    simp only [effect, hx, Option.map_some]
    exact Goes.stay (x := { x with intr := true }) h (hd.symm ▸ hx'.of_noff rfl) hb
      rfl rfl rfl rfl rfl
  | dispatch c t =>
    obtain ⟨b, hb, hn⟩ := h c
    rw [ha.1] at hn
    obtain ⟨x, hx, hx'⟩ := hn.run [.push, .push, .pop] (e := 1) rfl
    simp only [effect, hx, Option.map_some]
    exact Goes.set (m := .switched t) (fun d _ => h d) hx' rfl rfl hb (fun _ _ => rfl)
      (fun _ _ => rfl) rfl
  | enter c => exact enter_goes h ha hno
  | timer c =>
    obtain ⟨-, t, ht⟩ := ha
    obtain ⟨b, hb, hn⟩ := h c
    rw [ht] at hn
    obtain ⟨x, hx, hx'⟩ := NestedAt.run (x := { st.cpu c with intr := false })
      ⟨hn.1, fun _ => rfl⟩ yieldOps (e := 1) rfl
    simp only [effect, ht, hx, Option.bind_some]
    refine switchOut_goes (d := 0) ?_ ?_ hx' t (.yielded x.intena)
    · exact fun d _ => h d
    · exact hb
  | trapReturn c =>
    obtain ⟨t, ht, -⟩ := ha
    obtain ⟨b, hb, hn⟩ := h c
    have hd : (st.mode c).depth = 0 := by rw [ht, CpuMode.depth]
    simp only [effect, ht]
    exact Goes.stay (x := { st.cpu c with intr := true }) h
      (hd.symm ▸ (hd ▸ hn : NestedAt b 0 (st.cpu c)).of_noff rfl) hb rfl rfl rfl rfl rfl
  | wait c s =>
    obtain ⟨t, ht, -⟩ : ∃ t, st.mode c = .runs t ∧ st.traps t = 0 := ha
    obtain ⟨b, hb, hn⟩ := h c
    have hd : (st.mode c).depth = 0 := by rw [ht, CpuMode.depth]
    by_cases hv : ((st.sems.sem s).value - 1).slt 0 = true
    · obtain ⟨x, hx, hx'⟩ := (hd ▸ hn).run blockOps (e := 2) rfl
      simp only [effect, ht, hv, if_true, hx, Option.bind_some]
      refine switchOut_goes (d := 1) (fun d hd => ?_) ?_ hx' t (.blocked x.intena)
      · simpa [AccountedAt, hd] using h d
      · simp only [Function.update_self, hb, Nat.add_assoc]
    · obtain ⟨x, hx, hx'⟩ := (hd ▸ hn).run pairOps (e := 0) rfl
      simp only [effect, ht, hv, hx, Option.map_some]
      exact Goes.stay h (hd.symm ▸ hx') hb rfl rfl rfl rfl rfl
  | signal c s handler =>
    obtain ⟨b, hb, hn⟩ := h c
    have hd := ha.1.depth_eq
    match hm : semSignal st.sems s with
    | some (some t, m) =>
      obtain ⟨x, hx, hx'⟩ := (hd ▸ hn).runCode handler (signalOps true) rfl
      simp only [effect, hm, hx, Option.map_some]
      exact Goes.stay h (hd.symm ▸ hx') hb rfl rfl rfl rfl rfl
    | some (none, m) =>
      obtain ⟨x, hx, hx'⟩ := (hd ▸ hn).runCode handler (signalOps false) rfl
      simp only [effect, hm, hx, Option.map_some]
      exact Goes.stay h (hd.symm ▸ hx') hb rfl rfl rfl rfl rfl
    | none => exact absurd hm ha.2
  | create c t aff handler =>
    obtain ⟨b, hb, hn⟩ := h c
    have hd := ha.1.depth_eq
    obtain ⟨x, hx, hx'⟩ := (hd ▸ hn).runCode handler createOps rfl
    simp only [effect, hx, Option.map_some]
    exact Goes.stay h (hd.symm ▸ hx') hb rfl rfl rfl rfl rfl
  | exit c =>
    obtain ⟨t, ht, -⟩ : ∃ t, st.mode c = .runs t ∧ st.traps t = 0 := ha
    obtain ⟨b, hb, hn⟩ := h c
    rw [ht] at hn
    obtain ⟨x, hx, hx'⟩ := hn.run pairOps (e := 0) rfl
    obtain ⟨y, hy, hy'⟩ := NestedAt.run (x := { x with intr := false })
      ⟨hx'.1, fun _ => rfl⟩ quitOps (e := 1) rfl
    simp only [effect, ht, hx, hy, Option.bind_some]
    exact switchOut_goes (d := 0) (fun d _ => h d) hb hy' t (st.saved t)
  | spin c handler =>
    obtain ⟨b, hb, hn⟩ := h c
    have hd : (st.mode c).depth = 0 := Caller.depth_eq (show Caller st c handler from ha)
    obtain ⟨x, hx, hx'⟩ := (hd ▸ hn).runCode handler pairOps rfl
    simp only [effect, hx, Option.map_some]
    exact Goes.stay h (hd.symm ▸ hx') hb rfl rfl rfl rfl rfl

/-- Below zero `pop_off` panics, whether or not the pop before it has enabled interrupts. -/
private theorem effect_of_overPops {st : IntrState n σ τ} {a : IntrEvent n σ τ}
    (h : ∀ d, AccountedAt st d) (ha : OverPops st a) : effect st a = none := by
  cases a with
  | enter c =>
    obtain ⟨t, intena, ht, hs, heq⟩ := ha
    obtain ⟨b, hb, hn⟩ := h c
    obtain rfl : b = 0 := by omega
    rw [ht] at hn
    obtain ⟨x, hx, hx'⟩ := hn.run backOps (e := 0) rfl
    have hnone : runOps [.pop] { x with intena := intena } = none := by
      have hlt : x.noff < 1 := by rw [hx'.1]; exact Nat.one_pos
      simp [runOps, popOff, hlt]
    simp only [effect, ht, hs, hx, Option.bind_some, hnone, Option.map_none]
  | _ => exact ha.elim

section Runs

variable {st st' : IntrState n σ τ} {a : IntrEvent n σ τ}

private theorem IntrStep.accounted (h : st.panicked = false → ∀ d, AccountedAt st d)
    (hs : IntrStep st a st') : st'.panicked = false → ∀ d, AccountedAt st' d := by
  obtain ⟨hp, ha, rfl⟩ := hs
  by_cases hover : OverPops st a
  · rw [effect_of_overPops (h hp) hover]
    exact fun hfalse => absurd hfalse (by simp)
  · obtain ⟨st₁, hst₁, hacc, -⟩ := effect_goes (h hp) ha hover
    rw [hst₁]
    exact fun _ => hacc

private theorem accounted_of_reachable (h : Reachable IntrState.Started IntrStep st) :
    st.panicked = false → ∀ d, AccountedAt st d :=
  h.invariant (P := fun st => st.panicked = false → ∀ d, AccountedAt st d)
    (fun _ hst _ => hst.accounted) fun _ _ _ hI hs => hs.accounted hI

/-- `noff` is the depth of what the CPU executes, plus one for each thread that has blocked on it,
less one for each blocked thread that it has resumed. -/
theorem noff_eq_of_reachable (h : Reachable IntrState.Started IntrStep st)
    (hp : st.panicked = false) (c : Fin n) :
    (st.cpu c).noff + st.resumes c = st.blocks c + (st.mode c).depth := by
  obtain ⟨b, hb, hn⟩ := accounted_of_reachable h hp c
  rw [hn.1, hb]
  omega

/-- `pop_off` panics exactly where a CPU resumes a blocked thread, and as many blocked threads have
been resumed on this CPU as have blocked on it. -/
theorem panicked_iff_of_reachable (h : Reachable IntrState.Started IntrStep st)
    (hs : IntrStep st a st') : st'.panicked = true ↔ OverPops st a := by
  obtain ⟨hp, ha, rfl⟩ := hs
  have hacc := accounted_of_reachable h hp
  by_cases hover : OverPops st a
  · simp [effect_of_overPops hacc hover, hover]
  · obtain ⟨st₁, hst₁, -, hp₁⟩ := effect_goes hacc ha hover
    simp [hst₁, hp₁, hp, hover]

/-! ### Runs in which nothing blocks -/

/-- Only a blocking `sem_wait` leaves a thread blocked that was not. -/
private theorem effect_quiet (ha : Passes st a) (h : effect st a = some st') : Quiet st st' := by
  cases a with simp only [effect] at h
  | idle c => exact Quiet.map h fun _ => .of_eq rfl rfl
  | dispatch c t => exact Quiet.map h fun _ => .of_eq rfl rfl
  | spin c handler => exact Quiet.map h fun _ => .of_eq rfl rfl
  | enter c =>
    split at h
    · split at h
      · exact Quiet.map h fun _ => .of_eq rfl rfl
      · exact Quiet.map h fun _ => .of_eq rfl rfl
      · exact Quiet.bind h fun _ hx => Quiet.map hx fun _ => .of_eq rfl rfl
    · exact Option.some.inj h ▸ .of_eq rfl rfl
  | timer c =>
    split at h
    · exact Quiet.bind h fun _ hx => .switchOut hx rfl rfl fun _ hs => by cases hs
    · exact Option.some.inj h ▸ .of_eq rfl rfl
  | trapReturn c =>
    split at h
    · exact Option.some.inj h ▸ .of_eq rfl rfl
    · exact Option.some.inj h ▸ .of_eq rfl rfl
  | wait c s =>
    have hv : ((st.sems.sem s).value - 1).slt 0 = false := ha
    simp only [hv, Bool.false_eq_true, if_false] at h
    split at h
    · exact Quiet.map h fun _ => .of_eq rfl rfl
    · exact Option.some.inj h ▸ .of_eq rfl rfl
  | signal c s handler =>
    split at h
    · exact Quiet.map h fun _ => .of_eq rfl rfl
    · exact Quiet.map h fun _ => .of_eq rfl rfl
    · exact Option.some.inj h ▸ .of_eq rfl rfl
  | create c t aff handler =>
    refine Quiet.map h fun x => ⟨rfl, fun u intena hu => ?_⟩
    simp only [IntrState.enqueue, IntrState.setCpu, Function.update_apply] at hu
    split at hu
    · cases hu
    · exact hu
  | exit c =>
    split at h
    · exact Quiet.bind h fun _ hx => Quiet.bind hx fun _ hy => .switchOut hy rfl rfl fun _ => id
    · exact Option.some.inj h ▸ .of_eq rfl rfl

/-- A `sem_wait` that blocks leaves the scheduler with interrupts pushed off. -/
private theorem effect_blocks {c : Fin n} {s : σ} (hacc : ∀ d, AccountedAt st d)
    (ha : Enabled st (.wait c s)) (hv : ((st.sems.sem s).value - 1).slt 0 = true) :
    ∃ st₁, effect st (.wait c s) = some st₁ ∧ st₁.mode c = .pick ∧ 0 < (st₁.cpu c).noff := by
  obtain ⟨t, ht, -⟩ : ∃ t, st.mode c = .runs t ∧ st.traps t = 0 := ha
  obtain ⟨b, -, hn⟩ := hacc c
  rw [ht] at hn
  obtain ⟨x, hx, hx'⟩ := hn.run blockOps (e := 2) rfl
  obtain ⟨y, hy, hy'⟩ := hx'.run backOps (e := 1) rfl
  simp only [effect, ht, hv, if_true, hx, Option.bind_some, IntrState.switchOut, hy,
    Option.map_some]
  refine ⟨_, rfl, by simp, ?_⟩
  simp [hy'.1]

private theorem noneBlocked_of_reachable
    (h : Reachable IntrState.Started (guarded Passes IntrStep) st) : NoneBlocked st := by
  refine h.invariant (fun _ hst => ⟨hst.blocks, fun t _ => by simp [hst.saved t]⟩) ?_
  rintro st a _ hN ⟨hpass, -, -, rfl⟩
  cases he : effect st a with
  | none => exact hN
  | some st₁ =>
    obtain ⟨hblocks, hsaved⟩ := effect_quiet hpass he
    exact ⟨fun c => by simpa [hblocks] using hN.1 c, fun t i hi => hN.2 t i (hsaved t i hi)⟩

private theorem not_panicked_of_reachable
    (h : Reachable IntrState.Started (guarded Passes IntrStep) st) : st.panicked = false := by
  cases h with
  | start h => exact h.panicked
  | next h hs =>
    exact Bool.eq_false_iff.2 (mt (panicked_iff_of_reachable h.of_guarded hs.2).1
      (noneBlocked_of_reachable h).not_overPops)

/-- As long as no `sem_wait` blocks, `pop_off` does not panic and `noff` is zero on every CPU whose
scheduler is about to pick a thread, and the next step keeps this exactly if it does not block. -/
theorem disciplined_iff_of_reachable
    (h : Reachable IntrState.Started (guarded Passes IntrStep) st) :
    Disciplined st ∧ ∀ a st', IntrStep st a st' → (Disciplined st' ↔ Passes st a) := by
  have hacc := accounted_of_reachable h.of_guarded (not_panicked_of_reachable h)
  refine ⟨(noneBlocked_of_reachable h).disciplined (not_panicked_of_reachable h) hacc,
    fun a st' hs => ⟨fun hd => ?_, fun hpass => ?_⟩⟩
  · by_contra hblocks
    cases a with
    | wait c s =>
      obtain ⟨-, ha, rfl⟩ := hs
      obtain ⟨st₁, he, hmode, hpos⟩ := effect_blocks hacc ha (by simpa [Passes] using hblocks)
      rw [he] at hd
      exact hpos.ne' (hd.2 c hmode)
    | _ => exact hblocks trivial
  · have h' : Reachable IntrState.Started (guarded Passes IntrStep) st' := .next h ⟨hpass, hs⟩
    exact (noneBlocked_of_reachable h').disciplined (not_panicked_of_reachable h')
      (accounted_of_reachable h'.of_guarded (not_panicked_of_reachable h'))

end Runs

/-- The state after a step. -/
private def after (st : IntrState n σ τ) (a : IntrEvent n σ τ) : IntrState n σ τ :=
  (effect st a).getD { st with panicked := true }

private theorem reachable_after {st : IntrState n σ τ} {a : IntrEvent n σ τ}
    (h : Reachable IntrState.Started IntrStep st) (hp : st.panicked = false) (ha : Enabled st a) :
    Reachable IntrState.Started IntrStep (after st a) :=
  .next h ⟨hp, ha, rfl⟩

/-- Two CPUs, one thread, and a semaphore with the value `v`. -/
private def intrStart (v : BitVec 32) : IntrState 2 Unit Unit where
  cpu _ := ⟨true, 0, false⟩
  mode _ := .pick
  saved _ := .entry
  ready _ := none
  traps _ := 0
  created _ := false
  affinity _ := none
  loadCpuId := -1
  sems := (SemRun.start fun _ => v).st
  panicked := false
  blocks _ := 0
  resumes _ := 0

private theorem started_intrStart (v : BitVec 32) : (intrStart v).Started :=
  ⟨fun _ => rfl, fun _ => rfl, fun _ => rfl, fun _ => rfl, fun _ => rfl, fun _ => rfl, rfl, rfl,
    fun _ => rfl, fun _ => rfl⟩

/-- A thread is created, dispatched and passes a semaphore. -/
theorem disciplined_one_thread :
    ∃ st : IntrState 2 Unit Unit, st.mode 0 = .runs () ∧
      Reachable IntrState.Started (guarded Passes IntrStep) st ∧ Disciplined st := by
  let st₁ := after (intrStart 1) (.create 0 () none true)
  let st₂ := after st₁ (.dispatch 0 ())
  let st₃ := after st₂ (.enter 0)
  let st₄ := after st₃ (.wait 0 ())
  have h₁ : guarded Passes IntrStep (intrStart 1) (.create 0 () none true) st₁ :=
    ⟨trivial, rfl, ⟨⟨rfl, fun _ => nofun⟩, rfl⟩, rfl⟩
  have h₂ : guarded Passes IntrStep st₁ (.dispatch 0 ()) st₂ := ⟨trivial, rfl, ⟨rfl, rfl⟩, rfl⟩
  have h₃ : guarded Passes IntrStep st₂ (.enter 0) st₃ := ⟨trivial, rfl, ⟨(), rfl⟩, rfl⟩
  have h₄ : guarded Passes IntrStep st₃ (.wait 0 ()) st₄ :=
    ⟨show (((st₃.sems.sem ()).value - 1).slt 0) = false by decide, rfl,
      ⟨(), by decide, rfl⟩, rfl⟩
  have h := Reachable.next (.next (.next (.next (.start (started_intrStart 1)) h₁) h₂) h₃) h₄
  exact ⟨st₄, by decide, h, (disciplined_iff_of_reachable h).1⟩

/-- A thread has been created, dispatched, and has blocked. -/
private def blocked : IntrState 2 Unit Unit :=
  after (after (after (after (intrStart 0) (.create 0 () none true)) (.dispatch 0 ())) (.enter 0))
    (.wait 0 ())

private theorem reachable_blocked : Reachable IntrState.Started IntrStep blocked := by
  have h := reachable_after (a := .create 0 () none true) (.start (started_intrStart 0)) rfl
    ⟨⟨rfl, fun _ => nofun⟩, rfl⟩
  have h := reachable_after (a := .dispatch 0 ()) h rfl ⟨rfl, rfl⟩
  have h := reachable_after (a := .enter 0) h rfl ⟨(), rfl⟩
  exact reachable_after (a := .wait 0 ()) h rfl ⟨(), by decide, rfl⟩

/-- A thread blocks on the first CPU, whose scheduler goes on with interrupts pushed off. Woken by a
handler, the thread is put on the run list of the second CPU, and `pop_off` panics there. -/
theorem exists_not_disciplined :
    ∃ st st' : IntrState 2 Unit Unit, Reachable IntrState.Started IntrStep st ∧
      st.mode 0 = .pick ∧ (st.cpu 0).noff = 1 ∧
      Reachable IntrState.Started IntrStep st' ∧ st'.panicked = true := by
  have hpick : ∀ c, blocked.mode c = .pick := by decide
  have hwakes : (semSignal blocked.sems ()).isSome = true := by decide
  have h := reachable_after (a := .signal 1 () true) reachable_blocked (by decide)
    ⟨⟨by decide, fun t ht => by simp [hpick] at ht⟩, Option.isSome_iff_ne_none.1 hwakes⟩
  have h := reachable_after (a := .dispatch 1 ()) h (by decide) ⟨by decide, by decide⟩
  have h := reachable_after (a := .enter 1) h (by decide) ⟨(), by decide⟩
  exact ⟨blocked, _, reachable_blocked, hpick 0, by decide, h, by decide⟩

/-- A thread blocks, and the scheduler goes on one level deeper. -/
theorem noff_eq_of_reachable_blocked :
    ∃ st : IntrState 2 Unit Unit, st.mode 0 = .pick ∧ st.blocks 0 = 1 ∧
      (st.cpu 0).noff + st.resumes 0 = st.blocks 0 + (st.mode 0).depth :=
  ⟨blocked, by decide, by decide, noff_eq_of_reachable reachable_blocked (by decide) 0⟩

end RiscvLab.Kernel
