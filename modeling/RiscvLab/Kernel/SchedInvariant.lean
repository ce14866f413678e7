import RiscvLab.Kernel.Sched

/-!
# Where threads are

A thread that is on no list is in the custody of one CPU: the CPU executes it, has just taken it off
a list, or is about to put it on one. Which threads a CPU has in custody, and which thread locks it
holds, is told by its control point (`Pc.owns`, `Pc.locks`). A thread may be locked by another CPU
than the one that has it in custody only if it has been popped from a queue and the lock is still to
be taken (`Pc.popped`): this is how a thread that is switching out is protected.

`SchedInv` is the invariant: what holds of each CPU (`CpuInv`), between two of them (`Pc.Apart`),
and of the lists. The steps of the machine are of a few kinds, with one lemma for each: a move,
taking and releasing a lock, storing a state, linking, unlinking, and creating a thread.

Source: `kernel/sched.c`; `kernel/proc.c`; `lib/semaphore.c`.
-/

namespace RiscvLab.Kernel

open Library

variable {n : ℕ} {σ τ : Type*}

/-- The thread of a context. -/
def Context.exec : Context τ → Option τ
  | .scheduler => none
  | .thread t => some t

/-- The context of a continuation. -/
def EnqCont.exec (t : τ) : EnqCont σ τ → Option τ
  | .yield => some t
  | .wakeup ctx _ => ctx.exec

/-- The thread, other than the one enqueued, that a continuation has in custody. -/
def EnqCont.owns : EnqCont σ τ → Option τ
  | .yield => none
  | .wakeup ctx _ => ctx.exec

namespace Pc

/-- The thread whose code the CPU executes. -/
def exec : Pc n σ τ → Option τ
  | resumed t | runs t | yieldLocked t | waitPass t _ | waitHeld t _ | waitLocked t _
  | waitPushed t _ | waitUnlocked t | sleeps t | quitLocked t | quitZombie t | quitLinked t =>
    some t
  | enq t k | enqChosen t _ k | enqHeld t _ k | enqLinked t _ k | enqDone t k => k.exec t
  | signalHeld ctx _ | signalPopped ctx _ _ | signalEnd ctx _ | wakeLocked ctx _ _
  | panicked ctx => ctx.exec
  | _ => none

/-- The threads in the custody of the CPU. -/
def owns : Pc n σ τ → List τ
  | unlinked t | dispatch t | resumed t | runs t | yieldLocked t | waitPass t _ | waitHeld t _
  | waitLocked t _ | quitLocked t | quitZombie t => [t]
  | enq t k | enqChosen t _ k | enqHeld t _ k => t :: k.owns.toList
  | enqLinked _ _ k | enqDone _ k => k.owns.toList
  | signalPopped ctx _ t | wakeLocked ctx _ t => t :: ctx.exec.toList
  | signalHeld ctx _ | signalEnd ctx _ | panicked ctx => ctx.exec.toList
  | _ => []

/-- The threads whose lock the CPU holds. -/
def locks : Pc n σ τ → List τ
  | nextLocked t | unlinked t | dispatch t | back t | resumed t | yieldLocked t | enq t _
  | enqChosen t _ _ | enqHeld t _ _ | enqLinked t _ _ | enqDone t _ | waitLocked t _
  | waitPushed t _ | waitUnlocked t | sleeps t | wakeLocked _ _ t | quitLocked t | quitZombie t
  | quitLinked t => [t]
  | _ => []

/-- The thread that the CPU has popped from a queue and not locked yet. -/
def popped : Pc n σ τ → List τ
  | signalPopped _ _ t => [t]
  | _ => []

/-- The thread that the scheduler has picked and not unlinked yet. -/
def picks : Pc n σ τ → Option τ
  | picked t | nextLocked t => some t
  | _ => none

/-- The thread that the CPU is about to put on a run list. -/
def readies : Pc n σ τ → List τ
  | enq t _ | enqChosen t _ _ | enqHeld t _ _ => [t]
  | _ => []

/-- The thread that has enqueued itself and is about to become `SLEEPING`. -/
def drowsy : Pc n σ τ → List τ
  | waitPushed t _ | waitUnlocked t => [t]
  | _ => []

variable {p : Pc n σ τ} {t : τ}

theorem mem_locks_of_drowsy (h : t ∈ p.drowsy) : t ∈ p.locks := by
  cases p <;> simp_all [drowsy, locks]

theorem mem_locks_of_readies (h : t ∈ p.readies) : t ∈ p.locks := by
  cases p <;> simp_all [readies, locks]

theorem mem_owns_of_readies (h : t ∈ p.readies) : t ∈ p.owns := by
  cases p <;> simp_all [readies, owns]

theorem eq_of_drowsy (h : t ∈ p.drowsy) : (∃ s, p = waitPushed t s) ∨ p = waitUnlocked t := by
  cases p <;> simp_all [drowsy]

/-- A CPU has the thread it executes in custody, or holds its lock. -/
theorem mem_owns_or_locks_of_exec (h : p.exec = some t) : t ∈ p.owns ∨ t ∈ p.locks := by
  cases p with
  | enqLinked u cpu k | enqDone u k =>
    cases k <;> simp_all [exec, EnqCont.exec, owns, locks, EnqCont.owns]
  | enq u k | enqChosen u cpu k | enqHeld u cpu k =>
    cases k <;> simp_all [exec, EnqCont.exec, owns, locks, EnqCont.owns]
  | _ => simp_all [exec, owns, locks]

/-- A popped thread is not the one that executes. -/
theorem exec_ne_of_popped (hnd : p.owns.Nodup) (h : t ∈ p.popped) : p.exec ≠ some t := by
  cases p with
  | signalPopped ctx s u =>
    obtain rfl : t = u := by simpa [popped] using h
    cases ctx <;> simp_all [owns, exec, Context.exec, eq_comm]
  | _ => simp [popped] at h

end Pc

/-- What holds of the CPU `c` at the control point `p`; `L` are the lists. -/
structure CpuInv (m : SchedCore n σ τ) (L : SchedList n σ → List τ) (c : Fin n) (p : Pc n σ τ) :
    Prop where
  lock : ∀ t, m.threadLock t = some c ↔ t ∈ p.locks
  own : ∀ t ∈ p.owns, ∀ i, t ∉ L i
  nodup : p.owns.Nodup
  created : ∀ t, m.created t = false → t ∉ p.owns ∧ t ∉ p.locks
  thread : ∀ t, p.exec = some t → m.cpuThread c = some t
  tail : ∀ t, p.picks = some t → ∃ l, L (.run c) = l ++ [t]
  ready : ∀ t ∈ p.readies, m.state t = .runnable
  drowsy : ∀ t ∈ p.drowsy, ∀ d, t ∉ L (.run d)

/-- What holds between the control points of two CPUs: a thread in the custody of the one is not in
that of the other, which has locked it only if the thread has been popped. -/
def Pc.Apart (p p' : Pc n σ τ) : Prop :=
  ∀ t ∈ p.owns, t ∉ p'.owns ∧ (t ∈ p'.locks → t ∈ p.popped)

/-- The invariant of the machine; `L` are the lists. -/
structure SchedInv (m : SchedCore n σ τ) (L : SchedList n σ → List τ) : Prop where
  rings : Rings m.links .head fun i => (L i).map .sched
  cpu : ∀ c, CpuInv m L c (m.pc c)
  apart : ∀ c c', c ≠ c' → (m.pc c).Apart (m.pc c')
  created : ∀ t, m.created t = false → ∀ i, t ∉ L i
  runnable : ∀ d, ∀ t ∈ L (.run d), m.state t = .runnable
  waiting : ∀ s, ∀ t ∈ L (.waiters s), m.state t = .sleeping ∨ ∃ c, t ∈ (m.pc c).drowsy
  order : ∀ d, m.enqueued d = m.dispatched d ++ (L (.run d)).reverse

namespace SchedInv

variable {m m' : SchedCore n σ τ} {L L' : SchedList n σ → List τ} {c : Fin n} {p q : Pc n σ τ}
variable {t u : τ}

/-- The CPU `c` goes to the control point `q`: what holds of it and of each other CPU. -/
private theorem update (hI : SchedInv m L) (hpc : m'.pc = Function.update m.pc c q)
    (hself : CpuInv m' L' c q)
    (hother : ∀ c' ≠ c, CpuInv m' L' c' (m.pc c') ∧ q.Apart (m.pc c') ∧ (m.pc c').Apart q)
    (hrings : Rings m'.links .head fun i => (L' i).map .sched)
    (hcreated : ∀ t, m'.created t = false → ∀ i, t ∉ L' i)
    (hrunnable : ∀ d, ∀ t ∈ L' (.run d), m'.state t = .runnable)
    (hwaiting : ∀ s, ∀ t ∈ L' (.waiters s),
      m'.state t = .sleeping ∨ t ∈ q.drowsy ∨ ∃ c' ≠ c, t ∈ (m.pc c').drowsy)
    (horder : ∀ d, m'.enqueued d = m'.dispatched d ++ (L' (.run d)).reverse) : SchedInv m' L' := by
  refine ⟨hrings, fun c' => ?_, fun c₁ c₂ hne => ?_, hcreated, hrunnable, fun s t ht => ?_, horder⟩
  · rw [hpc]
    by_cases h : c' = c
    · subst h
      rwa [Function.update_self]
    · rw [Function.update_of_ne h]
      exact (hother c' h).1
  · rw [hpc]
    by_cases h₁ : c₁ = c
    · subst h₁
      rw [Function.update_self, Function.update_of_ne hne.symm]
      exact (hother c₂ hne.symm).2.1
    · rw [Function.update_of_ne h₁]
      by_cases h₂ : c₂ = c
      · subst h₂
        rw [Function.update_self]
        exact (hother c₁ h₁).2.2
      · rw [Function.update_of_ne h₂]
        exact hI.apart c₁ c₂ hne
  · refine (hwaiting s t ht).imp_right ?_
    rw [hpc]
    rintro (h | ⟨c', hne, h⟩)
    · exact ⟨c, by rwa [Function.update_self]⟩
    · exact ⟨c', by rwa [Function.update_of_ne hne]⟩

section

variable (hI : SchedInv m L) (hc : m.pc c = p)

include hI hc

/-- A thread in a queue sleeps or is about to, on the CPU `c` or on another one. -/
private theorem waiting_cases {s : σ} (ht : t ∈ L (.waiters s)) :
    m.state t = .sleeping ∨ t ∈ p.drowsy ∨ ∃ c' ≠ c, t ∈ (m.pc c').drowsy := by
  refine (hI.waiting s t ht).imp_right ?_
  rintro ⟨c', h⟩
  by_cases hne : c' = c
  · subst hne
    exact .inl (hc ▸ h)
  · exact .inr ⟨c', hne, h⟩

private theorem self : CpuInv m L c p := hc ▸ hI.cpu c

private theorem apart_self {c' : Fin n} (h : c' ≠ c) :
    p.Apart (m.pc c') ∧ (m.pc c').Apart p :=
  ⟨hc ▸ hI.apart c c' h.symm, hc ▸ hI.apart c' c h⟩

/-- A thread locked by one CPU is not locked by another. -/
private theorem notMem_locks (hu : u ∈ p.locks) {c' : Fin n} (h : c' ≠ c) :
    u ∉ (m.pc c').locks := by
  intro h'
  have h₁ := ((hI.self hc).lock u).mpr hu
  have h₂ := ((hI.cpu c').lock u).mpr h'
  exact h (Option.some.inj (h₂.symm.trans h₁))

/-- A CPU goes on with the same threads in custody and the same locks; it may store the states of
threads in its custody. -/
theorem move (howns : q.owns = p.owns) (hlocks : q.locks = p.locks) (hpopped : q.popped = p.popped)
    (hdrowsy : q.drowsy = p.drowsy)
    {thread : Fin n → Option τ} (hexec : ∀ t, q.exec = some t → thread c = some t)
    (hthread : ∀ c' ≠ c, thread c' = m.cpuThread c')
    {state : τ → TaskState} (hstate : ∀ t ∉ p.owns, state t = m.state t)
    (hpicks : ∀ t, q.picks = some t → ∃ l, L (.run c) = l ++ [t])
    (hreadies : ∀ t ∈ q.readies, state t = .runnable) :
    SchedInv { m with pc := Function.update m.pc c q, cpuThread := thread, state := state } L := by
  have hp := hI.self hc
  have hlisted (i : SchedList n σ) (t : τ) (ht : t ∈ L i) : state t = m.state t :=
    hstate t fun h => hp.own t h i ht
  refine hI.update rfl ?_ (fun c' h => ⟨{ hI.cpu c' with thread := ?_, ready := ?_ }, ?_⟩) hI.rings
    hI.created (fun d t ht => (hlisted _ t ht).trans (hI.runnable d t ht)) (fun s t ht => ?_)
    hI.order
  · exact ⟨hlocks ▸ hp.lock, howns ▸ hp.own, howns ▸ hp.nodup, howns ▸ hlocks ▸ hp.created, hexec,
      hpicks, hreadies, hdrowsy ▸ hp.drowsy⟩
  · exact fun t ht => (hthread c' h).trans ((hI.cpu c').thread t ht)
  · intro t ht
    have hne : t ∉ p.owns := fun hu => ((hI.apart_self hc h).1 t hu).1 (Pc.mem_owns_of_readies ht)
    exact (hstate t hne).trans ((hI.cpu c').ready t ht)
  · simpa only [Pc.Apart, howns, hlocks, hpopped] using hI.apart_self hc h
  · simpa only [hdrowsy, hlisted _ t ht] using hI.waiting_cases hc ht

/-- A CPU goes on, and nothing changes for the threads. -/
theorem goOn (howns : q.owns = p.owns) (hlocks : q.locks = p.locks) (hpopped : q.popped = p.popped)
    (hdrowsy : q.drowsy = p.drowsy) (hexec : q.exec = p.exec) (hpicks : q.picks = none)
    (hreadies : q.readies = p.readies) :
    SchedInv { m with pc := Function.update m.pc c q } L := by
  have hp := hI.self hc
  refine hI.move hc howns hlocks hpopped hdrowsy (fun t ht => hp.thread t (hexec ▸ ht))
    (fun _ _ => rfl) (fun _ _ => rfl) (fun t ht => ?_) fun t ht => hp.ready t (hreadies ▸ ht)
  simp [hpicks] at ht

/-- A CPU takes the lock of a thread that it has in custody or has picked. -/
theorem acquire [DecidableEq τ] (hfree : m.threadLock u = none)
    (hu : u ∈ p.owns ∨ p.picks = some u) (howns : q.owns = p.owns) (hlocks : p.locks = [])
    (hlocks' : q.locks = [u]) (hpopped : ∀ t ∈ p.popped, t = u) (hdrowsy : p.drowsy = [])
    (hdrowsy' : q.drowsy = []) (hexec : q.exec = p.exec)
    (hpicks : ∀ t, q.picks = some t → p.picks = some t) (hreadies : q.readies = []) :
    SchedInv
      { m with
        pc := Function.update m.pc c q
        threadLock := Function.update m.threadLock u (some c) } L := by
  have hp := hI.self hc
  have hunlocked (c' : Fin n) : u ∉ (m.pc c').locks := fun h => by
    simp [((hI.cpu c').lock u).mpr h] at hfree
  have hlisted (hu : p.picks = some u) : u ∈ L (.run c) := by
    obtain ⟨l, hl⟩ := hp.tail u hu
    simp [hl]
  have hcu : m.created u ≠ false := fun h =>
    hu.elim (hp.created u h).1 fun hu => hI.created u h _ (hlisted hu)
  refine hI.update rfl ?_ (fun c' h => ⟨{ hI.cpu c' with lock := fun t => ?_ }, fun t ht => ?_,
    fun t ht => ?_⟩) hI.rings hI.created hI.runnable (fun s t ht => ?_) hI.order
  · refine ⟨fun t => ?_, howns ▸ hp.own, howns ▸ hp.nodup, fun t ht => ?_,
      fun t ht => hp.thread t (hexec ▸ ht), fun t ht => hp.tail t (hpicks t ht), by simp [hreadies],
      by simp [hdrowsy']⟩
    · have := hp.lock t
      by_cases ht : t = u <;> simp_all
    · have htu : t ≠ u := fun e => hcu (e ▸ ht)
      simpa [howns, hlocks', htu] using (hp.created t ht).1
  · by_cases ht : t = u
    · subst ht
      simpa [h.symm] using hunlocked c'
    · simpa [ht] using (hI.cpu c').lock t
  · obtain ⟨hown, hpop⟩ := (hI.apart_self hc h).1 t (howns ▸ ht)
    refine ⟨hown, fun hl => ?_⟩
    obtain rfl := hpopped t (hpop hl)
    exact absurd hl (hunlocked c')
  · -- nobody else has the thread in custody
    refine ⟨howns ▸ ((hI.apart_self hc h).2 t ht).1, fun hl => ?_⟩
    obtain rfl : t = u := by simpa [hlocks'] using hl
    rcases hu with hu | hu
    · exact absurd hu ((hI.apart_self hc h).2 t ht).1
    · exact absurd (hlisted hu) ((hI.cpu c').own t ht _)
  · simpa only [hdrowsy, hdrowsy'] using hI.waiting_cases hc ht

theorem release [DecidableEq τ] (howns : q.owns = p.owns)
    (hlocks : p.locks = [u]) (hlocks' : q.locks = []) (hpopped : q.popped = p.popped)
    (hdrowsy : q.drowsy = p.drowsy) (hexec : q.exec = p.exec) (hpicks : q.picks = none)
    (hreadies : q.readies = []) :
    SchedInv
      { m with
        pc := Function.update m.pc c q
        threadLock := Function.update m.threadLock u none } L := by
  have hp := hI.self hc
  refine hI.update rfl ?_ (fun c' h => ⟨{ hI.cpu c' with lock := fun t => ?_ }, ?_, fun t ht => ?_⟩)
    hI.rings hI.created hI.runnable (fun s t ht => ?_) hI.order
  · refine ⟨fun t => ?_, howns ▸ hp.own, howns ▸ hp.nodup, fun t ht => ?_,
      fun t ht => hp.thread t (hexec ▸ ht), by simp [hpicks], by simp [hreadies],
      hdrowsy ▸ hp.drowsy⟩
    · have := hp.lock t
      by_cases ht : t = u <;> simp_all
    · simpa [howns, hlocks'] using (hp.created t ht).1
  · by_cases ht : t = u
    · subst ht
      simpa using hI.notMem_locks hc (by simp [hlocks]) h
    · simpa [ht] using (hI.cpu c').lock t
  · simpa only [Pc.Apart, howns, hpopped] using (hI.apart_self hc h).1
  · exact ⟨howns ▸ ((hI.apart_self hc h).2 t ht).1, by simp [hlocks']⟩
  · simpa only [hdrowsy] using hI.waiting_cases hc ht

/-- A thread that has enqueued itself becomes `SLEEPING`. -/
theorem sleep [DecidableEq τ] (howns : q.owns = p.owns)
    (hlocks : q.locks = p.locks) (hpopped : q.popped = p.popped) (hdrowsy : p.drowsy = [u])
    (hdrowsy' : q.drowsy = []) (hexec : q.exec = p.exec) (hpicks : q.picks = none)
    (hreadies : q.readies = []) :
    SchedInv
      { m with
        pc := Function.update m.pc c q
        state := Function.update m.state u .sleeping } L := by
  have hp := hI.self hc
  have hu : u ∈ p.drowsy := by simp [hdrowsy]
  refine hI.update rfl ?_ (fun c' h => ⟨{ hI.cpu c' with ready := fun t ht => ?_ }, ?_⟩) hI.rings
    hI.created (fun d t ht => ?_) (fun s t ht => ?_) hI.order
  · exact ⟨hlocks ▸ hp.lock, howns ▸ hp.own, howns ▸ hp.nodup, howns ▸ hlocks ▸ hp.created,
      fun t ht => hp.thread t (hexec ▸ ht), by simp [hpicks], by simp [hreadies],
      by simp [hdrowsy']⟩
  · have hne : t ≠ u := by
      rintro rfl
      exact hI.notMem_locks hc (Pc.mem_locks_of_drowsy hu) h (Pc.mem_locks_of_readies ht)
    simpa [hne] using (hI.cpu c').ready t ht
  · simpa only [Pc.Apart, howns, hlocks, hpopped] using hI.apart_self hc h
  · have hne : t ≠ u := by
      rintro rfl
      exact hp.drowsy t hu d ht
    simpa [hne] using hI.runnable d t ht
  · by_cases htu : t = u
    · simp [htu]
    · simpa [htu, hdrowsy, hdrowsy'] using hI.waiting_cases hc ht

/-- A CPU puts a thread from its custody on the list `i`: on a run list in front, and `RUNNABLE`; on
a queue only to sleep at once. -/
theorem link [DecidableEq σ] {i : SchedList n σ} {l : List τ}
    {links : Links (SchedNode n σ τ)} {enqueued : Fin n → List τ} (howns : p.owns = u :: q.owns)
    (hlocks : q.locks = p.locks) (hpopped : q.popped = p.popped) (hexec : q.exec = p.exec)
    (hpicks : q.picks = none) (hreadies : q.readies = []) (hdrowsy : p.drowsy = [])
    (hmem : ∀ t, t ∈ l ↔ t = u ∨ t ∈ L i)
    (hrings : Rings links .head fun j => (Function.update L i l j).map .sched)
    (hrun : ∀ d, i = .run d →
      l = u :: L i ∧ m.state u = .runnable ∧ u ∈ p.locks ∧ q.drowsy = [])
    (hwait : ∀ s, i = .waiters s → u ∈ q.drowsy) (hdrowsy' : ∀ t ∈ q.drowsy, t = u)
    (horder : ∀ d, enqueued d = m.dispatched d ++ (Function.update L i l (.run d)).reverse) :
    SchedInv { m with pc := Function.update m.pc c q, links := links, enqueued := enqueued }
      (Function.update L i l) := by
  have hp := hI.self hc
  have hu : u ∈ p.owns := by simp [howns]
  have hsub (t : τ) (ht : t ∈ q.owns) : t ∈ p.owns := by simp [howns, ht]
  obtain ⟨hnot, hnd⟩ := List.nodup_cons.mp (howns ▸ hp.nodup)
  have hL (j : SchedList n σ) (t : τ) (ht : t ∈ Function.update L i l j) :
      t ∈ L j ∨ t = u ∧ j = i := by
    by_cases h : j = i
    · subst h
      rw [Function.update_self, hmem] at ht
      tauto
    · exact .inl (by simpa [h] using ht)
  refine hI.update rfl ?_ (fun c' h => ⟨{ hI.cpu c' with
    own := fun t ht j hj => ?_
    tail := fun t ht => ?_
    drowsy := fun t ht d hd => ?_ }, fun t ht => ?_, fun t ht => ?_⟩) hrings
    (fun t ht j hj => ?_) (fun d t ht => ?_) (fun s t ht => ?_) horder
  · refine ⟨hlocks ▸ hp.lock, fun t ht j hj => ?_, hnd, fun t ht => ?_,
      fun t ht => hp.thread t (hexec ▸ ht), by simp [hpicks], by simp [hreadies],
      fun t ht d hd => ?_⟩
    · rcases hL j t hj with hj | ⟨rfl, -⟩
      · exact hp.own t (hsub t ht) j hj
      · exact hnot ht
    · exact ⟨fun h => (hp.created t ht).1 (hsub t h), hlocks ▸ (hp.created t ht).2⟩
    · obtain rfl := hdrowsy' t ht
      rcases hL _ t hd with hd | ⟨-, hi⟩
      · exact hp.own t hu _ hd
      · simp [(hrun d hi.symm).2.2.2] at ht
  · rcases hL j t hj with hj | ⟨rfl, -⟩
    · exact (hI.cpu c').own t ht j hj
    · exact ((hI.apart_self hc h).1 t hu).1 ht
  · obtain ⟨l₀, hl₀⟩ := (hI.cpu c').tail t ht
    by_cases hi : i = .run c'
    · subst hi
      refine ⟨u :: l₀, ?_⟩
      rw [Function.update_self, (hrun c' rfl).1, hl₀, List.cons_append]
    · exact ⟨l₀, by rwa [Function.update_of_ne (Ne.symm hi)]⟩
  · rcases hL _ t hd with hd | ⟨rfl, hi⟩
    · exact (hI.cpu c').drowsy t ht d hd
    · exact hI.notMem_locks hc (hrun d hi.symm).2.2.1 h (Pc.mem_locks_of_drowsy ht)
  · exact hpopped ▸ (hI.apart_self hc h).1 t (hsub t ht)
  · obtain ⟨hown, hlock⟩ := (hI.apart_self hc h).2 t ht
    exact ⟨fun ht => hown (hsub t ht), hlocks ▸ hlock⟩
  · rcases hL j t hj with hj | ⟨rfl, -⟩
    · exact hI.created t ht j hj
    · exact (hp.created t ht).1 hu
  · rcases hL _ t ht with ht | ⟨rfl, hi⟩
    · exact hI.runnable d t ht
    · exact (hrun d hi.symm).2.1
  · rcases hL _ t ht with ht | ⟨rfl, hi⟩
    · refine (hI.waiting_cases hc ht).imp_right ?_
      simp only [hdrowsy, List.not_mem_nil, false_or]
      exact .inr
    · exact .inr (.inl (hwait s hi.symm))

/-- A CPU takes a thread off the list `i` into its custody: a scheduler from its own run list, with
the lock of the thread, or a signaller from a queue. -/
theorem unlink [DecidableEq σ] {i : SchedList n σ} {l : List τ}
    {links : Links (SchedNode n σ τ)} {dispatched : Fin n → List τ} (howns : q.owns = u :: p.owns)
    (hlocks : q.locks = p.locks) (hpopped : p.popped = []) (hguard : u ∈ p.locks ∨ u ∈ q.popped)
    (hexec : q.exec = p.exec) (hpicks : q.picks = none) (hreadies : q.readies = [])
    (hdrowsy : q.drowsy = p.drowsy) (hmem : ∀ t, t ∈ L i ↔ t = u ∨ t ∈ l) (hnot : u ∉ l)
    (hrings : Rings links .head fun j => (Function.update L i l j).map .sched)
    (hrun : ∀ c' ≠ c, i ≠ .run c')
    (horder : ∀ d, m.enqueued d = dispatched d ++ (Function.update L i l (.run d)).reverse) :
    SchedInv { m with pc := Function.update m.pc c q, links := links, dispatched := dispatched }
      (Function.update L i l) := by
  have hp := hI.self hc
  have hu : u ∈ L i := (hmem u).mpr (.inl rfl)
  have hL (j : SchedList n σ) (t : τ) (ht : t ∈ Function.update L i l j) : t ∈ L j ∧ t ≠ u := by
    by_cases h : j = i
    · subst h
      rw [Function.update_self] at ht
      exact ⟨(hmem t).mpr (.inr ht), fun e => hnot (e ▸ ht)⟩
    · rw [Function.update_of_ne h] at ht
      refine ⟨ht, ?_⟩
      rintro rfl
      exact hI.rings.disjoint j i h (.sched t) (by simpa using ht) (by simpa using hu)
  have hnotOwn : u ∉ p.owns := fun h => hp.own u h i hu
  refine hI.update rfl ?_ (fun c' h => ⟨{ hI.cpu c' with
    own := fun t ht j hj => (hI.cpu c').own t ht j (hL j t hj).1
    tail := fun t ht => ?_
    drowsy := fun t ht d hd => (hI.cpu c').drowsy t ht d (hL _ t hd).1 }, fun t ht => ?_,
    fun t ht => ?_⟩) hrings (fun t ht j hj => hI.created t ht j (hL j t hj).1)
    (fun d t ht => hI.runnable d t (hL _ t ht).1) (fun s t ht => ?_) horder
  · refine ⟨hlocks ▸ hp.lock, fun t ht j hj => ?_, ?_, fun t ht => ⟨fun h => ?_, ?_⟩,
      fun t ht => hp.thread t (hexec ▸ ht), by simp [hpicks], by simp [hreadies],
      fun t ht d hd => hp.drowsy t (hdrowsy ▸ ht) d (hL _ t hd).1⟩
    · rw [howns, List.mem_cons] at ht
      exact ht.elim (hL j t hj).2 fun ht => hp.own t ht j (hL j t hj).1
    · rw [howns]
      exact List.nodup_cons.mpr ⟨hnotOwn, hp.nodup⟩
    · rw [howns, List.mem_cons] at h
      exact h.elim (fun e => hI.created t ht i (e ▸ hu)) (hp.created t ht).1
    · exact hlocks ▸ (hp.created t ht).2
  · rw [Function.update_of_ne (hrun c' h).symm]
    exact (hI.cpu c').tail t ht
  · rcases List.mem_cons.mp (howns ▸ ht) with rfl | ht
    · exact ⟨fun ho => (hI.cpu c').own t ho i hu,
        fun hl => hguard.resolve_left fun hg => hI.notMem_locks hc hg h hl⟩
    · obtain ⟨hown, hpop⟩ := (hI.apart_self hc h).1 t ht
      exact ⟨hown, fun hl => by simpa [hpopped] using hpop hl⟩
  · obtain ⟨hown, hpop⟩ := (hI.apart_self hc h).2 t ht
    rw [howns, hlocks, List.mem_cons]
    exact ⟨fun ht' => ht'.elim (fun e => (hI.cpu c').own t ht i (e ▸ hu)) hown, hpop⟩
  · simpa only [hdrowsy] using hI.waiting_cases hc (hL _ t ht).1

theorem create [DecidableEq σ] [DecidableEq τ] (hnew : m.created u = false)
    (howns : q.owns = u :: p.owns) (hlocks : p.locks = []) (hlocks' : q.locks = [u])
    (hpopped : q.popped = p.popped) (hexec : q.exec = p.exec) (hpicks : q.picks = none)
    (hreadies : q.readies = []) (hdrowsy : q.drowsy = p.drowsy) :
    SchedInv
      { m with
        pc := Function.update m.pc c q
        threadLock := Function.update m.threadLock u (some c)
        links := initListHead m.links (.sched u)
        created := Function.update m.created u true } L := by
  have hp := hI.self hc
  have hLu := hI.created u hnew
  have hold (t : τ) (ht : Function.update m.created u true t = false) :
      t ≠ u ∧ m.created t = false := by
    by_cases h : t = u
    · simp [h] at ht
    · exact ⟨h, by simpa [h] using ht⟩
  refine hI.update rfl ?_ (fun c' h => ⟨{ hI.cpu c' with
    lock := fun t => ?_
    created := fun t ht => (hI.cpu c').created t (hold t ht).2 }, fun t ht => ?_, fun t ht => ?_⟩)
    (hI.rings.init fun i => by simpa using hLu i) (fun t ht => hI.created t (hold t ht).2)
    hI.runnable (fun s t ht => ?_) hI.order
  · refine ⟨fun t => ?_, fun t ht => ?_, ?_, fun t ht => ?_,
      fun t ht => hp.thread t (hexec ▸ ht), by simp [hpicks], by simp [hreadies],
      hdrowsy ▸ hp.drowsy⟩
    · have := hp.lock t
      by_cases ht : t = u <;> simp_all
    · rcases List.mem_cons.mp (howns ▸ ht) with rfl | ht
      · exact hLu
      · exact hp.own t ht
    · rw [howns]
      exact List.nodup_cons.mpr ⟨(hp.created u hnew).1, hp.nodup⟩
    · obtain ⟨hne, ht⟩ := hold t ht
      simpa [howns, hlocks', hne] using (hp.created t ht).1
  · by_cases ht : t = u
    · subst ht
      simpa [h.symm] using ((hI.cpu c').created t hnew).2
    · simpa [ht] using (hI.cpu c').lock t
  · rw [hpopped]
    rcases List.mem_cons.mp (howns ▸ ht) with rfl | ht
    · exact ⟨((hI.cpu c').created t hnew).1, fun hl => absurd hl ((hI.cpu c').created t hnew).2⟩
    · exact (hI.apart_self hc h).1 t ht
  · have hne : t ≠ u := by
      rintro rfl
      exact ((hI.cpu c').created t hnew).1 ht
    simpa [howns, hlocks', hne] using ((hI.apart_self hc h).2 t ht).1
  · simpa only [hdrowsy] using hI.waiting_cases hc ht

end

end SchedInv

end RiscvLab.Kernel
