import RiscvLab.Kernel.SchedInvariant

/-!
# Every thread is in one place

Each step of the machine is one of the kinds that the invariant is preserved by, so that it holds in
every state that is reached after `sched_init`, on any number of CPUs.

## Main results

* `onePlace_of_reachable` : no thread executes on two CPUs or is linked in two lists, a thread on a
  run list is `RUNNABLE`, one in a queue is `SLEEPING` or holds its own lock and is about to be, and
  run lists are dispatched in the order in which they were filled.

Source: `kernel/sched.c`; `kernel/proc.c`; `lib/semaphore.c`.
-/

namespace RiscvLab.Kernel

open Library

variable {n : ℕ} {σ τ : Type*} [DecidableEq σ] [DecidableEq τ]

namespace SchedInv

variable {m : SchedCore n σ τ} {L : SchedList n σ → List τ} {c : Fin n} {t : τ}

variable (hI : SchedInv m L)

include hI

/-- `pick_next_task` finds the thread at the end of the run list. -/
theorem pickNextTask_eq {fuel : ℕ} (h : pickNextTask m c fuel = some (some t)) :
    ∃ l, L (.run c) = l ++ [t] := by
  rcases List.eq_nil_or_concat (L (.run c)) with hL | ⟨l, u, hL⟩
  · have hempty : listEmpty m.links (.head (.run c)) = true :=
      (hI.rings.empty_iff _).mpr (by simp [hL])
    simp [pickNextTask, hempty] at h
  · have hempty : listEmpty m.links (.head (.run c)) = false := by
      simpa [hL] using (hI.rings.empty_iff (.run c)).not
    have hprev : m.links.prev (.head (.run c)) = .sched u := by
      have hseg := (hI.rings.ring (.run c)).flip.seg
      rw [hL, List.map_concat, List.concat_eq_append, List.reverse_append] at hseg
      exact hseg.1.1
    have hstate : m.state u = .runnable := hI.runnable c u (by simp [hL])
    rw [pickNextTask, hempty, hprev] at h
    cases fuel with
    | zero => simp [pickLoop] at h
    | succ fuel =>
      obtain rfl : u = t := by simpa [pickLoop, hstate] using h
      exact ⟨l, by simp [hL]⟩

omit [DecidableEq σ] [DecidableEq τ] in
/-- The thread executed is the one that `myproc` returns. -/
theorem myproc_eq {p : Pc n σ τ} (hc : m.pc c = p) (ht : p.exec = some t) {u : τ}
    (hu : m.cpuThread c = some u) : u = t := by
  have := (hI.cpu c).thread t (by rw [hc, ht])
  rw [hu] at this
  exact Option.some.inj this

omit [DecidableEq σ] [DecidableEq τ] in
/-- A thread that holds its own lock switches to the scheduler. -/
theorem switchOut {p : Pc n σ τ} (hc : m.pc c = p) (howns : p.owns = []) (hlocks : p.locks = [t])
    (hpopped : p.popped = []) (hdrowsy : p.drowsy = []) :
    SchedInv { m with pc := Function.update m.pc c (.back t) } L :=
  hI.move (q := .back t) hc howns.symm hlocks.symm hpopped.symm hdrowsy.symm
    (by rintro _ ⟨⟩)
    (fun _ _ => rfl) (fun _ _ => rfl) (by rintro _ ⟨⟩) (by rintro _ ⟨⟩)

theorem unlinkNext (h : m.pc c = .nextLocked t) :
    SchedInv
      { m with
        pc := Function.update m.pc c (.unlinked t)
        links := listDel m.links (.sched t)
        dispatched := Function.update m.dispatched c (m.dispatched c ++ [t]) }
      (Function.update L (.run c) (L (.run c)).dropLast) := by
  obtain ⟨l, hl⟩ := (hI.cpu c).tail t (by rw [h]; rfl)
  have hnd : (l ++ [t]).Nodup := by
    have := (List.nodup_cons.mp (hI.rings.ring (.run c)).nodup).2
    rw [hl] at this
    exact .of_map _ this
  have hrings := hI.rings.del_map hl
  rw [List.append_nil] at hrings
  rw [show (L (.run c)).dropLast = l by simp [hl]]
  refine hI.unlink (q := .unlinked t) h rfl rfl rfl (.inl (by simp [Pc.locks])) rfl rfl rfl rfl
    (fun u => by simp [hl, or_comm]) (fun ht => ?_) hrings (by simp [eq_comm]) fun d => ?_
  · exact (List.nodup_append.mp hnd).2.2 t ht t (by simp) rfl
  · have horder := hI.order d
    by_cases hd : d = c
    · subst hd
      simpa [hl] using horder
    · simpa [hd] using horder

theorem enqLink {cpu : Fin n} {k : EnqCont σ τ} (h : m.pc c = .enqHeld t cpu k) :
    SchedInv
      { m with
        pc := Function.update m.pc c (.enqLinked t cpu k)
        links := listAddHead m.links (.sched t) (.head (.run cpu))
        enqueued := Function.update m.enqueued cpu (m.enqueued cpu ++ [t]) }
      (Function.update L (.run cpu) (t :: L (.run cpu))) := by
  have hown := (hI.cpu c).own t (by simp [h, Pc.owns])
  refine hI.link (q := .enqLinked t cpu k) h rfl rfl rfl rfl rfl rfl rfl (by simp)
    (hI.rings.addHead_map _ fun i => by simpa using hown i) (fun d _ => ⟨rfl, ?_, ?_, rfl⟩)
    (by rintro _ ⟨⟩) (by rintro _ ⟨⟩) fun d => ?_
  · exact (hI.cpu c).ready t (by simp [h, Pc.readies])
  · simp [Pc.locks]
  · have horder := hI.order d
    by_cases hd : d = cpu
    · subst hd
      simp [horder]
    · simpa [hd] using horder

theorem waitPush {s : σ} (h : m.pc c = .waitLocked t s) :
    SchedInv
      { m with
        pc := Function.update m.pc c (.waitPushed t s)
        links := listAddTail m.links (.sched t) (.head (.waiters s)) }
      (Function.update L (.waiters s) (L (.waiters s) ++ [t])) := by
  have hown := (hI.cpu c).own t (by simp [h, Pc.owns])
  refine hI.link (q := .waitPushed t s) h rfl rfl rfl rfl rfl rfl rfl (by simp [or_comm])
    (hI.rings.addTail_map _ fun i => by simpa using hown i) (by rintro _ ⟨⟩)
    (fun _ _ => by simp [Pc.drowsy]) (fun u hu => by simpa [Pc.drowsy] using hu) fun d => ?_
  simpa using hI.order d

theorem quitLink (h : m.pc c = .quitZombie t) :
    SchedInv
      { m with
        pc := Function.update m.pc c (.quitLinked t)
        links := listAddTail m.links (.sched t) (.head (.out c)) }
      (Function.update L (.out c) (L (.out c) ++ [t])) := by
  have hown := (hI.cpu c).own t (by simp [h, Pc.owns])
  refine hI.link (q := .quitLinked t) h rfl rfl rfl rfl rfl rfl rfl (by simp [or_comm])
    (hI.rings.addTail_map _ fun i => by simpa using hown i) (by rintro _ ⟨⟩)
    (by rintro _ ⟨⟩) (by rintro _ ⟨⟩) fun d => ?_
  simpa using hI.order d

theorem signalPop {ctx : Context τ} {s : σ} {size size' : BitVec 32}
    {links : Links (SchedNode n σ τ)} (h : m.pc c = .signalHeld ctx s)
    (hp : fifoPop size m.links (.head (.waiters s)) = (some (.sched t), size', links)) :
    ∃ L', SchedInv
      { m with pc := Function.update m.pc c (.signalPopped ctx s t), links := links } L' := by
  cases hL : L (.waiters s) with
  | nil =>
    have hempty : listEmpty m.links (.head (.waiters s)) = true :=
      (hI.rings.empty_iff _).mpr (by simp [hL])
    simp [fifoPop, hempty] at hp
  | cons u l =>
    have hempty : listEmpty m.links (.head (.waiters s)) = false := by
      simpa [hL] using (hI.rings.empty_iff (.waiters s)).not
    obtain ⟨hpop, hrings⟩ := hI.rings.pop_map hL
    obtain ⟨rfl, -, rfl⟩ : u = t ∧ size - 1 = size' ∧ _ = links := by
      simpa [fifoPop, hempty, hpop] using hp
    have hnd : (u :: l).Nodup := by
      have := (List.nodup_cons.mp (hI.rings.ring (.waiters s)).nodup).2
      rw [hL] at this
      exact .of_map _ this
    refine ⟨_, hI.unlink (q := .signalPopped ctx s u) h rfl rfl rfl (.inr (by simp [Pc.popped])) rfl
      rfl rfl rfl (fun v => by simp [hL]) (List.nodup_cons.mp hnd).1 hrings (by simp) fun d => ?_⟩
    simpa using hI.order d

end SchedInv

variable [NeZero n] {m m' : Machine n σ τ} {c : Fin n}

theorem SchedInv.step (hI : ∃ L, SchedInv m.toSchedCore L) (h : Step m c m') :
    ∃ L, SchedInv m'.toSchedCore L := by
  obtain ⟨L, hI⟩ := hI
  cases h with
  | lockRun h _ => exact ⟨L, hI.goOn h rfl rfl rfl rfl rfl rfl rfl⟩
  | pickNone h _ => exact ⟨L, hI.goOn h rfl rfl rfl rfl rfl rfl rfl⟩
  | @pickSome _ t h hp =>
    refine ⟨L, hI.move (q := .picked t) h rfl rfl rfl rfl (by rintro _ ⟨⟩) (fun _ _ => rfl)
      (fun _ _ => rfl) (fun u hu => ?_) (by rintro _ ⟨⟩)⟩
    obtain rfl : t = u := by simpa [Pc.picks] using hu
    exact hI.pickNextTask_eq hp
  | @lockNext t h hl =>
    exact ⟨L, hI.acquire (q := .nextLocked t) h hl (.inr rfl) rfl rfl rfl (by simp [Pc.popped]) rfl
      rfl rfl (fun _ ht => ht) rfl⟩
  | @unlinkNext t h => exact ⟨_, hI.unlinkNext h⟩
  | @unlockRun t h => exact ⟨L, hI.goOn (q := .dispatch t) h rfl rfl rfl rfl rfl rfl rfl⟩
  | @swtchTo t h =>
    refine ⟨L, hI.move (q := .resumed t) h rfl rfl rfl rfl (fun u hu => ?_) (fun c' hc' => ?_)
      (fun u hu => ?_) (by rintro _ ⟨⟩) (by rintro _ ⟨⟩)⟩
    · simpa [Pc.exec] using hu
    · simp [hc']
    · have : u ≠ t := by simpa [Pc.owns] using hu
      simp [this]
  | @unlockNext t h => exact ⟨L, hI.release (q := .backUnlocked) h rfl rfl rfl rfl rfl rfl rfl rfl⟩
  | clearThread h =>
    refine ⟨L, hI.move (q := .pick) h rfl rfl rfl rfl (by rintro _ ⟨⟩) (fun c' hc' => ?_)
      (fun _ _ => rfl) (by rintro _ ⟨⟩) (by rintro _ ⟨⟩)⟩
    simp [hc']
  | @unlockSelf t h => exact ⟨L, hI.release (q := .runs t) h rfl rfl rfl rfl rfl rfl rfl rfl⟩
  | @yieldLock t u h hu hl =>
    obtain rfl := hI.myproc_eq h rfl hu
    exact ⟨L, hI.acquire (q := .yieldLocked u) h hl (.inl (by simp [Pc.owns])) rfl rfl rfl
      (by simp [Pc.popped]) rfl rfl rfl (by rintro _ ⟨⟩) rfl⟩
  | @yieldRunnable t h =>
    refine ⟨L, hI.move (q := .enq t .yield) h rfl rfl rfl rfl (fun u hu => ?_) (fun _ _ => rfl)
      (fun u hu => ?_) (by rintro _ ⟨⟩) fun u hu => ?_⟩
    · exact (hI.cpu c).thread u (by rw [h]; exact hu)
    · have : u ≠ t := by simpa [Pc.owns] using hu
      simp [this]
    · obtain rfl : u = t := by simpa [Pc.readies] using hu
      simp
  | @yieldSwtch t h => exact ⟨L, hI.switchOut h rfl rfl rfl rfl⟩
  | @enqChoose t k h =>
    exact ⟨L, hI.goOn (q := .enqChosen t (chooseCpu m.loadCpuId (m.affinity t)).1 k) h rfl rfl rfl
      rfl rfl rfl rfl⟩
  | @enqLock t cpu k h _ => exact ⟨L, hI.goOn (q := .enqHeld t cpu k) h rfl rfl rfl rfl rfl rfl rfl⟩
  | @enqLink t cpu k h => exact ⟨_, hI.enqLink h⟩
  | @enqUnlock t cpu k h => exact ⟨L, hI.goOn (q := .enqDone t k) h rfl rfl rfl rfl rfl rfl rfl⟩
  | @wait t s h _ =>
    refine ⟨L, hI.goOn h ?_ ?_ ?_ ?_ ?_ ?_ ?_⟩ <;> split_ifs <;> rfl
  | @waitReturn t s h => exact ⟨L, hI.goOn (q := .runs t) h rfl rfl rfl rfl rfl rfl rfl⟩
  | @waitLock t u s h hu hl =>
    obtain rfl := hI.myproc_eq h rfl hu
    exact ⟨L, hI.acquire (q := .waitLocked u s) h hl (.inl (by simp [Pc.owns])) rfl rfl rfl
      (by simp [Pc.popped]) rfl rfl rfl (by rintro _ ⟨⟩) rfl⟩
  | @waitPush t s h => exact ⟨_, hI.waitPush h⟩
  | @waitUnlock t s h => exact ⟨L, hI.goOn (q := .waitUnlocked t) h rfl rfl rfl rfl rfl rfl rfl⟩
  | @waitSleep t h =>
    exact ⟨L, hI.sleep (q := .sleeps t) h rfl rfl rfl rfl rfl rfl rfl rfl⟩
  | @waitSwtch t h => exact ⟨L, hI.switchOut h rfl rfl rfl rfl⟩
  | @signal ctx s h _ =>
    refine ⟨L, hI.goOn h ?_ ?_ ?_ ?_ ?_ ?_ ?_⟩ <;> cases ctx <;> split_ifs <;> rfl
  | signalPop h hp => exact hI.signalPop h hp
  | @signalPanic ctx s h _ =>
    exact ⟨L, hI.goOn (q := .panicked ctx) h rfl rfl rfl rfl rfl rfl rfl⟩
  | @wakeLock ctx s t h hl =>
    exact ⟨L, hI.acquire (q := .wakeLocked ctx (some s) t) h hl (.inl (by simp [Pc.owns])) rfl rfl
      rfl (by simp [Pc.popped]) rfl rfl rfl (by rintro _ ⟨⟩) rfl⟩
  | @wakeRunnable ctx s t h =>
    refine ⟨L, hI.move (q := .enq t (.wakeup ctx s)) h rfl rfl rfl rfl (fun u hu => ?_)
      (fun _ _ => rfl) (fun u hu => ?_) (by rintro _ ⟨⟩) fun u hu => ?_⟩
    · exact (hI.cpu c).thread u (by rw [h]; exact hu)
    · have : u ≠ t := fun e => hu (by simp [Pc.owns, e])
      simp [this]
    · obtain rfl : u = t := by simpa [Pc.readies] using hu
      simp
  | @wakeUnlock ctx s t h =>
    refine ⟨L, hI.release h ?_ rfl ?_ ?_ ?_ ?_ ?_ ?_⟩ <;> cases ctx <;> cases s <;> rfl
  | @signalReturn ctx s h =>
    refine ⟨L, hI.goOn h ?_ ?_ ?_ ?_ ?_ ?_ ?_⟩ <;> cases ctx <;> rfl
  | @create ctx t aff h ht =>
    refine ⟨L, hI.create (q := .wakeLocked ctx none t) h ht ?_ ?_ rfl ?_ ?_ rfl rfl ?_⟩ <;>
      cases ctx <;> rfl
  | @quitLock t u h hu hl =>
    obtain rfl := hI.myproc_eq h rfl hu
    exact ⟨L, hI.acquire (q := .quitLocked u) h hl (.inl (by simp [Pc.owns])) rfl rfl rfl
      (by simp [Pc.popped]) rfl rfl rfl (by rintro _ ⟨⟩) rfl⟩
  | @quitState t h =>
    refine ⟨L, hI.move (q := .quitZombie t) h rfl rfl rfl rfl (fun u hu => ?_) (fun _ _ => rfl)
      (fun u hu => ?_) (by rintro _ ⟨⟩) (by rintro _ ⟨⟩)⟩
    · exact (hI.cpu c).thread u (by rw [h]; exact hu)
    · have : u ≠ t := by simpa [Pc.owns] using hu
      simp [this]
  | @quitLink t h => exact ⟨_, hI.quitLink h⟩
  | @quitSwtch t h => exact ⟨L, hI.switchOut h rfl rfl rfl rfl⟩

theorem SchedInv.start (h : m.Started) : SchedInv m.toSchedCore fun _ => [] := by
  have hself (i : SchedList n σ) :
      m.links.next (.head i) = .head i ∧ m.links.prev (.head i) = .head i := by
    have hi : initListHead m.links (.head i) = m.links := by
      cases i with
      | run c => exact h.run c
      | out c => exact h.out c
      | waiters s => exact h.waiters s
    rw [← hi]
    simp [initListHead_next, initListHead_prev]
  refine ⟨⟨fun i => ⟨by simp, hself i⟩, fun i j hij => by simpa using hij⟩,
    fun c => ⟨?_, ?_, ?_, ?_, ?_, ?_, ?_, ?_⟩, ?_, by simp, by simp, by simp, ?_⟩ <;>
  simp [h.pc, h.threadLock, h.enqueued, h.dispatched, Pc.Apart, Pc.locks, Pc.owns, Pc.exec,
    Pc.picks, Pc.readies, Pc.drowsy]

theorem exists_schedInv_of_reachable (h : Reachable Machine.Started Step m) :
    ∃ L, SchedInv m.toSchedCore L :=
  h.invariant (P := fun m => ∃ L, SchedInv m.toSchedCore L) (fun _ h => ⟨_, .start h⟩)
    fun _ _ _ hI hs => SchedInv.step hI hs

/-- What holds of the threads in a state of the machine. -/
structure OnePlace (m : Machine n σ τ) : Prop where
  /-- No thread executes on two CPUs. -/
  exec : ∀ c c' t, (m.pc c).exec = some t → (m.pc c').exec = some t → c = c'
  /-- Every list is well linked, without repetition. -/
  ring : ∀ i, ∃ l : List τ, IsRing m.links (.head i) (l.map .sched)
  /-- No thread is linked in two lists. -/
  linked : ∀ i j t, OnRing m.links (.head i) (.sched t) → OnRing m.links (.head j) (.sched t) →
    i = j
  runnable : ∀ c t, OnRing m.links (.head (.run c)) (.sched t) → m.state t = .runnable
  /-- A thread in a queue sleeps, or is about to sleep and still holds its own lock. -/
  waiting : ∀ s t, OnRing m.links (.head (.waiters s)) (.sched t) → m.state t = .sleeping ∨
    ∃ c, m.threadLock t = some c ∧ ((∃ s, m.pc c = .waitPushed t s) ∨ m.pc c = .waitUnlocked t)
  /-- What was enqueued is what was dispatched, and then what is on the list, from its end. -/
  order : ∀ c, ∃ l : List τ, IsRing m.links (.head (.run c)) (l.map .sched) ∧
    m.enqueued c = m.dispatched c ++ l.reverse

omit [NeZero n] [DecidableEq σ] [DecidableEq τ] in
theorem SchedInv.onePlace {L : SchedList n σ → List τ} (hI : SchedInv m.toSchedCore L) :
    OnePlace m := by
  have hmem (i : SchedList n σ) (t : τ) : OnRing m.links (.head i) (.sched t) ↔ t ∈ L i := by
    rw [(hI.rings.ring i).onRing_iff]
    simp
  refine ⟨fun c c' t h h' => ?_, fun i => ⟨L i, hI.rings.ring i⟩, fun i j t h h' => ?_,
    fun c t h => hI.runnable c t ((hmem _ t).mp h), fun s t h => ?_,
    fun c => ⟨L (.run c), hI.rings.ring _, hI.order c⟩⟩
  · -- two CPUs that execute a thread would share its custody, its lock, or have popped it
    by_contra hne
    have hcase (c c' : Fin n) (hne : c ≠ c') (h : (m.pc c).exec = some t)
        (hown : t ∈ (m.pc c).owns) (hlock : t ∈ (m.pc c').locks) : False :=
      Pc.exec_ne_of_popped (hI.cpu c).nodup ((hI.apart c c' hne t hown).2 hlock) h
    rcases Pc.mem_owns_or_locks_of_exec h with ho | hl <;>
      rcases Pc.mem_owns_or_locks_of_exec h' with ho' | hl'
    · exact (hI.apart c c' hne t ho).1 ho'
    · exact hcase c c' hne h ho hl'
    · exact hcase c' c (Ne.symm hne) h' ho' hl
    · have := (((hI.cpu c).lock t).mpr hl).symm.trans (((hI.cpu c').lock t).mpr hl')
      exact hne (Option.some.inj this)
  · by_contra hne
    rw [hmem] at h h'
    exact hI.rings.disjoint i j hne (.sched t) (by simpa using h) (by simpa using h')
  · rcases hI.waiting s t ((hmem _ t).mp h) with h | ⟨c, h⟩
    · exact .inl h
    · exact .inr ⟨c, ((hI.cpu c).lock t).mpr (Pc.mem_locks_of_drowsy h), Pc.eq_of_drowsy h⟩

/-- In every state that a run from `sched_init` on reaches, a thread executes on one CPU at most and
is on one list at most. It is runnable if this is a run list, and in a queue of waiters it sleeps or
is about to. -/
theorem onePlace_of_reachable (h : Reachable Machine.Started Step m) : OnePlace m := by
  obtain ⟨L, hI⟩ := exists_schedInv_of_reachable h
  exact hI.onePlace

/-- The machine after `sched_init`, with semaphores at zero. -/
def Machine.start : Machine n σ τ :=
  { pc := fun _ => .pick
    threadLock := fun _ => none
    links := Links.isolated
    state := fun _ => .unused
    cpuThread := fun _ => none
    created := fun _ => false
    enqueued := fun _ => []
    dispatched := fun _ => []
    listLock := fun _ => none
    semLock := fun _ => none
    sem := fun _ => ⟨0, 0⟩
    affinity := fun _ => none
    loadCpuId := -1 }

theorem Machine.started_start : (Machine.start : Machine n σ τ).Started := by
  have hlinks (i : SchedList n σ) :
      initListHead Links.isolated (.head i) = (Links.isolated : Links (SchedNode n σ τ)) := by
    ext x <;> simp [initListHead_next, initListHead_prev, Links.isolated, eq_comm]
  exact ⟨fun _ => rfl, fun _ => rfl, fun _ => rfl, fun _ => rfl, fun _ => hlinks _,
    fun _ => hlinks _, fun _ => hlinks _, fun _ => rfl, fun _ => rfl, rfl, fun _ => rfl,
    fun _ => rfl⟩

/-- CPU 0 creates a thread for CPU 1, which picks it before its lock is free, and then runs it. -/
theorem onePlace_two_cpus : ∃ m : Machine 2 Unit Unit, (m.pc 1).exec = some () ∧ OnePlace m := by
  have h₀ : Reachable Machine.Started Step (Machine.start : Machine 2 Unit Unit) :=
    .start Machine.started_start
  have h₁ := h₀.next (@Step.create _ _ _ _ _ _ _ 0 .scheduler () (some 1) rfl rfl)
  have h₂ := h₁.next (Step.wakeRunnable (c := 0) rfl)
  have h₃ := h₂.next (Step.enqChoose (c := 0) rfl)
  have h₄ := h₃.next (Step.enqLock (c := 0) rfl rfl)
  have h₅ := h₄.next (Step.enqLink (c := 0) rfl)
  have h₆ := h₅.next (Step.enqUnlock (c := 0) rfl)
  have h₇ := h₆.next (Step.lockRun (c := 1) rfl rfl)
  have h₈ := h₇.next (@Step.pickSome _ _ _ _ _ _ _ 1 1 () rfl rfl)
  have h₉ := h₈.next (Step.wakeUnlock (c := 0) rfl)
  have h₁₀ := h₉.next (Step.lockNext (c := 1) rfl rfl)
  have h₁₁ := h₁₀.next (Step.unlinkNext (c := 1) rfl)
  have h₁₂ := h₁₁.next (Step.unlockRun (c := 1) rfl)
  have h₁₃ := h₁₂.next (Step.swtchTo (c := 1) rfl)
  exact ⟨_, rfl, onePlace_of_reachable h₁₃⟩

end RiscvLab.Kernel
