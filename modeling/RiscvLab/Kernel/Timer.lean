import RiscvLab.Lib.ListSequence
import RiscvLab.Library.Int32
import RiscvLab.Library.Reachable
import RiscvLab.Library.Spacing

/-!
# Timers

Each CPU has a queue of timers. `timer_try_wake` goes through the queue of its CPU, wakes the timers
that are due, and takes a timer off and frees it when its count has come to zero. The loop reads the
next timer before it treats the current one, so that it neither skips nor repeats a timer.

A timer is due when `sys_ticks >= init_time + during_time`. The sum is one of 64-bit words. At the
creation of a timer it does not wrap around, but it can do so when a firing has set `init_time` to a
later tick: then the timer fires at the next pass, too early (`exists_early_timer`). This is the
only way in which the timers go wrong (`timersCorrect_iff_noWrap`).

`work_queue_push` and `kthread_create`, which `timer_wake` calls, do not touch the queue; what it
does is recorded as an event. During a pass `sys_ticks` has one value.

## Main definitions

* `timerTryWake`, `timerCreate`
* `TimerHist` : what has happened to a timer since its creation.
* `TimerSpec`, `TimersCorrect` : the timers fire when they should.
* `NoWrap` : no sum of a timer on the queue wraps around.

## Main results

* `timerTryWakeLoop_eq` : a pass treats each timer of the queue once.
* `Follows.pass` : what a pass does to one timer.
* `timersCorrect_iff_noWrap`

Source: `kernel/timer.c`, lines 22–132; `include/core/timer.h`; `include/lib/list.h`, lines 44–48.
-/

namespace RiscvLab.Kernel

open Library

/-- The list nodes: the head of the queue, and the nodes of the timers. -/
inductive TimerNode (ω : Type*)
  | queue
  | timer (t : ω)
  deriving DecidableEq

/-- `timer_t`. -/
structure Timer where
  initTime : BitVec 64
  duringTime : BitVec 64
  count : BitVec 32
  block : BitVec 32

/-- The queue of a CPU, the memory of the timers and `sys_ticks`. -/
structure TimerState (ω : Type*) where
  links : Links (TimerNode ω)
  timer : ω → Timer
  sysTicks : BitVec 64

/-- What `timer_wake` does: a work item, a thread, or only a message. -/
inductive WakeKind
  | work
  | thread
  | message

/-- Calls of `timer_wake` and `timer_del`. -/
inductive TimerEvent (ω : Type*)
  | wake (t : ω) (kind : WakeKind)
  | del (t : ω)

/-- `NO_RESTRICT`. -/
def noRestrict : BitVec 32 := -1

/-- `TIMER_NO_BLOCK`. -/
def timerNoBlock : BitVec 32 := 0

/-- `TIMER_BLOCK`. -/
def timerBlock : BitVec 32 := 1

variable {ω : Type*} [DecidableEq ω]

/-- `timer_wake`. -/
def timerWake (t : ω) (r : Timer) : TimerEvent ω :=
  if r.block = timerNoBlock then .wake t .work
  else if r.block = timerBlock then .wake t .thread
  else .wake t .message

/-- The body of the loop of `timer_try_wake`. -/
def timerTryWakeBody (st : TimerState ω) (t : ω) : List (TimerEvent ω) × TimerState ω :=
  let r := st.timer t
  if r.initTime + r.duringTime ≤ st.sysTicks then
    let r := { r with initTime := st.sysTicks }
    if r.count ≠ noRestrict then
      let r := { r with count := r.count - 1 }
      let st := { st with timer := Function.update st.timer t r }
      if r.count = 0 then
        ([timerWake t r, .del t], { st with links := listDel st.links (.timer t) })
      else ([timerWake t r], st)
    else ([timerWake t r], { st with timer := Function.update st.timer t r })
  else ([], st)

/-- The loop of `timer_try_wake`, by `list_for_each_entry_safe`; `none` if it has not ended after
`fuel` rounds. -/
def timerTryWakeLoop : ℕ → TimerState ω → TimerNode ω → TimerNode ω →
    Option (List (TimerEvent ω) × TimerState ω)
  | 0, _, _, _ => none
  | _ + 1, st, .queue, _ => some ([], st)
  | fuel + 1, st, .timer t, tmp =>
    let (events, st) := timerTryWakeBody st t
    (timerTryWakeLoop fuel st tmp (st.links.next tmp)).map fun r => (events ++ r.1, r.2)

/-- `timer_try_wake`. -/
def timerTryWake (st : TimerState ω) (fuel : ℕ) : Option (List (TimerEvent ω) × TimerState ω) :=
  let pos := st.links.next .queue
  timerTryWakeLoop fuel st pos (st.links.next pos)

/-- `timer_create`, with the object that `kmem_cache_alloc` returns. -/
def timerCreate (st : TimerState ω) (obj : Option ω) (duringTime : BitVec 64)
    (count isBlock : BitVec 32) : Option ω × TimerState ω :=
  match obj with
  | none => (none, st)
  | some t =>
    (some t, { st with
      timer := Function.update st.timer t ⟨st.sysTicks, duringTime, count, isBlock⟩
      links := listAddHead st.links (.timer t) .queue })

/-! ### One timer in a pass -/

/-- The timer is due at the tick `s`. -/
def Timer.Due (s : BitVec 64) (r : Timer) : Prop := r.initTime + r.duringTime ≤ s

instance (s : BitVec 64) (r : Timer) : Decidable (r.Due s) :=
  inferInstanceAs (Decidable (_ ≤ _))

/-- The timer after a pass. -/
def Timer.after (s : BitVec 64) (r : Timer) : Timer :=
  if r.Due s then
    { r with initTime := s, count := if r.count = noRestrict then noRestrict else r.count - 1 }
  else r

/-- The pass takes the timer off. -/
def Timer.Ends (s : BitVec 64) (r : Timer) : Prop := r.Due s ∧ r.count = 1

instance (s : BitVec 64) (r : Timer) : Decidable (r.Ends s) :=
  inferInstanceAs (Decidable (_ ∧ _))

/-- What a pass does for the timer. -/
def Timer.events (s : BitVec 64) (t : ω) (r : Timer) : List (TimerEvent ω) :=
  if r.Ends s then [timerWake t r, .del t] else if r.Due s then [timerWake t r] else []

theorem timerTryWakeBody_eq (st : TimerState ω) (t : ω) :
    timerTryWakeBody st t = ((st.timer t).events st.sysTicks t,
      { st with
        timer := Function.update st.timer t ((st.timer t).after st.sysTicks)
        links := if (st.timer t).Ends st.sysTicks then listDel st.links (.timer t)
          else st.links }) := by
  have hone : (1 : BitVec 32) ≠ noRestrict := by decide
  have hbody : timerTryWakeBody st t =
      if (st.timer t).Due st.sysTicks then
        if (st.timer t).count ≠ noRestrict then
          if (st.timer t).count - 1 = 0 then
            ([timerWake t (st.timer t), .del t],
              ⟨listDel st.links (.timer t), Function.update st.timer t
                { st.timer t with initTime := st.sysTicks, count := (st.timer t).count - 1 },
                st.sysTicks⟩)
          else
            ([timerWake t (st.timer t)], ⟨st.links, Function.update st.timer t
              { st.timer t with initTime := st.sysTicks, count := (st.timer t).count - 1 },
              st.sysTicks⟩)
        else
          ([timerWake t (st.timer t)], ⟨st.links, Function.update st.timer t
            { st.timer t with initTime := st.sysTicks }, st.sysTicks⟩)
      else ([], st) := rfl
  rw [hbody, Timer.events, Timer.after]
  by_cases hdue : (st.timer t).Due st.sysTicks
  · by_cases hcount : (st.timer t).count = noRestrict
    · have hends : ¬(st.timer t).Ends st.sysTicks := fun h => hone (h.2.symm.trans hcount)
      rw [if_pos hdue, if_neg (not_not.2 hcount), if_neg hends, if_pos hdue, if_neg hends,
        if_pos hdue, if_pos hcount, ← hcount]
    · rw [if_pos hdue, if_pos hcount, if_pos hdue, if_pos hdue, if_neg hcount]
      by_cases h1 : (st.timer t).count = 1
      · have hends : (st.timer t).Ends st.sysTicks := ⟨hdue, h1⟩
        rw [if_pos (sub_eq_zero.2 h1), if_pos hends, if_pos hends]
      · have hends : ¬(st.timer t).Ends st.sysTicks := fun h => h1 h.2
        rw [if_neg (sub_eq_zero.not.2 h1), if_neg hends, if_neg hends]
  · have hends : ¬(st.timer t).Ends st.sysTicks := fun h => hdue h.1
    rw [if_neg hdue, if_neg hends, if_neg hdue, if_neg hends, if_neg hdue, Function.update_eq_self]

/-! ### A whole pass -/

/-- The timers that a pass leaves on the queue. -/
def staying (s : BitVec 64) (timer : ω → Timer) (R : List ω) : List ω :=
  R.filter fun t => ¬(timer t).Ends s

/-- The body of the loop at `x`: the queue then has the timers treated so far that stay on it, and
the rest. -/
theorem timerTryWakeBody_ring {P R : List ω} {x : ω} {st : TimerState ω}
    (hring : IsRing st.links .queue ((P ++ x :: R).map .timer)) :
    ∃ st₁ P', timerTryWakeBody st x = ((st.timer x).events st.sysTicks x, st₁) ∧
      st₁.timer = Function.update st.timer x ((st.timer x).after st.sysTicks) ∧
      st₁.sysTicks = st.sysTicks ∧ IsRing st₁.links .queue ((P' ++ R).map .timer) ∧
      ∀ l, P ++ staying st.sysTicks st.timer [x] ++ l = P' ++ l := by
  by_cases hends : (st.timer x).Ends st.sysTicks
  · refine ⟨_, P, timerTryWakeBody_eq st x, rfl, rfl, ?_, fun l => by simp [staying, hends]⟩
    rw [if_pos hends, List.map_append]
    rw [List.map_append, List.map_cons] at hring
    exact hring.bypass
  · refine ⟨_, P ++ [x], timerTryWakeBody_eq st x, rfl, rfl, ?_, fun l => by simp [staying, hends]⟩
    rw [if_neg hends]
    simpa using hring

/-- A pass treats each timer of the queue once, in their order. The induction is on the timers `R`
that are left: `list_for_each_entry_safe` has read the next one before one is taken off. -/
theorem timerTryWakeLoop_eq {P R : List ω} {st : TimerState ω}
    (hring : IsRing st.links .queue ((P ++ R).map .timer)) (fuel : ℕ) :
    let pos := (R.map TimerNode.timer).headD .queue
    (fuel ≤ R.length → timerTryWakeLoop fuel st pos (st.links.next pos) = none) ∧
    (R.length < fuel → ∃ links,
      timerTryWakeLoop fuel st pos (st.links.next pos) =
        some (R.flatMap fun t => (st.timer t).events st.sysTicks t,
          ⟨links, fun t => if t ∈ R then (st.timer t).after st.sysTicks else st.timer t,
            st.sysTicks⟩) ∧
      IsRing links .queue ((P ++ staying st.sysTicks st.timer R).map .timer)) := by
  induction R generalizing P st fuel with
  | nil =>
    refine ⟨fun h => ?_, fun h => ?_⟩
    · rw [Nat.le_zero.1 h]
      rfl
    · obtain ⟨fuel, rfl⟩ : ∃ m, fuel = m + 1 := Nat.exists_eq_succ_of_ne_zero (by omega)
      exact ⟨st.links, by simp [timerTryWakeLoop], by simpa [staying] using hring⟩
  | cons x R ih =>
    obtain ⟨st₁, P', hbody, htimer, hticks, hring', hP'⟩ := timerTryWakeBody_ring hring
    rw [List.map_append, List.map_cons] at hring
    have hnext : st.links.next (.timer x) = (R.map TimerNode.timer).headD .queue :=
      hring.next_eq_headD
    have hx : x ∉ R := by
      have := (List.nodup_cons.1 hring.nodup).2
      rw [List.nodup_middle, List.nodup_cons] at this
      exact fun h => this.1 (List.mem_append_right _ (List.mem_map_of_mem h))
    have hold : ∀ t ∈ R, st₁.timer t = st.timer t := by
      intro t ht
      have hne : t ≠ x := fun h => hx (h ▸ ht)
      rw [htimer, Function.update_of_ne hne]
    simp only [List.map_cons, List.headD_cons, List.length_cons, hnext]
    cases fuel with
    | zero => exact ⟨fun _ => rfl, fun h => absurd h (Nat.not_lt_zero _)⟩
    | succ fuel =>
      rw [timerTryWakeLoop, hbody]
      obtain ⟨hnone, hsome⟩ := ih hring' fuel
      refine ⟨fun hfuel => Option.map_eq_none_iff.2 (hnone (by omega)), fun hfuel => ?_⟩
      obtain ⟨links, heq, hlinks⟩ := hsome (by omega)
      rw [hticks] at heq hlinks
      refine ⟨links, ?_, ?_⟩
      · simp only [heq, Option.map_some, Option.some_inj, Prod.mk.injEq, TimerState.mk.injEq,
          List.flatMap_cons, true_and, and_true]
        refine ⟨congrArg _ (List.flatMap_congr fun t ht => by rw [hold t ht]), funext fun t => ?_⟩
        by_cases htx : t = x
        · subst htx
          simp [hx, htimer]
        · simp [htx, htimer]
      · have hstay : staying st.sysTicks st₁.timer R = staying st.sysTicks st.timer R :=
          List.filter_congr fun t ht => by rw [hold t ht]
        have hcons : staying st.sysTicks st.timer (x :: R) =
            staying st.sysTicks st.timer [x] ++ staying st.sysTicks st.timer R :=
          List.filter_append [x] R
        rwa [hcons, ← List.append_assoc, hP', ← hstay]

theorem timerTryWake_eq {Q : List ω} {st : TimerState ω}
    (hring : IsRing st.links .queue (Q.map .timer)) (fuel : ℕ) :
    (fuel ≤ Q.length → timerTryWake st fuel = none) ∧
    (Q.length < fuel → ∃ links,
      timerTryWake st fuel =
        some (Q.flatMap fun t => (st.timer t).events st.sysTicks t,
          ⟨links, fun t => if t ∈ Q then (st.timer t).after st.sysTicks else st.timer t,
            st.sysTicks⟩) ∧
      IsRing links .queue ((staying st.sysTicks st.timer Q).map .timer)) := by
  have hfirst : st.links.next .queue = (Q.map TimerNode.timer).headD .queue := hring.listFirst
  rw [timerTryWake, hfirst]
  exact timerTryWakeLoop_eq (P := []) hring fuel

/-! ### Runs -/

/-- `time_init`. -/
def timeInit (st : TimerState ω) : TimerState ω :=
  { st with links := initListHead st.links .queue, sysTicks := 0 }

/-- A timer since its creation at the tick `created`: its period, how often it is to fire (`none`:
without end), the ticks of the passes, and those of its calls of `timer_wake` and `timer_del`. -/
structure TimerHist where
  created : ℕ
  during : ℕ
  times : Option ℕ
  passes : List ℕ
  wakes : List ℕ
  dels : List ℕ

/-- The calls of `timer_wake` for a timer. -/
def wakesOf (t : ω) (s : ℕ) (events : List (TimerEvent ω)) : List ℕ :=
  events.filterMap fun
    | .wake u _ => if u = t then some s else none
    | .del _ => none

/-- The calls of `timer_del` for a timer. -/
def delsOf (t : ω) (s : ℕ) (events : List (TimerEvent ω)) : List ℕ :=
  events.filterMap fun
    | .wake _ _ => none
    | .del u => if u = t then some s else none

/-- A pass at the tick `s`. -/
def TimerHist.record (H : TimerHist) (t : ω) (s : ℕ) (events : List (TimerEvent ω)) : TimerHist :=
  { H with
    passes := H.passes ++ [s]
    wakes := H.wakes ++ wakesOf t s events
    dels := H.dels ++ delsOf t s events }

/-- The queue, and the histories of the timers. -/
structure TimerRun (ω : Type*) where
  st : TimerState ω
  hist : ω → Option TimerHist

inductive TimerCall (ω : Type*)
  | advance (ticks : BitVec 64)
  | create (obj : Option ω) (duringTime : BitVec 64) (count isBlock : BitVec 32)
  | pass

/-- Ticks go by; a timer is created with an object that is not on the queue, with a positive count
or `NO_RESTRICT`, and its first firing is at a 64-bit tick; or `timer_try_wake` runs. -/
inductive TimerStep : TimerRun ω → TimerCall ω → TimerRun ω → Prop
  | advance {s} (ticks) (hle : s.st.sysTicks ≤ ticks) :
      TimerStep s (.advance ticks) { s with st := { s.st with sysTicks := ticks } }
  | createFail {s} (duringTime count isBlock) :
      TimerStep s (.create none duringTime count isBlock) s
  | create {s} (t duringTime count isBlock)
      (hfree : ¬OnRing s.st.links .queue (.timer t))
      (hcount : count = noRestrict ∨ 0 < count.toInt)
      (hduring : s.st.sysTicks.toNat + duringTime.toNat < 2 ^ 64) :
      TimerStep s (.create (some t) duringTime count isBlock)
        ⟨(timerCreate s.st (some t) duringTime count isBlock).2,
          Function.update s.hist t (some ⟨s.st.sysTicks.toNat, duringTime.toNat,
            if count = noRestrict then none else some count.toNat, [], [], []⟩)⟩
  | pass {s} (fuel events st') (h : timerTryWake s.st fuel = some (events, st')) :
      TimerStep s .pass
        ⟨st', fun t => (s.hist t).map fun H => H.record t s.st.sysTicks.toNat events⟩

/-- No timers, after `time_init`. -/
def TimerStart (s : TimerRun ω) : Prop := (∃ st, s.st = timeInit st) ∧ ∀ t, s.hist t = none

/-- A timer fires at each pass at which its period is over, until it has fired as often as it
should: never before, never twice, and in any run with enough passes as often as it should. It is on
the queue until then, and freed at its last firing. -/
structure TimerSpec (H : TimerHist) (queued : Prop) : Prop where
  schedule : H.wakes = spaced H.during H.created H.times H.passes
  apart : Apart H.during (H.created :: H.wakes)
  exactly : ∀ k, H.times = some k → H.wakes.length ≤ k ∧
    ∀ sub : List ℕ, sub.Sublist H.passes → Apart H.during (H.created :: sub) → sub.length = k →
      H.wakes.length = k
  onQueue : queued ↔ ∀ k, H.times = some k → H.wakes.length < k
  freed : ∀ k, H.times = some k → H.dels = H.wakes.drop (k - 1)
  notFreed : H.times = none → H.dels = []

/-- Every timer fires when it should, and the next pass comes to its end. -/
def TimersCorrect (s : TimerRun ω) : Prop :=
  (∀ t H, s.hist t = some H → TimerSpec H (OnRing s.st.links .queue (.timer t))) ∧
    ∃ fuel, (timerTryWake s.st fuel).isSome

/-- At a pass no timer on the queue has a sum `init_time + during_time` that wraps around. -/
def NoWrap (s : TimerRun ω) (a : TimerCall ω) : Prop :=
  match a with
  | .pass => ∀ t, OnRing s.st.links .queue (.timer t) →
      (s.st.timer t).initTime.toNat + (s.st.timer t).duringTime.toNat < 2 ^ 64
  | _ => True

/-! ### One timer over a run -/

/-- The tick of the last firing, or of the creation. -/
def TimerHist.last (H : TimerHist) : ℕ := H.wakes.getLastD H.created

/-- The memory of a timer on the queue says when it has fired, and how often it is still to fire. -/
structure InMemory (r : Timer) (H : TimerHist) : Prop where
  during : r.duringTime.toNat = H.during
  initTime : r.initTime.toNat = H.last
  count : ∀ k, H.times = some k → r.count.toNat + H.wakes.length = k
  noRestrict : H.times = none → r.count = noRestrict

/-- A timer up to now. -/
structure Follows (now : ℕ) (queued : Prop) (r : Timer) (H : TimerHist) : Prop where
  sorted : H.passes.Pairwise (· ≤ ·)
  passes_le : ∀ s ∈ H.passes, s ≤ now
  last_le : H.last ≤ now
  times : ∀ k, H.times = some k → 0 < k ∧ k < 2 ^ 31
  schedule : H.wakes = spaced H.during H.created H.times H.passes
  onQueue : queued ↔ Room H.times H.wakes
  freed : ∀ k, H.times = some k → H.dels = H.wakes.drop (k - 1)
  notFreed : H.times = none → H.dels = []
  memory : queued → InMemory r H

section Follows

variable {now : ℕ} {queued : Prop} {r : Timer} {H : TimerHist} {s : BitVec 64}

theorem Follows.timerSpec (hf : Follows now queued r H) : TimerSpec H queued where
  schedule := hf.schedule
  apart := by
    rw [hf.schedule]
    exact apart_spaced ..
  exactly k hk := by
    rw [hf.schedule, hk]
    exact ⟨length_spaced_le .., fun sub hsub hapart hlen =>
      length_spaced_of_sublist hf.sorted hsub hapart hlen⟩
  onQueue := hf.onQueue
  freed := hf.freed
  notFreed := hf.notFreed

theorem Follows.mono {now' : ℕ} (hf : Follows now queued r H) (hle : now ≤ now') :
    Follows now' queued r H :=
  { hf with
    passes_le := fun s hs => (hf.passes_le s hs).trans hle
    last_le := hf.last_le.trans hle }

/-- Without a wrap, a timer is due when its period is over. -/
theorem InMemory.due_iff (hm : InMemory r H)
    (hwrap : r.initTime.toNat + r.duringTime.toNat < 2 ^ 64) :
    r.Due s ↔ H.last + H.during ≤ s.toNat := by
  rw [Timer.Due, BitVec.le_def, BitVec.toNat_add, Nat.mod_eq_of_lt hwrap, hm.initTime, hm.during]

theorem Follows.created (s duringTime : BitVec 64) {count : BitVec 32} (isBlock : BitVec 32)
    (hcount : count = noRestrict ∨ 0 < count.toInt) :
    Follows s.toNat True ⟨s, duringTime, count, isBlock⟩ ⟨s.toNat, duringTime.toNat,
      if count = noRestrict then none else some count.toNat, [], [], []⟩ := by
  have htimes : ∀ k, (if count = noRestrict then none else some count.toNat) = some k →
      count.toNat = k ∧ 0 < k ∧ k < 2 ^ 31 := by
    intro k hk
    split_ifs at hk with hno
    have hpos := hcount.resolve_left hno
    rw [BitVec.toInt_eq_toNat_cond] at hpos
    have := Option.some_inj.1 hk
    split_ifs at hpos with h31 <;> omega
  refine
    { sorted := List.Pairwise.nil
      passes_le := by simp
      last_le := le_rfl
      times := fun k hk => (htimes k hk).2
      schedule := rfl
      onQueue := iff_of_true trivial fun k hk => (htimes k hk).2.1
      freed := fun _ _ => List.drop_nil.symm
      notFreed := fun _ => rfl
      memory := fun _ => ⟨rfl, rfl, fun k hk => (htimes k hk).1, fun hnone => ?_⟩ }
  by_contra hne
  rw [if_neg hne] at hnone
  cases hnone

theorem Follows.spaced_append (hf : Follows now queued r H) (s : ℕ) :
    (queued ∧ H.last + H.during ≤ s →
      spaced H.during H.created H.times (H.passes ++ [s]) = H.wakes ++ [s]) ∧
    (¬(queued ∧ H.last + H.during ≤ s) →
      spaced H.during H.created H.times (H.passes ++ [s]) = H.wakes) := by
  have := spaced_append_singleton H.during H.created H.times H.passes s
  rw [← hf.schedule, ← hf.onQueue] at this
  exact this

theorem Follows.passes_append (hf : Follows now queued r H) (hs : now ≤ s.toNat) :
    (H.passes ++ [s.toNat]).Pairwise (· ≤ ·) ∧ ∀ x ∈ H.passes ++ [s.toNat], x ≤ s.toNat := by
  have hle : ∀ x ∈ H.passes, x ≤ s.toNat := fun x hx => (hf.passes_le x hx).trans hs
  refine ⟨List.pairwise_append.2 ⟨hf.sorted, List.pairwise_singleton _ _, fun x hx y hy => ?_⟩,
    fun x hx => ?_⟩
  · rw [List.mem_singleton.1 hy]
    exact hle x hx
  · rcases List.mem_append.1 hx with hx | hx
    · exact hle x hx
    · exact (List.mem_singleton.1 hx).le

theorem Follows.pass_idle (hf : Follows s.toNat queued r H)
    (hidle : ¬(queued ∧ H.last + H.during ≤ s.toNat)) :
    Follows s.toNat queued r { H with passes := H.passes ++ [s.toNat] } :=
  { hf with
    sorted := (hf.passes_append le_rfl).1
    passes_le := (hf.passes_append le_rfl).2
    schedule := ((hf.spaced_append s.toNat).2 hidle).symm
    memory := fun hq => ⟨(hf.memory hq).during, (hf.memory hq).initTime, (hf.memory hq).count,
      (hf.memory hq).noRestrict⟩ }

theorem InMemory.count_eq_one_iff (hm : InMemory r H) :
    r.count = 1 ↔ ∃ k, H.times = some k ∧ H.wakes.length + 1 = k := by
  cases htimes : H.times with
  | none =>
    rw [hm.noRestrict htimes]
    simp [Kernel.noRestrict]
  | some k =>
    have hcount := hm.count k htimes
    rw [← BitVec.toNat_inj, show (1 : BitVec 32).toNat = 1 from rfl]
    simp only [Option.some_inj, exists_eq_left']
    omega

/-- There is room for another firing, unless this one is the last. -/
theorem room_append_singleton_iff {times : Option ℕ} {wakes : List ℕ} (hroom : Room times wakes)
    (n : ℕ) : Room times (wakes ++ [n]) ↔ ¬∃ k, times = some k ∧ wakes.length + 1 = k := by
  refine ⟨?_, fun h k hk => ?_⟩
  · rintro hroom' ⟨k, hk, hlen⟩
    have hlt := hroom' k hk
    rw [List.length_append, List.length_singleton] at hlt
    omega
  · have hlt := hroom k hk
    have hne : wakes.length + 1 ≠ k := fun hlen => h ⟨k, hk, hlen⟩
    rw [List.length_append, List.length_singleton]
    omega

theorem InMemory.after {passes dels : List ℕ} (hm : InMemory r H) (hroom : Room H.times H.wakes)
    (htimes : ∀ k, H.times = some k → k < 2 ^ 31) (hdue : r.Due s) :
    InMemory (r.after s)
      { H with passes := passes, wakes := H.wakes ++ [s.toNat], dels := dels } := by
  rw [Timer.after, if_pos hdue]
  refine ⟨hm.during, by simp [TimerHist.last], fun k hk => ?_, fun hnone => ?_⟩
  · have hcount := hm.count k hk
    have hlt := hroom k hk
    have hk31 := htimes k hk
    have hne : r.count ≠ Kernel.noRestrict := fun h => by
      rw [h, show Kernel.noRestrict.toNat = 2 ^ 32 - 1 from rfl] at hcount
      omega
    have hsub : (r.count - 1).toNat = r.count.toNat - 1 :=
      BitVec.toNat_sub_of_le (BitVec.le_def.2 (by simp; omega))
    rw [if_neg hne, hsub, List.length_append, List.length_singleton]
    omega
  · rw [if_pos (hm.noRestrict hnone)]

theorem Follows.pass_due (hf : Follows s.toNat queued r H) (hq : queued)
    (hwrap : r.initTime.toNat + r.duringTime.toNat < 2 ^ 64) (hdue : r.Due s) :
    Follows s.toNat (queued ∧ ¬r.Ends s) (r.after s)
      { H with
        passes := H.passes ++ [s.toNat]
        wakes := H.wakes ++ [s.toNat]
        dels := H.dels ++ if r.Ends s then [s.toNat] else [] } := by
  have hm := hf.memory hq
  have hlast := (hm.due_iff hwrap).1 hdue
  have hroom := hf.onQueue.1 hq
  have hends : r.Ends s ↔ ∃ k, H.times = some k ∧ H.wakes.length + 1 = k := by
    rw [Timer.Ends, and_iff_right hdue, hm.count_eq_one_iff]
  have hstays : queued ∧ ¬r.Ends s ↔ Room H.times (H.wakes ++ [s.toNat]) := by
    rw [and_iff_right hq, hends, room_append_singleton_iff hroom]
  refine
    { sorted := (hf.passes_append le_rfl).1
      passes_le := (hf.passes_append le_rfl).2
      last_le := by simp [TimerHist.last]
      times := hf.times
      schedule := ((hf.spaced_append s.toNat).1 ⟨hq, hlast⟩).symm
      onQueue := hstays
      freed := fun k hk => ?_
      notFreed := fun hnone => ?_
      memory := fun _ => hm.after hroom (fun k hk => (hf.times k hk).2) hdue }
  · have hlt := hroom k hk
    have hdels : H.dels = [] := by
      rw [hf.freed k hk, List.drop_eq_nil_of_le (by omega)]
    rw [hdels, List.nil_append]
    by_cases hlen : H.wakes.length + 1 = k
    · rw [if_pos (hends.2 ⟨k, hk, hlen⟩), List.drop_append_of_le_length (by omega),
        List.drop_eq_nil_of_le (by omega), List.nil_append]
    · rw [if_neg, List.drop_eq_nil_of_le]
      · rw [List.length_append, List.length_singleton]
        omega
      · rintro h
        obtain ⟨k', hk', hlen'⟩ := hends.1 h
        rw [hk] at hk'
        exact hlen (hlen'.trans (Option.some_inj.1 hk').symm)
  · have hnot : ¬r.Ends s := fun h => by
      obtain ⟨k, hk, -⟩ := hends.1 h
      rw [hnone] at hk
      cases hk
    rw [hf.notFreed hnone, if_neg hnot, List.append_nil]

end Follows

/-! ### The events of a pass -/

omit [DecidableEq ω] in
private theorem flatMap_of_nodup {α : Type*} [DecidableEq ω] {Q : List ω} (hQ : Q.Nodup) {t : ω}
    {f : ω → List α} (hf : ∀ u, u ≠ t → f u = []) :
    Q.flatMap f = if t ∈ Q then f t else [] := by
  induction Q with
  | nil => rfl
  | cons x Q ih =>
    obtain ⟨hx, hQ⟩ := List.nodup_cons.1 hQ
    rw [List.flatMap_cons, ih hQ]
    by_cases hxt : x = t
    · subst hxt
      simp [hx]
    · simp [hf x hxt, Ne.symm hxt]

omit [DecidableEq ω] in
private theorem exists_timerWake (t : ω) (r : Timer) : ∃ kind, timerWake t r = .wake t kind := by
  rw [timerWake]
  split_ifs <;> exact ⟨_, rfl⟩

theorem wakesOf_events (t u : ω) (n : ℕ) (s : BitVec 64) (r : Timer) :
    wakesOf t n (r.events s u) = if u = t ∧ r.Due s then [n] else [] := by
  obtain ⟨kind, hwake⟩ := exists_timerWake u r
  rw [Timer.events, hwake]
  by_cases hends : r.Ends s
  · have hdue := hends.1
    by_cases hut : u = t <;> simp [wakesOf, hends, hdue, hut]
  · by_cases hdue : r.Due s <;> by_cases hut : u = t <;> simp [wakesOf, hends, hdue, hut]

theorem delsOf_events (t u : ω) (n : ℕ) (s : BitVec 64) (r : Timer) :
    delsOf t n (r.events s u) = if u = t ∧ r.Ends s then [n] else [] := by
  obtain ⟨kind, hwake⟩ := exists_timerWake u r
  rw [Timer.events, hwake]
  by_cases hends : r.Ends s <;> by_cases hdue : r.Due s <;> by_cases hut : u = t <;>
    simp [delsOf, hends, hdue, hut]

section Pass

variable {Q : List ω} (hQ : Q.Nodup) (t : ω) (n : ℕ) (s : BitVec 64) (timer : ω → Timer)

include hQ

/-- What is selected of the events of a pass, if it is selected of those of the timer `t`. -/
private theorem filterMap_pass {f : TimerEvent ω → Option ℕ} {p : Timer → Prop} [DecidablePred p]
    (hf : ∀ u r, (r.events s u).filterMap f = if u = t ∧ p r then [n] else []) :
    (Q.flatMap fun u => (timer u).events s u).filterMap f =
      if t ∈ Q ∧ p (timer t) then [n] else [] := by
  rw [List.filterMap_flatMap,
    flatMap_of_nodup hQ fun u hu => by rw [hf, if_neg fun h => hu h.1], hf]
  by_cases ht : t ∈ Q <;> simp [ht]

theorem wakesOf_pass : wakesOf t n (Q.flatMap fun u => (timer u).events s u) =
    if t ∈ Q ∧ (timer t).Due s then [n] else [] :=
  filterMap_pass hQ t n s timer fun u r => wakesOf_events t u n s r

theorem delsOf_pass : delsOf t n (Q.flatMap fun u => (timer u).events s u) =
    if t ∈ Q ∧ (timer t).Ends s then [n] else [] :=
  filterMap_pass hQ t n s timer fun u r => delsOf_events t u n s r

end Pass

/-! ### All timers over a run -/

/-- The timers on the queue are `Q`, and each timer follows its schedule. -/
structure TimerInv (s : TimerRun ω) (Q : List ω) : Prop where
  ring : IsRing s.st.links .queue (Q.map .timer)
  created : ∀ t ∈ Q, ∃ H, s.hist t = some H
  follows : ∀ t H, s.hist t = some H → Follows s.st.sysTicks.toNat (t ∈ Q) (s.st.timer t) H

namespace TimerInv

variable {s s' : TimerRun ω} {Q : List ω} {a : TimerCall ω}

omit [DecidableEq ω] in
theorem mem_staying {t : ω} :
    t ∈ staying s.st.sysTicks s.st.timer Q ↔ t ∈ Q ∧ ¬(s.st.timer t).Ends s.st.sysTicks := by
  simp [staying]

variable (hs : TimerInv s Q)

include hs

omit [DecidableEq ω] in
theorem onRing_iff (t : ω) : OnRing s.st.links .queue (.timer t) ↔ t ∈ Q := by
  rw [hs.ring.onRing_iff]
  simp

omit [DecidableEq ω] in
theorem nodup : Q.Nodup :=
  List.Nodup.of_map _ (List.nodup_cons.1 hs.ring.nodup).2

theorem timersCorrect : TimersCorrect s := by
  refine ⟨fun t H hH => ?_, Q.length + 1, ?_⟩
  · rw [hs.onRing_iff]
    exact (hs.follows t H hH).timerSpec
  · obtain ⟨links, heq, -⟩ := (timerTryWake_eq hs.ring (Q.length + 1)).2 (Nat.lt_succ_self _)
    rw [heq]
    rfl

/-- What a pass does to the state and to the histories. -/
theorem pass_cases (hstep : TimerStep s .pass s') :
    s'.st.sysTicks = s.st.sysTicks ∧
    (∀ t, s'.st.timer t =
      if t ∈ Q then (s.st.timer t).after s.st.sysTicks else s.st.timer t) ∧
    IsRing s'.st.links .queue ((staying s.st.sysTicks s.st.timer Q).map .timer) ∧
    ∀ t, s'.hist t = (s.hist t).map fun H => { H with
      passes := H.passes ++ [s.st.sysTicks.toNat]
      wakes := H.wakes ++ if t ∈ Q ∧ (s.st.timer t).Due s.st.sysTicks then
        [s.st.sysTicks.toNat] else []
      dels := H.dels ++ if t ∈ Q ∧ (s.st.timer t).Ends s.st.sysTicks then
        [s.st.sysTicks.toNat] else [] } := by
  cases hstep with
  | pass fuel events st' h =>
    obtain ⟨hnone, hsome⟩ := timerTryWake_eq hs.ring fuel
    have hfuel : Q.length < fuel := by
      by_contra hle
      rw [hnone (Nat.le_of_not_lt hle)] at h
      cases h
    obtain ⟨links, heq, hlinks⟩ := hsome hfuel
    rw [heq, Option.some_inj] at h
    obtain ⟨rfl, rfl⟩ := Prod.mk.inj h
    refine ⟨rfl, fun t => rfl, hlinks, fun t => ?_⟩
    simp only [TimerHist.record, wakesOf_pass hs.nodup, delsOf_pass hs.nodup]

/-- A pass over the queue: a timer that is due fires and gets its next time, and one that has fired
for the last time leaves the queue. -/
theorem pass (hwrap : NoWrap s .pass) (hstep : TimerStep s .pass s') :
    TimerInv s' (staying s.st.sysTicks s.st.timer Q) := by
  obtain ⟨hticks, htimer, hring, hhist⟩ := hs.pass_cases hstep
  refine ⟨hring, fun t ht => ?_, fun t H' hH' => ?_⟩
  · obtain ⟨H, hH⟩ := hs.created t (mem_staying.1 ht).1
    rw [hhist, hH]
    exact ⟨_, rfl⟩
  · rw [hhist] at hH'
    obtain ⟨H, hH, rfl⟩ := Option.map_eq_some_iff.1 hH'
    have hf := hs.follows t H hH
    rw [hticks, htimer, mem_staying]
    by_cases ht : t ∈ Q
    · have hsum := hwrap t ((hs.onRing_iff t).2 ht)
      by_cases hdue : (s.st.timer t).Due s.st.sysTicks
      · have := hf.pass_due ht hsum hdue
        simpa [ht, hdue] using this
      · have hends : ¬(s.st.timer t).Ends s.st.sysTicks := fun h => hdue h.1
        have hlast := ((hf.memory ht).due_iff hsum).not.1 hdue
        have := hf.pass_idle fun h => hlast h.2
        simpa [ht, hdue, hends, Timer.after] using this
    · have := hf.pass_idle fun h => ht h.1
      simpa [ht] using this

/-- A pass when the sum of a timer on the queue wraps around. -/
theorem not_timersCorrect (hwrap : ¬NoWrap s .pass) (hstep : TimerStep s .pass s') :
    ¬TimersCorrect s' := by
  obtain ⟨-, -, -, hhist⟩ := hs.pass_cases hstep
  obtain ⟨t, ht, hsum⟩ : ∃ t, t ∈ Q ∧
      2 ^ 64 ≤ (s.st.timer t).initTime.toNat + (s.st.timer t).duringTime.toNat := by
    simpa [NoWrap, hs.onRing_iff] using hwrap
  obtain ⟨H, hH⟩ := hs.created t ht
  have hf := hs.follows t H hH
  have hm := hf.memory ht
  have hlast := hf.last_le
  rw [← hm.initTime] at hlast
  -- the wrapped sum is less than `init_time`, so the timer is due
  have hdue : (s.st.timer t).Due s.st.sysTicks := by
    rw [Timer.Due, BitVec.le_def, BitVec.toNat_add]
    omega
  intro hcorrect
  have happart := (hcorrect.1 t _ (by rw [hhist, hH, Option.map_some])).apart
  rw [if_pos ⟨ht, hdue⟩] at happart
  have hgap : H.last + H.during ≤ s.st.sysTicks.toNat := happart.last_add_le
  have := s.st.sysTicks.isLt
  rw [hm.initTime, hm.during] at hsum
  omega

theorem create {t : ω} (duringTime : BitVec 64) {count : BitVec 32} (isBlock : BitVec 32)
    (hfree : ¬OnRing s.st.links .queue (.timer t)) (hcount : count = noRestrict ∨ 0 < count.toInt) :
    TimerInv ⟨(timerCreate s.st (some t) duringTime count isBlock).2,
      Function.update s.hist t (some ⟨s.st.sysTicks.toNat, duringTime.toNat,
        if count = noRestrict then none else some count.toNat, [], [], []⟩)⟩ (t :: Q) := by
  have ht : t ∉ Q := fun h => hfree ((hs.onRing_iff t).2 h)
  have hnode : TimerNode.timer t ∉ TimerNode.queue :: Q.map .timer := by simpa using ht
  refine ⟨hs.ring.insert_head hnode, fun u hu => ?_, fun u H hH => ?_⟩
  · by_cases hut : u = t
    · subst hut
      exact ⟨_, Function.update_self ..⟩
    · obtain ⟨H, hH⟩ := hs.created u ((List.mem_cons.1 hu).resolve_left hut)
      exact ⟨H, (Function.update_of_ne hut ..).trans hH⟩
  · by_cases hut : u = t
    · subst hut
      change Function.update s.hist u _ u = some H at hH
      rw [Function.update_self, Option.some_inj] at hH
      subst hH
      have hmem : u ∈ u :: Q := List.mem_cons_self
      simpa [timerCreate, hmem] using Follows.created s.st.sysTicks duringTime isBlock hcount
    · have hold := hs.follows u H ((Function.update_of_ne hut ..).symm.trans hH)
      simpa [timerCreate, hut] using hold

end TimerInv

theorem TimerStart.timerInv {s : TimerRun ω} (hs : TimerStart s) : TimerInv s [] := by
  obtain ⟨⟨st, hst⟩, hhist⟩ := hs
  refine ⟨⟨List.nodup_singleton _, ?_⟩, fun t ht => absurd ht List.not_mem_nil, fun t H hH => ?_⟩
  · rw [hst]
    exact ⟨by simp [timeInit, initListHead_next], by simp [timeInit, initListHead_prev]⟩
  · rw [hhist] at hH
    cases hH

theorem exists_timerInv {s : TimerRun ω}
    (hr : Reachable TimerStart (guarded NoWrap TimerStep) s) : ∃ Q, TimerInv s Q := by
  refine hr.invariant (P := fun s => ∃ Q, TimerInv s Q) (fun s hs => ⟨[], hs.timerInv⟩) ?_
  rintro s a s' ⟨Q, hs⟩ ⟨hwrap, hstep⟩
  cases hstep with
  | advance ticks hle =>
    exact ⟨Q, hs.ring, hs.created, fun t H hH => (hs.follows t H hH).mono (BitVec.le_def.1 hle)⟩
  | createFail => exact ⟨Q, hs⟩
  | create t duringTime count isBlock hfree hcount _ =>
    exact ⟨_, hs.create duringTime isBlock hfree hcount⟩
  | pass fuel events st' h => exact ⟨_, hs.pass hwrap (.pass fuel events st' h)⟩

/-- As long as no sum wraps around at a pass, the timers fire when they should, and after the first
pass at which one does they do not. -/
theorem timersCorrect_iff_noWrap {s s' : TimerRun ω} {a : TimerCall ω}
    (hr : Reachable TimerStart (guarded NoWrap TimerStep) s) (hstep : TimerStep s a s') :
    TimersCorrect s ∧ (TimersCorrect s' ↔ NoWrap s a) := by
  obtain ⟨Q, hs⟩ := exists_timerInv hr
  refine ⟨hs.timersCorrect, fun hcorrect => ?_, fun hwrap => ?_⟩
  · by_contra hwrap
    cases a with
    | advance _ => exact hwrap trivial
    | create _ _ _ _ => exact hwrap trivial
    | pass => exact hs.not_timersCorrect hwrap hstep hcorrect
  · obtain ⟨Q', hs'⟩ := exists_timerInv (hr.next ⟨hwrap, hstep⟩)
    exact hs'.timersCorrect

/-! ### A timer with a long period -/

/-- No timers at the tick 0. -/
def noTimers : TimerRun Unit :=
  ⟨timeInit ⟨Links.isolated, fun _ => ⟨0, 0, 0, 0⟩, 0⟩, fun _ => none⟩

/-- A timer without end, created at the tick 0, with the period `2 ^ 63`. -/
def longTimer : TimerRun Unit :=
  ⟨(timerCreate noTimers.st (some ()) (1#64 <<< 63) noRestrict timerNoBlock).2,
    Function.update noTimers.hist () (some ⟨0, 2 ^ 63, none, [], [], []⟩)⟩

theorem timerStart_noTimers : TimerStart noTimers := ⟨⟨_, rfl⟩, fun _ => rfl⟩

theorem not_onRing_noTimers : ¬OnRing noTimers.st.links .queue (.timer ()) := by
  rw [timerStart_noTimers.timerInv.onRing_iff]
  exact List.not_mem_nil

/-- The timer at the tick `2 ^ 63`. -/
def longTimerDue : TimerRun Unit :=
  { longTimer with st := { longTimer.st with sysTicks := 1#64 <<< 63 } }

theorem reachable_longTimerDue :
    Reachable TimerStart (guarded NoWrap TimerStep) longTimerDue := by
  have h₀ : Reachable TimerStart (guarded NoWrap TimerStep) noTimers := .start timerStart_noTimers
  have h₁ : Reachable TimerStart (guarded NoWrap TimerStep) longTimer :=
    h₀.next (a := TimerCall.create (some ()) (1#64 <<< 63) noRestrict timerNoBlock)
      ⟨trivial, .create () _ _ _ not_onRing_noTimers (.inl rfl) (by decide)⟩
  exact h₁.next (a := TimerCall.advance (1#64 <<< 63)) ⟨trivial, .advance _ (by decide)⟩

theorem timerInv_longTimerDue : TimerInv longTimerDue [()] := by
  have h : TimerInv longTimer [()] :=
    timerStart_noTimers.timerInv.create _ _ not_onRing_noTimers (.inl rfl)
  exact ⟨h.ring, h.created, fun t H hH => (h.follows t H hH).mono (by decide)⟩

theorem noWrap_longTimerDue : NoWrap longTimerDue .pass := by
  rintro ⟨⟩ -
  decide

/-- The timer fires at the tick `2 ^ 63`. -/
theorem timersCorrect_longTimerDue : ∃ s', TimerStep longTimerDue .pass s' ∧
    NoWrap longTimerDue .pass ∧ (TimersCorrect s' ↔ NoWrap longTimerDue .pass) := by
  obtain ⟨links, heq, -⟩ := (timerTryWake_eq timerInv_longTimerDue.ring 2).2 (by decide)
  exact ⟨_, .pass 2 _ _ heq, noWrap_longTimerDue,
    (timersCorrect_iff_noWrap reachable_longTimerDue (.pass 2 _ _ heq)).2⟩

/-- A second pass at the same tick wakes the timer again, `2 ^ 63` ticks too early. -/
theorem exists_early_timer :
    ∃ s : TimerRun Unit, Reachable TimerStart TimerStep s ∧ ¬TimersCorrect s := by
  obtain ⟨links, heq, -⟩ := (timerTryWake_eq timerInv_longTimerDue.ring 2).2 (by decide)
  obtain ⟨s₁, hstep₁⟩ : ∃ s₁, TimerStep longTimerDue .pass s₁ := ⟨_, .pass 2 _ _ heq⟩
  have hinv₁ := timerInv_longTimerDue.pass noWrap_longTimerDue hstep₁
  have htimer : s₁.st.timer () = ⟨1#64 <<< 63, 1#64 <<< 63, noRestrict, timerNoBlock⟩ :=
    (timerInv_longTimerDue.pass_cases hstep₁).2.1 ()
  have hwrap : ¬NoWrap s₁ .pass := by
    intro h
    have := h () ((hinv₁.onRing_iff ()).2 (by decide))
    rw [htimer] at this
    exact absurd this (by decide)
  obtain ⟨links₂, heq₂, -⟩ := (timerTryWake_eq hinv₁.ring 2).2 (by decide)
  have hstep₂ : TimerStep s₁ .pass _ := .pass 2 _ _ heq₂
  refine ⟨_, (reachable_longTimerDue.of_guarded.next hstep₁).next hstep₂, ?_⟩
  exact hinv₁.not_timersCorrect hwrap hstep₂

end RiscvLab.Kernel
