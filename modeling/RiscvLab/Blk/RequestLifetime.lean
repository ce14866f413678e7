import RiscvLab.Blk.RequestProtocol

/-!
# The lifetime of a request

A thread that has returned from `sleep_on` frees its request with `rq_del`, and with it the
semaphore on which it slept. `gen_start_io` is in `sem_signal` on this semaphore then: it has woken
the thread, but it still has to release `sem->lock`. The thread does not take `sem->lock` again when
it was blocked in `sem_wait`, so nothing keeps `rq_del` from running first, as in
`exists_unlock_after_free`. A thread that comes to `sem_wait` after the wake-up has to take
`sem->lock`, and is safe.

Here `sem_signal` by `gen_start_io` is two steps. The state is that of the request queue, the
request whose `sem->lock` is held by `gen_start_io`, and a log of the accesses of `gen_start_io` to
requests and of the calls of `rq_del`. The log names requests by their numbers, since addresses are
used again.

## Main results

* `noUseAfterFree_of_reachable` : if no thread calls `rq_del` while `gen_start_io` has the lock,
  then `gen_start_io` never accesses a request that has been freed.

Source: `kernel/dev/blk/gendisk.c`, lines 66–146 and 173–203; `lib/semaphore.c`, lines 16–65;
`lib/mutex.c`, lines 20–35; `kernel/dev/blk/request.c`, lines 54–57.
-/

namespace RiscvLab.Blk

open Library

/-- An access of `gen_start_io` to a request, or the `rq_del` of a request. -/
inductive RqUse
  | access (k : ℕ)
  | del (k : ℕ)
  deriving DecidableEq

/-- A request queue, the request whose semaphore `gen_start_io` has to unlock, and the log. -/
structure RqLife (α τ : Type*) where
  rqs : RqState α τ
  held : Option (α × ℕ)
  log : List RqUse

/-- A step of the request queue, or the end of `sem_signal`. -/
inductive RqLifeEvent (α τ : Type*)
  | step (e : RqEvent α τ)
  | unlock

variable {α τ : Type*} [DecidableEq α] [DecidableEq τ]

/-- The steps of `gen_start_io`. -/
def RqEvent.isIo : RqEvent α τ → Bool
  | .ioWait | .ioTake | .ioBio | .ioWakeUp => true
  | _ => false

/-- The request of `gen_start_io` with its number. -/
def RqState.serving (st : RqState α τ) : Option (α × ℕ) :=
  match st.io with
  | .serving rq _ => some (rq, st.serial rq)
  | _ => none

/-- What a step adds to the log. -/
def RqState.uses (st : RqState α τ) : RqEvent α τ → List RqUse
  | .rqDel t =>
    match st.user t with
    | .returned rq => [.del (st.serial rq)]
    | _ => []
  | .ioTake => ((getNextRq st).1.map fun rq => .access (st.serial rq)).toList
  | .ioBio | .ioWakeUp => (st.serving.map fun x => .access x.2).toList
  | _ => []

/-- One step. `sem_signal` on a request ends with `ioWakeUp` with the lock held; `sleep_on` has to
wait until it is released. -/
inductive RqLifeStep : RqLife α τ → RqLifeEvent α τ → RqLife α τ → Prop
  | user {s e st'} (he : e.isIo = false) (h : RqStep s.rqs e st')
      (hlock : ∀ t rq, e = .sleepOn t → s.rqs.user t = .signalled rq →
        s.held ≠ some (rq, s.rqs.serial rq)) :
      RqLifeStep s (.step e) ⟨st', s.held, s.log ++ s.rqs.uses e⟩
  | io {s e st'} (he : e.isIo = true) (h : RqStep s.rqs e st') (hheld : s.held = none) :
      RqLifeStep s (.step e)
        ⟨st', match e with
          | .ioWakeUp => s.rqs.serving
          | _ => none, s.log ++ s.rqs.uses e⟩
  | unlock {s rq k} (hheld : s.held = some (rq, k)) :
      RqLifeStep s .unlock ⟨s.rqs, none, s.log ++ [.access k]⟩

structure RqLife.Started (s : RqLife α τ) : Prop where
  rqs : s.rqs.Started
  held : s.held = none
  log : s.log = []

/-- No request is accessed by `gen_start_io` after its `rq_del`. -/
def NoUseAfterFree (log : List RqUse) : Prop :=
  ∀ k l₁ l₂, log = l₁ ++ .del k :: l₂ → .access k ∉ l₂

/-- `rq_del` is not called while `gen_start_io` has to unlock the semaphore of the request. -/
def DelAfterUnlock (s : RqLife α τ) : RqLifeEvent α τ → Prop
  | .step (.rqDel t) => ∀ rq, s.rqs.user t = .returned rq → s.held ≠ some (rq, s.rqs.serial rq)
  | _ => True

/-! ### The invariant -/

/-- One more entry, which is not an access to a request that has been freed. -/
theorem NoUseAfterFree.concat {log : List RqUse} (h : NoUseAfterFree log) {x : RqUse}
    (hx : ∀ k, x = .access k → .del k ∉ log) : NoUseAfterFree (log ++ [x]) := by
  intro k l₁ l₂ hl hmem
  rcases List.eq_nil_or_concat l₂ with rfl | ⟨l, y, rfl⟩
  · cases hmem
  rw [List.concat_eq_append] at hl hmem
  rw [← List.cons_append, ← List.append_assoc] at hl
  obtain ⟨hl, hy⟩ := List.append_inj' hl rfl
  rcases List.mem_append.1 hmem with hmem | hmem
  · exact h k l₁ l hl hmem
  · rw [← hy, List.mem_singleton] at hmem
    exact hx k hmem.symm (by simp [hl])

variable {st st' : RqState α τ} {e : RqEvent α τ} {s s' : RqLife α τ}

/-- Only `make_request` and `rq_del` change which requests there are. -/
theorem RqStep.requests_eq (h : RqStep st e st') (hmake : ∀ t rq b o l, e ≠ .make t rq b o l)
    (hdel : ∀ t, e ≠ .rqDel t) :
    st'.live = st.live ∧ st'.serial = st.serial ∧ st'.chains = st.chains := by
  cases h with
  | make => exact absurd rfl (hmake _ _ _ _ _)
  | rqDel => exact absurd rfl (hdel _)
  | ioTake hio hs hrq =>
    have hst : (getNextRq st).2.live = st.live ∧ (getNextRq st).2.serial = st.serial ∧
        (getNextRq st).2.chains = st.chains := by
      unfold getNextRq
      split <;> exact ⟨rfl, rfl, rfl⟩
    simpa [hrq] using hst
  | _ => exact ⟨rfl, rfl, rfl⟩

omit [DecidableEq α] [DecidableEq τ] in
theorem RqInv.live_of_serving (hI : RqInv st) {rq : α} {bs : List Bio}
    (hio : st.io = .serving rq bs) : st.live rq = true := by
  obtain ⟨W, Q, hO, -⟩ := hI
  exact hO.live rq (by simp [hio])

/-- The requests that `gen_start_io` accesses are live. -/
theorem RqInv.uses_io (hI : RqInv st) (he : e.isIo = true) (h : RqStep st e st') :
    st.uses e = [] ∨ ∃ rq, st.live rq = true ∧ st.uses e = [.access (st.serial rq)] := by
  cases h with
  | ioWait => exact .inl rfl
  | ioTake hio hs hrq =>
    obtain ⟨W, Q, hO, hS⟩ := hI
    obtain ⟨rq', Q', rfl⟩ := List.exists_cons_of_ne_nil (hS.queue_ne_nil hio hs)
    refine .inr ⟨rq', hO.live rq' (by simp), ?_⟩
    simp [RqState.uses, hO.getNextRq_cons.1]
  | @ioBio rq _ _ hio _ =>
    exact .inr ⟨rq, hI.live_of_serving hio, by simp [RqState.uses, RqState.serving, hio]⟩
  | @ioStuck rq _ _ hio _ =>
    exact .inr ⟨rq, hI.live_of_serving hio, by simp [RqState.uses, RqState.serving, hio]⟩
  | @ioWakeUp rq _ _ hio _ =>
    exact .inr ⟨rq, hI.live_of_serving hio, by simp [RqState.uses, RqState.serving, hio]⟩
  | _ => cases he

structure RqLifeInv (s : RqLife α τ) : Prop where
  rqs : RqInv s.rqs
  safe : NoUseAfterFree s.log
  dead : ∀ k, .del k ∈ s.log → k < s.rqs.chains.length ∧
    ∀ rq, s.rqs.live rq = true → s.rqs.serial rq ≠ k
  held : ∀ rq k, s.held = some (rq, k) → s.rqs.live rq = true ∧ s.rqs.serial rq = k

namespace RqLifeInv

theorem start (h : s.Started) : RqLifeInv s := by
  refine ⟨RqInv.start h.rqs, ?_, ?_, ?_⟩
  · intro k l₁ l₂ hl
    simp [h.log] at hl
  · simp [h.log]
  · simp [h.held]

omit [DecidableEq α] [DecidableEq τ] in
theorem access (hI : RqLifeInv s) {rq : α} (hrq : s.rqs.live rq = true) :
    NoUseAfterFree (s.log ++ [.access (s.rqs.serial rq)]) := by
  refine hI.safe.concat fun k hk hdel => ?_
  obtain rfl := RqUse.access.inj hk
  exact (hI.dead _ hdel).2 rq hrq rfl

theorem make (hI : RqLifeInv s) {t : τ} {rq : α} (hrq : s.rqs.live rq = false) (bio : List Bio)
    (hrqs : RqInv { makeRequest s.rqs rq bio with
      user := Function.update s.rqs.user t (.appended rq) }) :
    RqLifeInv ⟨{ makeRequest s.rqs rq bio with
      user := Function.update s.rqs.user t (.appended rq) }, s.held, s.log⟩ := by
  refine ⟨hrqs, hI.safe, fun k hk => ?_, fun rq' k hheld => ?_⟩
  · obtain ⟨hlt, hne⟩ := hI.dead k hk
    simp only [makeRequest, requestAlloc, rqAppend, List.length_append, List.length_singleton]
    refine ⟨by omega, fun rq' hlive => ?_⟩
    by_cases h : rq' = rq
    · rw [h, Function.update_self]
      exact hlt.ne'
    · rw [Function.update_of_ne h] at hlive ⊢
      exact hne rq' hlive
  · obtain ⟨hlive, hserial⟩ := hI.held rq' k hheld
    have h : rq' ≠ rq := by
      rintro rfl
      simp [hrq] at hlive
    simpa [makeRequest, requestAlloc, rqAppend, h] using ⟨hlive, hserial⟩

theorem rqDel (hI : RqLifeInv s) {t : τ} {rq : α} (ht : s.rqs.user t = .returned rq)
    (hheld : s.held ≠ some (rq, s.rqs.serial rq))
    (hrqs : RqInv { s.rqs with
      live := Function.update s.rqs.live rq false
      user := Function.update s.rqs.user t .idle }) :
    RqLifeInv ⟨{ s.rqs with
      live := Function.update s.rqs.live rq false
      user := Function.update s.rqs.user t .idle }, s.held,
      s.log ++ [.del (s.rqs.serial rq)]⟩ := by
  obtain ⟨W, Q, hO, hS⟩ := hI.rqs
  have hlive : s.rqs.live rq = true := hS.ownLive t rq (by simp [ht])
  have hlive' : ∀ rq', Function.update s.rqs.live rq false rq' = true →
      rq' ≠ rq ∧ s.rqs.live rq' = true := by
    intro rq' h
    by_cases hrq : rq' = rq
    · simp [hrq] at h
    · exact ⟨hrq, by simpa [hrq] using h⟩
  refine ⟨hrqs, hI.safe.concat (by simp), fun k hk => ?_, fun rq' k h => ?_⟩
  · rcases List.mem_append.1 hk with hk | hk
    · obtain ⟨hlt, hne⟩ := hI.dead k hk
      exact ⟨hlt, fun rq' h => hne rq' (hlive' rq' h).2⟩
    · obtain rfl : k = s.rqs.serial rq := by simpa using hk
      refine ⟨hO.lt rq hlive, fun rq' h e => ?_⟩
      exact (hlive' rq' h).1 (hO.inj rq' rq (hlive' rq' h).2 hlive e)
  · obtain ⟨hrq', rfl⟩ := hI.held rq' k h
    have hne : rq' ≠ rq := by
      rintro rfl
      exact hheld h
    exact ⟨by simpa [hne] using hrq', rfl⟩

omit [DecidableEq α] [DecidableEq τ] in
/-- The requests stay, and one of them is accessed at most. -/
theorem frame (hI : RqLifeInv s) (hrqs : RqInv st') (hlive : st'.live = s.rqs.live)
    (hserial : st'.serial = s.rqs.serial) (hchains : st'.chains = s.rqs.chains)
    {held : Option (α × ℕ)} (hheld : ∀ rq k, held = some (rq, k) →
      s.rqs.live rq = true ∧ s.rqs.serial rq = k) {log : List RqUse}
    (hlog : log = [] ∨ ∃ rq, s.rqs.live rq = true ∧ log = [.access (s.rqs.serial rq)]) :
    RqLifeInv ⟨st', held, s.log ++ log⟩ := by
  have hsafe : NoUseAfterFree (s.log ++ log) := by
    rcases hlog with rfl | ⟨rq, hrq, rfl⟩
    · rw [List.append_nil]
      exact hI.safe
    · exact hI.access hrq
  have hdel : ∀ k, .del k ∈ s.log ++ log → .del k ∈ s.log := by
    intro k hk
    rcases hlog with rfl | ⟨rq, -, rfl⟩ <;> simpa using hk
  refine ⟨hrqs, hsafe, fun k hk => ?_, fun rq k h => ?_⟩
  · rw [hlive, hserial, hchains]
    exact hI.dead k (hdel k hk)
  · rw [hlive, hserial]
    exact hheld rq k h

/-- Every step that meets the condition keeps the invariant. -/
theorem step {e : RqLifeEvent α τ} (hI : RqLifeInv s) (hok : DelAfterUnlock s e)
    (h : RqLifeStep s e s') : RqLifeInv s' := by
  cases h with
  | @user e st' he h hlock =>
    have hrqs := hI.rqs.step h
    cases h with
    | make ht hrq hbio =>
      simpa [RqState.uses] using hI.make hrq _ hrqs
    | rqDel ht =>
      simpa [RqState.uses, ht] using hI.rqDel ht (hok _ ht) hrqs
    | signal => exact hI.frame hrqs rfl rfl rfl hI.held (.inl rfl)
    | sleepOn => exact hI.frame hrqs rfl rfl rfl hI.held (.inl rfl)
    | wake => exact hI.frame hrqs rfl rfl rfl hI.held (.inl rfl)
    | elsewhere => exact hI.frame hrqs rfl rfl rfl hI.held (.inl rfl)
    | _ => cases he
  | @io e st' he h hheld =>
    have huses := hI.rqs.uses_io he h
    obtain ⟨hlive, hserial, hchains⟩ := h.requests_eq (by rintro _ _ _ _ _ rfl; cases he)
      (by rintro _ rfl; cases he)
    refine hI.frame (hI.rqs.step h) hlive hserial hchains (fun rq k hk => ?_) huses
    cases h with
    | @ioWakeUp rq' _ _ hio hm =>
      have hserving : s.rqs.serving = some (rq', s.rqs.serial rq') := by
        simp only [RqState.serving, hio]
      obtain ⟨rfl, rfl⟩ : rq' = rq ∧ s.rqs.serial rq' = k := by simpa [hserving] using hk
      exact ⟨hI.rqs.live_of_serving hio, rfl⟩
    | _ => cases hk
  | @unlock rq k hheld =>
    obtain ⟨hlive, rfl⟩ := hI.held rq k hheld
    exact hI.frame hI.rqs rfl rfl rfl (fun rq' k' h => by cases h) (.inr ⟨rq, hlive, rfl⟩)

end RqLifeInv

/-- In every run in which `rq_del` waits for the end of `sem_signal`, no request is accessed by
`gen_start_io` after its `rq_del`. -/
theorem noUseAfterFree_of_reachable
    (h : Reachable RqLife.Started (guarded DelAfterUnlock RqLifeStep) s) :
    NoUseAfterFree s.log :=
  (h.invariant (fun _ h => RqLifeInv.start h) fun _ _ _ hI hs => hI.step hs.1 hs.2).safe

/-! ### Runs of one thread -/

private def lifeStart : RqLife Unit Unit := ⟨RqState.start, none, []⟩

private theorem started_lifeStart : lifeStart.Started := ⟨RqState.started_start, rfl, rfl⟩

/-- A thread reads eight bytes of block three, blocks in `sleep_on`, and is woken. -/
private theorem reachable_woken : ∃ s : RqLife Unit Unit,
    Reachable RqLife.Started (guarded DelAfterUnlock RqLifeStep) s ∧
      s.rqs.user () = .returned () ∧ s.held = some ((), 0) ∧ s.rqs.serial () = 0 := by
  have hbio : bioListMake 3 0 8 = .ok [⟨3, 0, 8⟩] := rfl
  have h₀ : Reachable RqLife.Started (guarded DelAfterUnlock RqLifeStep) lifeStart :=
    .start started_lifeStart
  have h₁ := h₀.next (a := RqLifeEvent.step (.make () () 3 0 8))
    ⟨trivial, .user rfl (.make rfl rfl hbio) (by simp)⟩
  have h₂ := h₁.next (a := RqLifeEvent.step (.signal ()))
    ⟨trivial, .user rfl (.signal rfl rfl) (by simp)⟩
  have h₃ := h₂.next (a := RqLifeEvent.step (.sleepOn ()))
    ⟨trivial, .user rfl (.sleepOn rfl) fun _ _ _ _ h => by cases h⟩
  have h₄ := h₃.next (a := RqLifeEvent.step .ioWait) ⟨trivial, .io rfl (.ioWait rfl) rfl⟩
  have h₅ := h₄.next (a := RqLifeEvent.step .ioTake)
    ⟨trivial, .io rfl (.ioTake rfl (by decide) rfl) rfl⟩
  have h₆ := h₅.next (a := RqLifeEvent.step .ioBio) ⟨trivial, .io rfl (.ioBio rfl (by decide)) rfl⟩
  have h₇ := h₆.next (a := RqLifeEvent.step .ioWakeUp) ⟨trivial, .io rfl (.ioWakeUp rfl rfl) rfl⟩
  have h₈ := h₇.next (a := RqLifeEvent.step (.wake ()))
    ⟨trivial, .user rfl (.wake rfl (by decide)) (by simp)⟩
  exact ⟨_, h₈, rfl, rfl, rfl⟩

theorem noUseAfterFree_one_read : ∃ s : RqLife Unit Unit,
    Reachable RqLife.Started (guarded DelAfterUnlock RqLifeStep) s ∧ .del 0 ∈ s.log ∧
      NoUseAfterFree s.log := by
  obtain ⟨s, hs, hreturned, hheld, hserial⟩ := reachable_woken
  have h₁ := hs.next (a := RqLifeEvent.unlock) ⟨trivial, .unlock hheld⟩
  have h₂ := h₁.next (a := RqLifeEvent.step (.rqDel ()))
    ⟨fun _ _ => by simp, .user rfl (.rqDel hreturned) (by simp)⟩
  refine ⟨_, h₂, ?_, noUseAfterFree_of_reachable h₂⟩
  simp [RqState.uses, hreturned, hserial]

/-- `rq_del` runs between the wake-up and the end of `sem_signal`. -/
theorem exists_unlock_after_free : ∃ s : RqLife Unit Unit,
    Reachable RqLife.Started RqLifeStep s ∧ ¬NoUseAfterFree s.log := by
  obtain ⟨s, hs, hreturned, hheld, hserial⟩ := reachable_woken
  have h₁ := hs.of_guarded.next (a := RqLifeEvent.step (.rqDel ()))
    (.user rfl (.rqDel hreturned) (by simp))
  refine ⟨_, h₁.next (a := RqLifeEvent.unlock) (.unlock (by exact hheld)), fun h => ?_⟩
  refine h 0 s.log [.access 0] ?_ (by simp)
  simp [RqState.uses, hreturned, hserial]

end RiscvLab.Blk
