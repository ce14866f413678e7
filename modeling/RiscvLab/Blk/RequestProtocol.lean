import RiscvLab.Blk.Request
import Mathlib.Data.Finset.Card

/-!
# The request protocol

The semaphores of a request queue keep its threads in step. That of the queue counts the requests
whose thread has signalled and for which `gen_start_io` has not waited yet; that of a request is at
one when the request is served and its thread has not come to wait, and at minus one when the thread
waits for it (`Synced`). Together with the order of the queue this is an invariant.

## Main results

* `requestProtocol_of_reachable` : in every run, whatever the interleaving, `get_next_rq` finds a
  request, requests are served once and in order, and nobody returns before the request is served.

Source: `kernel/dev/blk/gendisk.c`, lines 57–147 and 173–203; `lib/semaphore.c`.
-/

namespace RiscvLab.Blk

open Library

variable {α τ : Type*}

/-- The wait of `gen_start_io` that no request has answered yet. -/
@[simp]
def IoThread.tokens : IoThread α → ℤ
  | .waiting => 1
  | _ => 0

/-- The request that a thread has made. -/
@[simp]
def Requester.rq : Requester α → Option α
  | .idle => none
  | .appended rq | .signalled rq | .sleeping rq | .returned rq => some rq

/-- The wait of a thread for its request. -/
@[simp]
def Requester.slept : Requester α → ℤ
  | .sleeping _ | .returned _ => 1
  | _ => 0

variable {st st' : RqState α τ} {Q : List α} {W : RqSem α → List (Option τ)} {rq : α}
  {t : τ}

/-- The counters of the semaphores match the places of the threads; `W` are the waiters. -/
structure Synced (st : RqState α τ) (W : RqSem α → List (Option τ)) (Q : List α) : Prop where
  queues : Queues st.sems W
  ioWaits : ∀ x ∈ W .queue, x = none ∧ st.io = .waiting
  tokens : ∃ P : Finset τ, (∀ t, t ∈ P ↔ ∃ rq, st.user t = .appended rq) ∧
    (st.sems.sem .queue).value.toInt = Q.length - P.card - st.io.tokens
  ownLive : ∀ t rq, (st.user t).rq = some rq → st.live rq = true
  ownInj : ∀ t t' rq, (st.user t).rq = some rq → (st.user t').rq = some rq → t = t'
  lockValue : ∀ t rq, (st.user t).rq = some rq → (st.sems.sem (.lock rq)).value.toInt =
    (if st.serial rq ∈ st.served then 1 else 0) - (st.user t).slept
  lockWaits : ∀ rq, ∀ x ∈ W (.lock rq), ∃ t, x = some t ∧ st.user t = .sleeping rq

namespace Synced

/-- A thread that goes on with its request keeps it. -/
theorem rq_update [DecidableEq τ] {u : Requester α} (hu : u.rq = (st.user t).rq) (t' : τ) :
    (Function.update st.user t u t').rq = (st.user t').rq := by
  rw [Function.update_apply]
  split_ifs with h
  · rw [h, hu]
  · rfl

variable (hS : Synced st W Q)

include hS

/-- A thread that is not in `sleep_on` does not sleep. -/
theorem awake (ht : ∀ rq, st.user t ≠ .sleeping rq) : st.sems.state (some t) ≠ .sleeping := by
  rw [Ne, hS.queues.asleep]
  rintro ⟨s, hs⟩
  cases s with
  | queue => exact absurd (hS.ioWaits _ hs).1 (by simp)
  | lock rq =>
    obtain ⟨t', ht', hu⟩ := hS.lockWaits rq _ hs
    cases ht'
    exact ht rq hu

/-- `gen_start_io` does not sleep outside `sem_wait`. -/
theorem io_awake (hio : st.io ≠ .waiting) : st.sems.state none ≠ .sleeping := by
  rw [Ne, hS.queues.asleep]
  rintro ⟨s, hs⟩
  cases s with
  | queue => exact hio (hS.ioWaits _ hs).2
  | lock rq =>
    obtain ⟨t', ht', -⟩ := hS.lockWaits rq _ hs
    cases ht'

/-- If `gen_start_io` does not sleep, nobody waits for the semaphore of the queue. -/
theorem queue_nil (hio : st.sems.state none ≠ .sleeping) : W .queue = [] := by
  refine List.eq_nil_iff_forall_not_mem.mpr fun x hx => hio ?_
  obtain ⟨rfl, -⟩ := hS.ioWaits x hx
  exact (hS.queues.asleep none).mpr ⟨_, hx⟩

/-- A request that its thread waits for without sleeping is served. -/
theorem served_of_slept (hrq : (st.user t).rq = some rq) (hslept : (st.user t).slept = 1)
    (ht : st.sems.state (some t) ≠ .sleeping) : st.serial rq ∈ st.served := by
  by_contra hnot
  have hval := hS.lockValue t rq hrq
  rw [if_neg hnot, hslept] at hval
  have hlen := hS.queues.length (.lock rq)
  obtain ⟨x, hx⟩ : ∃ x, x ∈ W (.lock rq) := List.exists_mem_of_ne_nil _ fun h => by
    rw [h, List.length_nil] at hlen
    omega
  obtain ⟨t', rfl, hu⟩ := hS.lockWaits rq x hx
  obtain rfl := hS.ownInj t' t rq (by simp [hu]) hrq
  exact ht ((hS.queues.asleep _).mpr ⟨_, hx⟩)

theorem served_of_returned (ht : st.user t = .returned rq) : st.serial rq ∈ st.served :=
  hS.served_of_slept (t := t) (by simp [ht]) (by simp [ht]) (hS.awake (by simp [ht]))

/-- Past `sem_wait`, the queue is not empty. -/
theorem queue_ne_nil (hio : st.io = .waiting) (hs : st.sems.state none ≠ .sleeping) : Q ≠ [] := by
  rintro rfl
  have hlen := hS.queues.length .queue
  obtain ⟨P, hP, hvalue⟩ := hS.tokens
  rw [hS.queue_nil hs, List.length_nil] at hlen
  simp only [hio, IoThread.tokens, List.length_nil] at hvalue
  omega

theorem bio {bs bs' : List Bio} (hio : st.io = .serving rq bs) (processed : ℕ → List Bio) :
    Synced { st with io := .serving rq bs', processed := processed } W Q := by
  refine ⟨hS.queues, fun x hx => ?_, ?_, hS.ownLive, hS.ownInj, hS.lockValue, hS.lockWaits⟩
  · simpa [hio] using (hS.ioWaits x hx).2
  · simpa [hio] using hS.tokens

theorem elsewhere {m : SemState (RqSem α) (Option τ)} (hm : Elsewhere st.sems m) :
    Synced { st with sems := m } W Q :=
  ⟨hS.queues.elsewhere hm, hS.ioWaits, by simpa only [hm.sem] using hS.tokens, hS.ownLive,
    hS.ownInj, by simpa only [hm.sem] using hS.lockValue, hS.lockWaits⟩

/-- The others that sleep on a request are not concerned with what a thread does. -/
theorem lockWaits_update [DecidableEq τ] (ht : ∀ rq, st.user t ≠ .sleeping rq) (u : Requester α)
    (rq : α) (x : Option τ) (hx : x ∈ W (.lock rq)) :
    ∃ t', x = some t' ∧ Function.update st.user t u t' = .sleeping rq := by
  obtain ⟨t', rfl, hu⟩ := hS.lockWaits rq x hx
  have ht' : t' ≠ t := by
    rintro rfl
    exact ht rq hu
  exact ⟨t', rfl, by rwa [Function.update_of_ne ht']⟩

variable [DecidableEq τ]

/-- A thread goes on to `u` with its request; the waiters are those who sleep on a request. -/
theorem advance {u : Requester α} (hu : u.rq = (st.user t).rq)
    {sems : SemState (RqSem α) (Option τ)} {W' : RqSem α → List (Option τ)} (hQ : Queues sems W')
    (hio : ∀ x ∈ W' .queue, x = none ∧ st.io = .waiting)
    (htokens : ∃ P : Finset τ,
      (∀ t', t' ∈ P ↔ ∃ rq, Function.update st.user t u t' = .appended rq) ∧
      (sems.sem .queue).value.toInt = Q.length - P.card - st.io.tokens)
    (hvalue : ∀ rq, (st.user t).rq = some rq →
      (sems.sem (.lock rq)).value.toInt = (if st.serial rq ∈ st.served then 1 else 0) - u.slept)
    (hother : ∀ rq, (st.user t).rq ≠ some rq →
      (sems.sem (.lock rq)).value = (st.sems.sem (.lock rq)).value)
    (hwaits : ∀ rq, ∀ x ∈ W' (.lock rq),
      ∃ t', x = some t' ∧ Function.update st.user t u t' = .sleeping rq) :
    Synced { st with sems := sems, user := Function.update st.user t u } W' Q := by
  refine ⟨hQ, hio, htokens, fun t' rq' h => ?_, fun t₁ t₂ rq' h₁ h₂ => ?_, fun t' rq' h => ?_,
    hwaits⟩
  · exact hS.ownLive t' rq' (by rwa [← rq_update hu])
  · exact hS.ownInj t₁ t₂ rq' (by rwa [← rq_update hu]) (by rwa [← rq_update hu])
  · have h' : (st.user t').rq = some rq' := by rwa [← rq_update hu]
    by_cases ht : t' = t
    · subst ht
      simpa using hvalue rq' h'
    · have hne : (st.user t).rq ≠ some rq' := fun h => ht (hS.ownInj t' t rq' h' h)
      simpa [hother rq' hne, ht] using hS.lockValue t' rq' h'

private theorem tokens_update {u : Requester α} (ht : ∀ rq, st.user t ≠ .appended rq)
    (hu : ∀ rq, u ≠ .appended rq) :
    ∃ P : Finset τ, (∀ t', t' ∈ P ↔ ∃ rq, Function.update st.user t u t' = .appended rq) ∧
      (st.sems.sem .queue).value.toInt = Q.length - P.card - st.io.tokens := by
  obtain ⟨P, hP, hvalue⟩ := hS.tokens
  refine ⟨P, fun t' => ?_, hvalue⟩
  rw [hP]
  by_cases h : t' = t
  · subst h
    simp [ht, hu]
  · simp [h]

theorem wake (ht : st.user t = .sleeping rq) (hs : st.sems.state (some t) ≠ .sleeping) :
    Synced { st with user := Function.update st.user t (.returned rq) } W Q := by
  refine hS.advance (by simp [ht]) hS.queues hS.ioWaits
    (hS.tokens_update (by simp [ht]) (by simp)) (fun rq' h => ?_) (fun _ _ => rfl)
    fun rq' x hx => ?_
  · have := hS.lockValue t rq' h
    rw [this, ht]
    rfl
  · obtain ⟨t', rfl, hu⟩ := hS.lockWaits rq' x hx
    have ht' : t' ≠ t := by
      rintro rfl
      exact hs ((hS.queues.asleep _).mpr ⟨_, hx⟩)
    exact ⟨t', rfl, by simpa [ht'] using hu⟩

variable [DecidableEq α]

theorem make (hO : Ordered st Q) (ht : st.user t = .idle) (hrq : st.live rq = false)
    (bio : List Bio) :
    Synced { makeRequest st rq bio with user := Function.update st.user t (.appended rq) } W
      (Q ++ [rq]) := by
  have hne {t' : τ} {rq' : α} (h : (st.user t').rq = some rq') : rq' ≠ rq := by
    rintro rfl
    simpa [hrq] using hS.ownLive t' rq' h
  have hW : W (.lock rq) = [] := by
    refine List.eq_nil_iff_forall_not_mem.mpr fun x hx => ?_
    obtain ⟨t', -, hu⟩ := hS.lockWaits rq x hx
    have h : (st.user t').rq = some rq := by simp [hu]
    exact hne h rfl
  refine ⟨hS.queues.init hW le_rfl, hS.ioWaits, ?_, fun t' rq' h => ?_, fun t₁ t₂ rq' h₁ h₂ => ?_,
    fun t' rq' h => ?_, fun rq' x hx => ?_⟩
  · obtain ⟨P, hP, hval⟩ := hS.tokens
    have htP : t ∉ P := by simp [hP, ht]
    refine ⟨insert t P, fun t' => ?_, ?_⟩
    · rcases eq_or_ne t' t with rfl | h
      · simp
      · simp [h, hP]
    · simp only [makeRequest, requestAlloc, rqAppend, semInit, List.length_append,
        List.length_singleton, Finset.card_insert_of_notMem htP]
      rw [Function.update_of_ne (by simp), hval]
      omega
  · simp only [makeRequest, requestAlloc, rqAppend]
    rcases eq_or_ne t' t with rfl | ht'
    · obtain rfl : rq = rq' := by simpa using h
      simp
    · have h' : (st.user t').rq = some rq' := by simpa [ht'] using h
      simpa [hne h'] using hS.ownLive t' rq' h'
  · by_cases ht₁ : t₁ = t <;> by_cases ht₂ : t₂ = t
    · exact ht₁.trans ht₂.symm
    · obtain rfl : rq = rq' := by simpa [ht₁] using h₁
      have h : (st.user t₂).rq = some rq := by simpa [ht₂] using h₂
      exact absurd rfl (hne h)
    · obtain rfl : rq = rq' := by simpa [ht₂] using h₂
      have h : (st.user t₁).rq = some rq := by simpa [ht₁] using h₁
      exact absurd rfl (hne h)
    · exact hS.ownInj t₁ t₂ rq' (by simpa [ht₁] using h₁) (by simpa [ht₂] using h₂)
  · simp only [makeRequest, requestAlloc, rqAppend, semInit]
    rcases eq_or_ne t' t with rfl | ht'
    · obtain rfl : rq = rq' := by simpa using h
      have hnot : st.chains.length ∉ st.served := fun h => (hO.lt_of_mem_served h).ne rfl
      simp [hnot]
    · have h' : (st.user t').rq = some rq' := by simpa [ht'] using h
      simpa [hne h', ht'] using hS.lockValue t' rq' h'
  · exact hS.lockWaits_update (by simp [ht]) _ rq' x hx

theorem signal (ht : st.user t = .appended rq) {w : Option (Option τ)}
    {m : SemState (RqSem α) (Option τ)} (hm : semSignal st.sems .queue = some (w, m)) :
    ∃ W', Synced { st with sems := m, user := Function.update st.user t (.signalled rq) } W' Q := by
  obtain ⟨l, hW, hval, hsem, hQ⟩ := hS.queues.signal_ok hm
  refine ⟨_, hS.advance (by simp [ht]) hQ (fun x hx => hS.ioWaits x ?_) ?_ (fun rq' h => ?_)
    (fun rq' h => by rw [hsem _ (by simp)]) fun rq' x hx => ?_⟩
  · rw [hW]
    exact List.mem_append_right _ (by simpa using hx)
  · obtain ⟨P, hP, hvalue⟩ := hS.tokens
    have htP : t ∈ P := (hP t).mpr ⟨rq, ht⟩
    refine ⟨P.erase t, fun t' => ?_, ?_⟩
    · by_cases h : t' = t
      · subst h
        simp
      · simp [h, hP]
    · have := Finset.card_pos.mpr ⟨t, htP⟩
      rw [hval, hvalue, Finset.card_erase_of_mem htP]
      omega
  · have := hS.lockValue t rq' h
    rw [hsem _ (by simp), this, ht]
    rfl
  · rw [Function.update_of_ne (by simp)] at hx
    exact hS.lockWaits_update (by simp [ht]) _ rq' x hx

theorem sleepOn (ht : st.user t = .signalled rq) :
    ∃ W', Synced
      { st with
        sems := semWait st.sems (.lock rq) (some t)
        user := Function.update st.user t (.sleeping rq) } W' Q := by
  have hawake := hS.awake (t := t) (by simp [ht])
  have hlock := hS.lockValue t rq (by simp [ht])
  have htokens := hS.tokens_update (t := t) (u := .sleeping rq) (by simp [ht]) (by simp)
  have hwaits := hS.lockWaits_update (t := t) (by simp [ht]) (.sleeping rq)
  simp only [ht, Requester.slept, sub_zero] at hlock
  by_cases hserved : st.serial rq ∈ st.served
  · rw [if_pos hserved] at hlock
    obtain ⟨-, hval, hsem, hQ⟩ := hS.queues.wait_pass (s := .lock rq) (some t) (by omega)
    refine ⟨W, hS.advance (by simp [ht]) hQ hS.ioWaits ?_ (fun rq' h => ?_)
      (fun rq' h => ?_) hwaits⟩
    · rwa [hsem _ (by simp)]
    · obtain rfl : rq = rq' := by simpa [ht] using h
      rw [hval, hlock, if_pos hserved]
      rfl
    · rw [hsem _ (by simpa [ht, eq_comm] using h)]
  · rw [if_neg hserved] at hlock
    obtain ⟨-, hval, hsem, hQ⟩ := hS.queues.wait_block hawake hlock.le (by omega)
    refine ⟨_, hS.advance (by simp [ht]) hQ (fun x hx => hS.ioWaits x ?_) ?_ (fun rq' h => ?_)
      (fun rq' h => ?_) fun rq' x hx => ?_⟩
    · rwa [Function.update_of_ne (by simp)] at hx
    · rwa [hsem _ (by simp)]
    · obtain rfl : rq = rq' := by simpa [ht] using h
      rw [hval, hlock, if_neg hserved]
      rfl
    · rw [hsem _ (by simpa [ht, eq_comm] using h)]
    · by_cases hrq : rq' = rq
      · subst hrq
        rw [Function.update_self, List.mem_append, List.mem_singleton] at hx
        rcases hx with hx | rfl
        · exact hwaits rq' x hx
        · exact ⟨t, rfl, by simp⟩
      · rw [Function.update_of_ne (by simpa using hrq)] at hx
        exact hwaits rq' x hx

theorem rqDel (ht : st.user t = .returned rq) :
    Synced
      { st with
        live := Function.update st.live rq false
        user := Function.update st.user t .idle } W Q := by
  have hown {t' : τ} {rq' : α} (h : (Function.update st.user t .idle t').rq = some rq') :
      t' ≠ t ∧ (st.user t').rq = some rq' := by
    by_cases ht' : t' = t
    · simp [ht'] at h
    · exact ⟨ht', by simpa [ht'] using h⟩
  refine ⟨hS.queues, hS.ioWaits, hS.tokens_update (by simp [ht]) (by simp), fun t' rq' h => ?_,
    fun t₁ t₂ rq' h₁ h₂ => hS.ownInj t₁ t₂ rq' (hown h₁).2 (hown h₂).2, fun t' rq' h => ?_,
    fun rq' x hx => ?_⟩
  · obtain ⟨ht', hrq'⟩ := hown h
    have hne : rq' ≠ rq := by
      rintro rfl
      exact ht' (hS.ownInj t' t rq' hrq' (by simp [ht]))
    simpa [hne] using hS.ownLive t' rq' hrq'
  · obtain ⟨ht', hrq'⟩ := hown h
    simpa [ht'] using hS.lockValue t' rq' hrq'
  · exact hS.lockWaits_update (by simp [ht]) _ rq' x hx

theorem ioWait (hio : st.io = .loop) :
    ∃ W', Synced { st with sems := semWait st.sems .queue none, io := .waiting } W' Q := by
  have hawake := hS.io_awake (by simp [hio])
  have hlen := hS.queues.length .queue
  obtain ⟨P, hP, hvalue⟩ := hS.tokens
  rw [hS.queue_nil hawake, List.length_nil] at hlen
  simp only [hio, IoThread.tokens, sub_zero] at hvalue
  by_cases hpos : 0 < (st.sems.sem .queue).value.toInt
  · obtain ⟨-, hval, hsem, hQ⟩ := hS.queues.wait_pass none hpos
    refine ⟨W, hQ, fun x hx => ?_, ⟨P, hP, ?_⟩, hS.ownLive, hS.ownInj, fun t' rq' h => ?_,
      hS.lockWaits⟩
    · simp [hS.queue_nil hawake] at hx
    · rw [hval, hvalue]
      rfl
    · rw [hsem _ (by simp)]
      exact hS.lockValue t' rq' h
  · obtain ⟨-, hval, hsem, hQ⟩ := hS.queues.wait_block hawake (not_lt.mp hpos) (by omega)
    refine ⟨_, hQ, fun x hx => ?_, ⟨P, hP, ?_⟩, hS.ownLive, hS.ownInj, fun t' rq' h => ?_,
      fun rq' x hx => ?_⟩
    · exact ⟨by simpa [hS.queue_nil hawake] using hx, rfl⟩
    · rw [hval, hvalue]
      rfl
    · rw [hsem _ (by simp)]
      exact hS.lockValue t' rq' h
    · rw [Function.update_of_ne (by simp)] at hx
      exact hS.lockWaits rq' x hx

theorem wakeUp (hO : Ordered st Q) (hio : st.io = .serving rq []) {w : Option (Option τ)}
    {m : SemState (RqSem α) (Option τ)} (hm : semSignal st.sems (.lock rq) = some (w, m)) :
    ∃ W', Synced { st with sems := m, io := .loop, served := st.served ++ [st.serial rq] }
      W' Q := by
  obtain ⟨l, hW, hval, hsem, hQ⟩ := hS.queues.signal_ok hm
  have hcur : rq ∈ st.io.current ++ Q := by simp [hio]
  refine ⟨_, hQ, fun x hx => ?_, ?_, hS.ownLive, hS.ownInj, fun t' rq' h => ?_, fun rq' x hx => ?_⟩
  · rw [Function.update_of_ne (by simp)] at hx
    simpa [hio] using (hS.ioWaits x hx).2
  · rw [hsem _ (by simp)]
    simpa [hio] using hS.tokens
  · have hlock := hS.lockValue t' rq' h
    by_cases hrq : rq' = rq
    · subst hrq
      rw [if_neg (hO.notMem_served hcur)] at hlock
      rw [hval, hlock, if_pos (by simp)]
      dsimp only
      omega
    · rw [hsem _ (by simpa using hrq), hlock]
      have hne : st.serial rq' ≠ st.serial rq := fun e =>
        hrq (hO.inj rq' rq (hS.ownLive t' rq' h) (hO.live rq hcur) e)
      simp [hne]
  · refine hS.lockWaits rq' x ?_
    by_cases hrq : rq' = rq
    · subst hrq
      rw [hW]
      exact List.mem_append_right _ (by simpa using hx)
    · rwa [Function.update_of_ne (by simpa using hrq)] at hx

end Synced

theorem Synced.take (hS : Synced st W (rq :: Q)) (hio : st.io = .waiting)
    (hs : st.sems.state none ≠ .sleeping) (links : Links (RqNode α)) :
    Synced { st with links := links, io := .serving rq (st.bio rq) } W Q := by
  refine ⟨hS.queues, fun x hx => ?_, ?_, hS.ownLive, hS.ownInj, hS.lockValue, hS.lockWaits⟩
  · simp [hS.queue_nil hs] at hx
  · obtain ⟨P, hP, hvalue⟩ := hS.tokens
    refine ⟨P, hP, ?_⟩
    simp only [hio, IoThread.tokens, List.length_cons] at hvalue ⊢
    omega

/-! ### Runs -/

variable [DecidableEq α]

/-- The invariant of the protocol. -/
def RqInv (st : RqState α τ) : Prop := ∃ W Q, Ordered st Q ∧ Synced st W Q

/-- What the protocol guarantees in a state. -/
structure RequestProtocol (st : RqState α τ) : Prop where
  /-- Past `sem_wait`, `get_next_rq` does not return `NULL`. -/
  found : st.io = .waiting → st.sems.state none ≠ .sleeping → (getNextRq st).1.isSome
  /-- The requests served so far are the first ones appended, each once and in order. -/
  inOrder : st.served = List.range st.served.length ∧ st.served.length ≤ st.chains.length
  /-- Whoever has returned from `sleep_on` has had its whole chain processed. -/
  complete : ∀ t rq, st.user t = .returned rq → st.serial rq ∈ st.served ∧
    st.chains[st.serial rq]? = some (st.processed (st.serial rq))
  /-- When `gen_start_io` sleeps and nobody is about to signal, nothing is left to serve. -/
  noneLeft : st.sems.state none = .sleeping → (∀ t rq, st.user t ≠ .appended rq) →
    ∀ t rq, (st.user t).rq = some rq → st.serial rq ∈ st.served

theorem RqInv.protocol (hI : RqInv st) : RequestProtocol st := by
  obtain ⟨W, Q, hO, hS⟩ := hI
  refine ⟨fun hio hs => ?_, ?_, fun t rq ht => ?_, fun hs hnone t rq hrq => ?_⟩
  · obtain ⟨rq, Q', rfl⟩ := List.exists_cons_of_ne_nil (hS.queue_ne_nil hio hs)
    simp [hO.getNextRq_cons.1]
  · have hlen := congrArg List.length hO.order
    have htake := congrArg (List.take st.served.length) hO.order
    simp only [List.length_append, List.length_range] at hlen
    rw [List.take_left', List.take_range, min_eq_left (by omega)] at htake
    · exact ⟨htake, by omega⟩
    · rfl
  · have hserved := hS.served_of_returned ht
    exact ⟨hserved, hO.done _ hserved⟩
  · -- the semaphore is at −1, so the queue is empty and no request is in service
    have hio : st.io = .waiting := by
      by_contra hne
      exact hS.io_awake hne hs
    obtain ⟨P, hP, hvalue⟩ := hS.tokens
    have hlen := hS.queues.length .queue
    have hW : 0 < (W .queue).length := by
      refine List.length_pos_of_ne_nil fun hnil => ?_
      obtain ⟨s, hmem⟩ := (hS.queues.asleep none).mp hs
      cases s with
      | queue => simp [hnil] at hmem
      | lock rq =>
        obtain ⟨t', ht', -⟩ := hS.lockWaits rq none hmem
        cases ht'
    have hP0 : P.card = 0 := by
      refine Finset.card_eq_zero.mpr (Finset.eq_empty_of_forall_notMem fun t' ht' => ?_)
      obtain ⟨rq', hrq'⟩ := (hP t').mp ht'
      exact hnone t' rq' hrq'
    have hQ : Q = [] := by
      rw [← List.length_eq_zero_iff]
      simp only [hio, IoThread.tokens] at hvalue
      omega
    have hlt := hO.lt rq (hS.ownLive t rq hrq)
    rw [← List.mem_range, ← hO.order] at hlt
    simpa [hio, hQ] using hlt

variable [DecidableEq τ]

theorem RqInv.start (h : st.Started) : RqInv st := by
  obtain ⟨hsem, hQ⟩ := Queues.of_init (m := st.sems) (v := fun _ => 0)
    (fun s => s.casesOn h.queue h.locks) (fun _ => le_rfl) h.awake
  have hlink : st.links.next .rqList = .rqList ∧ st.links.prev .rqList = .rqList := by
    rw [← h.links]
    simp [initListHead_next, initListHead_prev]
  refine ⟨fun _ => [], [], ⟨⟨by simp, hlink⟩, by simp [h.io], by simp [h.live],
    by simp [h.live], ?_,
    by simp, by simp [h.io], fun k _ => h.processed k, by simp [h.served]⟩, hQ, by simp,
    ⟨∅, by simp [h.user], by simp [hsem, h.io]⟩, by simp [h.user], by simp [h.user],
    by simp [h.user], by simp⟩
  simp [h.io, h.served, h.chains]

theorem RqInv.step {e : RqEvent α τ} (hI : RqInv st) (h : RqStep st e st') : RqInv st' := by
  obtain ⟨W, Q, hO, hS⟩ := hI
  cases h with
  | @make t rq _ _ _ bio ht hrq hbio =>
    exact ⟨W, Q ++ [rq], hO.make hrq bio _, hS.make hO ht hrq bio⟩
  | signal ht hm =>
    obtain ⟨W', hS'⟩ := hS.signal ht hm
    exact ⟨W', Q, hO.threads _ _, hS'⟩
  | sleepOn ht =>
    obtain ⟨W', hS'⟩ := hS.sleepOn ht
    exact ⟨W', Q, hO.threads _ _, hS'⟩
  | wake ht hs => exact ⟨W, Q, hO.threads _ _, hS.wake ht hs⟩
  | rqDel ht => exact ⟨W, Q, hO.del (hS.served_of_returned ht) _, hS.rqDel ht⟩
  | ioWait hio =>
    obtain ⟨W', hS'⟩ := hS.ioWait hio
    refine ⟨W', Q, ⟨hO.ring, ?_, hO.lt, hO.inj, ?_, hO.queued, by simp, ?_, hO.done⟩, hS'⟩
    · simpa [hio] using hO.live
    · simpa [hio] using hO.order
    · simpa [hio] using hO.fresh
  | @ioTake rq st' hio hs hrq =>
    obtain ⟨rq', Q', rfl⟩ := List.exists_cons_of_ne_nil (hS.queue_ne_nil hio hs)
    obtain ⟨rfl, rfl⟩ : rq' = rq ∧ _ = st' := by simpa [hO.getNextRq_cons.1] using hrq
    exact ⟨W, Q', hO.take hio, hS.take hio hs _⟩
  | ioBio hio hb => exact ⟨W, Q, hO.bio hio, hS.bio hio _⟩
  | ioStuck hio hb => exact ⟨W, Q, hO, hS⟩
  | ioWakeUp hio hm =>
    obtain ⟨W', hS'⟩ := hS.wakeUp hO hio hm
    exact ⟨W', Q, hO.wakeUp hio _, hS'⟩
  | elsewhere hm => exact ⟨W, Q, hO.threads _ _, hS.elsewhere hm⟩

/-- In every run, whatever the interleaving of the threads, requests are served once and in order.
A thread returns from `sleep_on` when its own request has been processed, and none is left behind
when `gen_start_io` sleeps. -/
theorem requestProtocol_of_reachable (h : Reachable RqState.Started RqStep st) :
    RequestProtocol st :=
  (h.invariant (fun _ h => RqInv.start h) fun _ _ _ hI hs => hI.step hs).protocol

/-- A request queue right after `rq_queue_init`. -/
def RqState.start : RqState α τ :=
  { sems := (SemRun.start fun _ => 0).st
    links := Links.isolated
    live := fun _ => false
    bio := fun _ => []
    user := fun _ => .idle
    io := .loop
    serial := fun _ => 0
    chains := []
    processed := fun _ => []
    served := [] }

theorem RqState.started_start : (RqState.start : RqState α τ).Started := by
  have hsem := (SemRun.started_start (fun _ => 0) : (SemRun.start fun _ => 0 :
    SemRun (RqSem α) (Option τ)).Started _)
  refine ⟨hsem.init _, fun rq => hsem.init _, hsem.awake, ?_, fun _ => rfl, fun _ => rfl, rfl, rfl,
    fun _ => rfl, rfl⟩
  ext x <;> simp [start, initListHead_next, initListHead_prev, Links.isolated, eq_comm]

/-- Two threads make a request each. The first sleeps until it is served, the second comes to
`sleep_on` when it is served already. -/
theorem requestProtocol_two_reads : ∃ st : RqState Bool Bool,
    Reachable RqState.Started RqStep st ∧ st.user true = .returned true ∧
      st.user false = .returned false ∧ st.served = [0, 1] ∧ RequestProtocol st := by
  have h₀ : Reachable RqState.Started RqStep (RqState.start : RqState Bool Bool) :=
    .start RqState.started_start
  have hbio₁ : bioListMake 3 0 8 = .ok [⟨3, 0, 8⟩] := rfl
  have hbio₂ : bioListMake 4 0 8 = .ok [⟨4, 0, 8⟩] := rfl
  have h₁ := h₀.next (a := .make true true 3 0 8) (.make rfl rfl hbio₁)
  have h₂ := h₁.next (a := .make false false 4 0 8) (.make rfl rfl hbio₂)
  have h₃ := h₂.next (.signal (t := true) rfl rfl)
  have h₄ := h₃.next (.sleepOn (t := true) rfl)
  have h₅ := h₄.next (.ioWait rfl)
  have h₆ := h₅.next (.ioTake rfl (by decide) rfl)
  have h₇ := h₆.next (.signal (t := false) rfl rfl)
  have h₈ := h₇.next (.ioBio rfl (by decide))
  have h₉ := h₈.next (.ioWakeUp rfl rfl)
  have h₁₀ := h₉.next (.wake (t := true) rfl (by decide))
  have h₁₁ := h₁₀.next (.ioWait rfl)
  have h₁₂ := h₁₁.next (.ioTake rfl (by decide) rfl)
  have h₁₃ := h₁₂.next (.ioBio rfl (by decide))
  have h₁₄ := h₁₃.next (.ioWakeUp rfl rfl)
  have h₁₅ := h₁₄.next (.sleepOn (t := false) rfl)
  have h₁₆ := h₁₅.next (.wake (t := false) rfl (by decide))
  exact ⟨_, h₁₆, rfl, rfl, rfl, requestProtocol_of_reachable h₁₆⟩

end RiscvLab.Blk
