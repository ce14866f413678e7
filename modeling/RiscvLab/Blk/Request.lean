import RiscvLab.Blk.Bio
import RiscvLab.Lib.Semaphore

/-!
# The request queue

Threads ask for transfers by appending a request to the queue of the device, signalling the
semaphore of the queue, and sleeping on the lock of the request. A single thread, `gen_start_io`,
waits for the semaphore, takes the first request off the queue, works through its `bio` chain, and
wakes whoever sleeps on the request. The lock of a request is a mutex that starts at zero, so that
it is an event: its `locked` and `thread` fields, which nothing here reads, are left out, and so is
the data that a `bio` moves.

The state carries a history: requests are numbered in the order in which they were appended, with
their chains, the part of each chain worked off, and the numbers of the requests served. Addresses
of requests come from `kmalloc` and are used again after `rq_del`.

`Ordered` says that the history is that of a queue; the steps preserve it.

Source: `kernel/dev/blk/request.c`; `kernel/dev/blk/gendisk.c`, lines 57–147 and 173–203;
`lib/mutex.c`, lines 13–35.
-/

namespace RiscvLab.Blk

open Library

/-- The semaphores of a device: that of the queue, and that in the lock of each request. -/
inductive RqSem (α : Type*)
  | queue
  | lock (rq : α)
  deriving DecidableEq

/-- The list nodes of a queue. -/
inductive RqNode (α : Type*)
  | rqList
  | queueNode (rq : α)
  deriving DecidableEq

/-- Where a thread is in `gen_read` or `gen_write`. -/
inductive Requester (α : Type*)
  | idle
  | appended (rq : α)
  | signalled (rq : α)
  | sleeping (rq : α)
  | returned (rq : α)

/-- Where `gen_start_io` is; while it serves a request, with the rest of the chain. -/
inductive IoThread (α : Type*)
  | loop
  | waiting
  | serving (rq : α) (bio : List Bio)

/-- A request queue with its clients. The thread `none` is `gen_start_io`. -/
structure RqState (α τ : Type*) where
  sems : SemState (RqSem α) (Option τ)
  links : Links (RqNode α)
  live : α → Bool
  bio : α → List Bio
  user : τ → Requester α
  io : IoThread α
  serial : α → ℕ
  chains : List (List Bio)
  processed : ℕ → List Bio
  served : List ℕ

variable {α τ : Type*}

section

variable [DecidableEq α] [DecidableEq τ]

/-- `request_alloc` with the address that `kmalloc` returns. -/
def requestAlloc (st : RqState α τ) (rq : α) : RqState α τ :=
  { st with
    live := Function.update st.live rq true
    links := initListHead st.links (.queueNode rq)
    bio := Function.update st.bio rq []
    sems := semInit st.sems (.lock rq) 0 }

/-- `rq_append`. -/
def rqAppend (st : RqState α τ) (rq : α) : RqState α τ :=
  { st with links := listAddTail st.links (.queueNode rq) .rqList }

/-- `make_request`, for the chain that `bio_list_make` returns. -/
def makeRequest (st : RqState α τ) (rq : α) (bio : List Bio) : RqState α τ :=
  let st := requestAlloc st rq
  rqAppend
    { st with
      bio := Function.update st.bio rq bio
      serial := Function.update st.serial rq st.chains.length
      chains := st.chains ++ [bio] } rq

/-- `get_next_rq`. -/
def getNextRq (st : RqState α τ) : Option α × RqState α τ :=
  match listPop st.links .rqList with
  | (some (.queueNode rq), links) => (some rq, { st with links := links })
  | (_, links) => (none, { st with links := links })

/-- The steps of the threads. -/
inductive RqEvent (α τ : Type*)
  | make (t : τ) (rq : α) (blockno offset len : ℕ)
  | signal (t : τ)
  | sleepOn (t : τ)
  | wake (t : τ)
  | rqDel (t : τ)
  | ioWait
  | ioTake
  | ioBio
  | ioWakeUp
  | elsewhere

/-- One step. A thread that waits for a semaphore goes on when it does not sleep any more. -/
inductive RqStep : RqState α τ → RqEvent α τ → RqState α τ → Prop
  | make {st t rq blockno offset len bio} (ht : st.user t = .idle) (hrq : st.live rq = false)
      (hbio : bioListMake blockno offset len = .ok bio) :
      RqStep st (.make t rq blockno offset len)
        { makeRequest st rq bio with user := Function.update st.user t (.appended rq) }
  | signal {st t rq w m} (ht : st.user t = .appended rq)
      (hm : semSignal st.sems .queue = some (w, m)) :
      RqStep st (.signal t)
        { st with sems := m, user := Function.update st.user t (.signalled rq) }
  | sleepOn {st t rq} (ht : st.user t = .signalled rq) :
      RqStep st (.sleepOn t)
        { st with
          sems := semWait st.sems (.lock rq) (some t)
          user := Function.update st.user t (.sleeping rq) }
  | wake {st t rq} (ht : st.user t = .sleeping rq) (hs : st.sems.state (some t) ≠ .sleeping) :
      RqStep st (.wake t) { st with user := Function.update st.user t (.returned rq) }
  | rqDel {st t rq} (ht : st.user t = .returned rq) :
      RqStep st (.rqDel t)
        { st with
          live := Function.update st.live rq false
          user := Function.update st.user t .idle }
  | ioWait {st} (hio : st.io = .loop) :
      RqStep st .ioWait { st with sems := semWait st.sems .queue none, io := .waiting }
  | ioTake {st rq st'} (hio : st.io = .waiting) (hs : st.sems.state none ≠ .sleeping)
      (hrq : getNextRq st = (some rq, st')) :
      RqStep st .ioTake { st' with io := .serving rq (st.bio rq) }
  | ioBio {st rq b bs} (hio : st.io = .serving rq (b :: bs)) (hb : b.len ≠ 0) :
      RqStep st .ioBio
        { st with
          io := .serving rq bs
          processed :=
            Function.update st.processed (st.serial rq) (st.processed (st.serial rq) ++ [b]) }
  -- `continue` without advancing: the loop does not leave a segment of length zero
  | ioStuck {st rq b bs} (hio : st.io = .serving rq (b :: bs)) (hb : b.len = 0) :
      RqStep st .ioBio st
  | ioWakeUp {st rq w m} (hio : st.io = .serving rq [])
      (hm : semSignal st.sems (.lock rq) = some (w, m)) :
      RqStep st .ioWakeUp
        { st with sems := m, io := .loop, served := st.served ++ [st.serial rq] }
  | elsewhere {st m} (hm : Elsewhere st.sems m) : RqStep st .elsewhere { st with sems := m }

/-- After `rq_queue_init`, before the first request. The locks of requests to come, which
`request_alloc` initialises, are taken to be in that state already. -/
structure RqState.Started (st : RqState α τ) : Prop where
  queue : semInit st.sems .queue 0 = st.sems
  locks : ∀ rq, semInit st.sems (.lock rq) 0 = st.sems
  awake : ∀ t, st.sems.state t ≠ .sleeping
  links : initListHead st.links .rqList = st.links
  live : ∀ rq, st.live rq = false
  user : ∀ t, st.user t = .idle
  io : st.io = .loop
  chains : st.chains = []
  processed : ∀ k, st.processed k = []
  served : st.served = []

end

/-! ### The invariant -/

/-- The request in service. -/
@[simp]
def IoThread.current : IoThread α → List α
  | .serving rq _ => [rq]
  | _ => []

variable {st : RqState α τ} {Q : List α} {rq : α}

/-- The queue holds the requests `Q`, and the history is that of requests served in order. -/
structure Ordered (st : RqState α τ) (Q : List α) : Prop where
  ring : IsRing st.links .rqList (Q.map .queueNode)
  live : ∀ rq ∈ st.io.current ++ Q, st.live rq = true
  lt : ∀ rq, st.live rq = true → st.serial rq < st.chains.length
  inj : ∀ rq rq', st.live rq = true → st.live rq' = true → st.serial rq = st.serial rq' → rq = rq'
  order : st.served ++ (st.io.current ++ Q).map st.serial = List.range st.chains.length
  queued : ∀ rq ∈ Q, st.chains[st.serial rq]? = some (st.bio rq)
  serving : ∀ rq bs, st.io = .serving rq bs →
    st.chains[st.serial rq]? = some (st.processed (st.serial rq) ++ bs)
  fresh : ∀ k, k ∉ st.served ++ st.io.current.map st.serial → st.processed k = []
  done : ∀ k ∈ st.served, st.chains[k]? = some (st.processed k)

namespace Ordered

/-- Requests in service or in the queue are not served yet. -/
theorem notMem_served (hO : Ordered st Q) (hrq : rq ∈ st.io.current ++ Q) :
    st.serial rq ∉ st.served := by
  have hnd : (st.served ++ (st.io.current ++ Q).map st.serial).Nodup :=
    hO.order ▸ List.nodup_range
  intro h
  exact (List.nodup_append.mp hnd).2.2 _ h _ (List.mem_map_of_mem hrq) rfl

/-- The order does not depend on where the threads are. -/
theorem threads (hO : Ordered st Q) (sems : SemState (RqSem α) (Option τ))
    (user : τ → Requester α) : Ordered { st with sems := sems, user := user } Q :=
  ⟨hO.ring, hO.live, hO.lt, hO.inj, hO.order, hO.queued, hO.serving, hO.fresh, hO.done⟩

theorem lt_of_mem_served (hO : Ordered st Q) {k : ℕ} (hk : k ∈ st.served) :
    k < st.chains.length := by
  have : k ∈ st.served ++ (st.io.current ++ Q).map st.serial := List.mem_append_left _ hk
  rwa [hO.order, List.mem_range] at this

theorem bio (hO : Ordered st Q) {b : Bio} {bs : List Bio} (hio : st.io = .serving rq (b :: bs)) :
    Ordered
      { st with
        io := .serving rq bs
        processed :=
          Function.update st.processed (st.serial rq) (st.processed (st.serial rq) ++ [b]) } Q := by
  have hnot : st.serial rq ∉ st.served := hO.notMem_served (by simp [hio])
  refine ⟨hO.ring, by simpa [hio] using hO.live, hO.lt, hO.inj, by simpa [hio] using hO.order,
    hO.queued, fun rq' bs' h => ?_, fun k hk => ?_, fun k hk => ?_⟩
  · cases h
    simpa using hO.serving rq _ hio
  · have hne : k ≠ st.serial rq := by
      rintro rfl
      simp at hk
    simpa [hne] using hO.fresh k (by simpa [hio] using hk)
  · have hne : k ≠ st.serial rq := by
      rintro rfl
      exact hnot hk
    simpa [hne] using hO.done k hk

theorem wakeUp (hO : Ordered st Q) (hio : st.io = .serving rq [])
    (sems : SemState (RqSem α) (Option τ)) :
    Ordered { st with sems := sems, io := .loop, served := st.served ++ [st.serial rq] } Q := by
  refine ⟨hO.ring, fun rq' h => hO.live rq' (List.mem_append_right _ h), hO.lt, hO.inj,
    by simpa [hio] using hO.order, hO.queued, fun rq' bs h => ?_, fun k hk => ?_, fun k hk => ?_⟩
  · cases h
  · exact hO.fresh k (by simpa [hio] using hk)
  · rcases List.mem_append.mp hk with hk | hk
    · exact hO.done k hk
    · obtain rfl := List.mem_singleton.mp hk
      simpa using hO.serving rq [] hio

variable [DecidableEq α]

/-- `get_next_rq` takes the first request off the queue. -/
theorem getNextRq_cons (hO : Ordered st (rq :: Q)) :
    getNextRq st = (some rq, { st with links := listDel st.links (.queueNode rq) }) ∧
      IsRing (listDel st.links (.queueNode rq)) .rqList (Q.map .queueNode) := by
  obtain ⟨hpop, hring⟩ := hO.ring.pop_map
  exact ⟨by rw [getNextRq, hpop], hring⟩

theorem take (hO : Ordered st (rq :: Q)) (hio : st.io = .waiting) :
    Ordered { st with links := listDel st.links (.queueNode rq), io := .serving rq (st.bio rq) }
      Q := by
  have hcur : st.io.current = [] := by rw [hio]; rfl
  have hlive := hO.live
  have horder := hO.order
  have hfresh := hO.fresh
  rw [hcur, List.nil_append] at hlive horder
  simp only [hcur, List.map_nil, List.append_nil] at hfresh
  have hnew : st.processed (st.serial rq) = [] :=
    hfresh _ (hO.notMem_served (by simp))
  refine ⟨hO.getNextRq_cons.2, hlive, hO.lt, hO.inj, horder,
    fun rq' h => hO.queued rq' (by simp [h]), fun rq' bs h => ?_,
    fun k hk => hfresh k fun h => hk (List.mem_append_left _ h), hO.done⟩
  cases h
  simp only [hnew, List.nil_append]
  exact hO.queued rq List.mem_cons_self

theorem del (hO : Ordered st Q) (hrq : st.serial rq ∈ st.served) (user : τ → Requester α) :
    Ordered { st with live := Function.update st.live rq false, user := user } Q := by
  have hlive {rq' : α} (h : Function.update st.live rq false rq' = true) : st.live rq' = true := by
    rw [Function.update_apply] at h
    split_ifs at h
    exact h
  refine ⟨hO.ring, fun rq' h => ?_, fun rq' h => hO.lt rq' (hlive h),
    fun rq₁ rq₂ h₁ h₂ => hO.inj rq₁ rq₂ (hlive h₁) (hlive h₂), hO.order, hO.queued, hO.serving,
    hO.fresh, hO.done⟩
  have hne : rq' ≠ rq := by
    rintro rfl
    exact hO.notMem_served h hrq
  simpa [hne] using hO.live rq' h

theorem make [DecidableEq τ] (hO : Ordered st Q) (hrq : st.live rq = false) (bio : List Bio)
    (user : τ → Requester α) :
    Ordered { makeRequest st rq bio with user := user } (Q ++ [rq]) := by
  have hne {rq' : α} (h : st.live rq' = true) : rq' ≠ rq := by
    rintro rfl
    simp [hrq] at h
  have hserial {rq' : α} (h : st.live rq' = true) :
      Function.update st.serial rq st.chains.length rq' = st.serial rq' :=
    Function.update_of_ne (hne h) ..
  have hmap {l : List α} (h : ∀ rq' ∈ l, st.live rq' = true) :
      l.map (Function.update st.serial rq st.chains.length) = l.map st.serial :=
    List.map_congr_left fun rq' hrq' => hserial (h rq' hrq')
  have hcur : ∀ rq' ∈ st.io.current, st.live rq' = true :=
    fun rq' h => hO.live rq' (List.mem_append_left _ h)
  have hQ : ∀ rq' ∈ Q, st.live rq' = true := fun rq' h => hO.live rq' (List.mem_append_right _ h)
  have hnode : RqNode.queueNode rq ∉ .rqList :: Q.map .queueNode := by
    simpa using fun h => hne (hQ rq h) rfl
  refine ⟨(hO.ring.init hnode).addTail_map hnode, fun rq' h => ?_, fun rq' h => ?_,
    fun rq₁ rq₂ h₁ h₂ h => ?_, ?_, fun rq' h => ?_, fun rq' bs h => ?_, fun k hk => ?_,
    fun k hk => ?_⟩
  · simp only [makeRequest, requestAlloc, rqAppend, Function.update_apply]
    split_ifs with heq
    · rfl
    · exact hO.live rq' (by simpa [heq, makeRequest, requestAlloc, rqAppend] using h)
  · simp only [makeRequest, requestAlloc, rqAppend, Function.update_apply] at h ⊢
    rw [List.length_append, List.length_singleton]
    split_ifs at h ⊢ with heq
    · omega
    · have := hO.lt rq' h
      omega
  · simp only [makeRequest, requestAlloc, rqAppend, Function.update_apply] at h h₁ h₂
    split_ifs at h h₁ h₂ with heq₁ heq₂ heq₂
    · rw [heq₁, heq₂]
    · have := hO.lt rq₂ h₂
      omega
    · have := hO.lt rq₁ h₁
      omega
    · exact hO.inj rq₁ rq₂ h₁ h₂ h
  · simp only [makeRequest, requestAlloc, rqAppend, List.length_append, List.length_singleton,
      List.range_succ, ← hO.order, List.map_append, List.map_singleton, Function.update_self,
      hmap hcur, hmap hQ, List.append_assoc]
  · simp only [makeRequest, requestAlloc, rqAppend]
    rcases List.mem_append.mp h with h | h
    · rw [hserial (hQ rq' h), Function.update_of_ne (hne (hQ rq' h)),
        Function.update_of_ne (hne (hQ rq' h)),
        List.getElem?_append_left (hO.lt rq' (hQ rq' h))]
      exact hO.queued rq' h
    · obtain rfl := List.mem_singleton.mp h
      simp
  · have hlive : st.live rq' = true := by
      refine hcur rq' ?_
      have hio : st.io = .serving rq' bs := h
      simp [hio, IoThread.current]
    simp only [makeRequest, requestAlloc, rqAppend]
    rw [hserial hlive, List.getElem?_append_left (hO.lt rq' hlive)]
    exact hO.serving rq' bs h
  · simp only [makeRequest, requestAlloc, rqAppend, hmap hcur] at hk
    exact hO.fresh k hk
  · simp only [makeRequest, requestAlloc, rqAppend]
    rw [List.getElem?_append_left (hO.lt_of_mem_served hk)]
    exact hO.done k hk

end Ordered

end RiscvLab.Blk
