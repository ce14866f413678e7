import Mathlib.Logic.Relation
import RiscvLab.Lib.Mutex

/-!
# The work queue of a CPU

`work_queue_push` runs in the timer interrupt: it appends a `work_struct` to a list, counts it, and
signals a semaphore. The thread `kthread_work_handler` of the same CPU waits for the semaphore and
takes the first item off the list. Neither of them takes `work_queue.mutex`, and the interrupt may
come between any two stores of `fifo_pop`. Here the calls that run with interrupts off are one step
each: `work_queue_push`, and `sem_wait` up to the point where it returns or sleeps. In `fifo_pop`
each store is a step, and so are the loads before it.

An interrupt between the load and the store of `fifo->size` loses its own count. If the item that is
taken off is the only one, an interrupt between the load of `entry->next` and the store to
`next->prev` loses the new item, as in `exists_lost_work`: `list_del` links the head of the list to
itself. At all other points the interrupt does no harm.

The state carries a history: items are numbered in the order in which they are pushed, and the
numbers of the items that have been popped are listed. Addresses come from `kmalloc` and are used
again.

## Main definitions

* `WorkState`, `WorkStep` : the queue, its handler, and the interrupt.
* `WorkSafe` : what the queue is for.
* `Harmless` : the interrupts that do no harm.

## Main results

* `workSafe_of_reachable`.

Source: `kernel/work.c`; `include/lib/fifo.h`, lines 19–36; `include/lib/list.h`, lines 50–77 and
126–134; `kernel/timer.c`, lines 33–88.
-/

namespace RiscvLab.Kernel

open Library

/-- The list nodes of a work queue. -/
inductive WorkNode (α : Type*)
  | list
  | node (w : α)
  deriving DecidableEq

/-- Where `kthread_work_handler` is: before `sem_wait`, in it, in `fifo_pop` with what it has
loaded, and behind `work_queue_pop` with the result. -/
inductive Handler (α : Type*)
  | loop
  | waiting
  | testEmpty
  | loadSize
  | storeSize (size : BitVec 32)
  | loadFirst
  | loadLinks (w : α)
  | storeNext (w : α) (prev next : WorkNode α)
  | storePrev (w : α) (prev next : WorkNode α)
  | returned (w : Option α)

/-- A work queue with its handler, and the history. -/
structure WorkState (α : Type*) where
  count : SemState Unit Unit
  size : BitVec 32
  links : Links (WorkNode α)
  handler : Handler α
  live : α → Bool
  serial : α → ℕ
  pushed : ℕ
  popped : List ℕ

variable {α : Type*} [DecidableEq α]

/-- `work_alloc` with the address that `kmalloc` returns. -/
def workAlloc (st : WorkState α) (w : α) : WorkState α :=
  { st with
    live := Function.update st.live w true
    links := initListHead st.links (.node w)
    serial := Function.update st.serial w st.pushed
    pushed := st.pushed + 1 }

/-- `work_queue_push` up to `sem_signal`. -/
def workQueuePush (st : WorkState α) (w : α) : WorkState α :=
  let st := workAlloc st w
  let (size, links) := fifoPush st.size st.links .list (.node w)
  { st with size := size, links := links }

/-- The next load or store of `fifo_pop`. -/
def fifoPopStep (st : WorkState α) : Option (WorkState α) :=
  match st.handler with
  | .testEmpty =>
    some { st with handler := if listEmpty st.links .list then .returned none else .loadSize }
  | .loadSize => some { st with handler := .storeSize st.size }
  | .storeSize size => some { st with size := size - 1, handler := .loadFirst }
  | .loadFirst =>
    some { st with
      handler := match st.links.next .list with
        | .list => .returned none
        | .node w => .loadLinks w }
  | .loadLinks w =>
    some { st with
      handler := .storeNext w (st.links.prev (.node w)) (st.links.next (.node w)) }
  | .storeNext w prev next =>
    some { st with links := st.links.setNext prev next, handler := .storePrev w prev next }
  | .storePrev w prev next =>
    some { st with
      links := st.links.setPrev next prev
      handler := .returned (some w)
      popped := st.popped ++ [st.serial w] }
  | _ => none

/-- Without an interrupt the steps are `fifo_pop`. -/
theorem fifoPopStep_eq_fifoPop {st : WorkState α} {w : α} (hh : st.handler = .testEmpty)
    (hw : st.links.next .list = .node w) :
    (fifoPopStep st).bind (fun st => (fifoPopStep st).bind fun st => (fifoPopStep st).bind fun st =>
      (fifoPopStep st).bind fun st => (fifoPopStep st).bind fun st =>
        (fifoPopStep st).bind fifoPopStep) =
      some { st with
        size := (fifoPop st.size st.links .list).2.1
        links := (fifoPop st.size st.links .list).2.2
        handler := .returned (some w)
        popped := st.popped ++ [st.serial w] } ∧
      (fifoPop st.size st.links .list).1 = some (.node w) := by
  have hempty : listEmpty st.links .list = false := by simp [listEmpty, hw]
  simp [fifoPopStep, hh, hw, hempty, fifoPop, listPop, listDel, listDelBetween]

inductive WorkEvent (α : Type*)
  | push (w : α)
  | wait
  | wake
  | pop
  | run
  | elsewhere

/-- One step of the interrupt or of the handler. -/
inductive WorkStep : WorkState α → WorkEvent α → WorkState α → Prop
  | push {st w t m} (hw : st.live w = false) (hm : semSignal st.count () = some (t, m)) :
      WorkStep st (.push w) { workQueuePush st w with count := m }
  | wait {st} (hh : st.handler = .loop) :
      WorkStep st .wait { st with count := semWait st.count () (), handler := .waiting }
  | wake {st} (hh : st.handler = .waiting) (hs : st.count.state () ≠ .sleeping) :
      WorkStep st .wake { st with handler := .testEmpty }
  | pop {st st'} (h : fifoPopStep st = some st') : WorkStep st .pop st'
  -- the function of the item, and `work_free`
  | run {st w} (hh : st.handler = .returned (some w)) :
      WorkStep st .run { st with live := Function.update st.live w false, handler := .loop }
  | elsewhere {st m} (hm : Elsewhere st.count m) : WorkStep st .elsewhere { st with count := m }

/-- After `work_queue_init`. -/
structure WorkState.Started (st : WorkState α) : Prop where
  count : semInit st.count () 0 = st.count
  awake : st.count.state () ≠ .sleeping
  size : st.size = 0
  links : initListHead st.links .list = st.links
  handler : st.handler = .loop
  live : ∀ w, st.live w = false
  pushed : st.pushed = 0
  popped : st.popped = []

/-- The handler is not in `fifo_pop`. -/
def Handler.Outside : Handler α → Prop
  | .loop | .waiting | .returned _ => True
  | _ => False

/-- A step of the handler. -/
def HandlerStep (st st' : WorkState α) : Prop :=
  WorkStep st .wait st' ∨ WorkStep st .wake st' ∨ WorkStep st .pop st' ∨ WorkStep st .run st'

/-- What the work queue is for. -/
structure WorkSafe (st : WorkState α) : Prop where
  /-- `work_queue_pop` does not return `NULL`. -/
  notNull : st.handler ≠ .returned none
  /-- The items popped so far are the first ones pushed, each once and in order. -/
  inOrder : st.popped = List.range st.popped.length ∧ st.popped.length ≤ st.pushed
  /-- Between the operations the list holds the other items, and `size` is their number. -/
  linked : st.handler.Outside → ∃ Q : List α, IsRing st.links .list (Q.map .node) ∧
    st.size.toInt = Q.length ∧
      Q.map st.serial = List.range' st.popped.length (st.pushed - st.popped.length)
  /-- The handler does not sleep as long as there are items. -/
  noneLeft : st.count.state () = .sleeping → st.popped.length = st.pushed
  /-- The handler pops every item that has been pushed. -/
  delivered : ∃ st', Relation.ReflTransGen HandlerStep st st' ∧ st'.popped = List.range st.pushed
  /-- `sem_signal` does not panic. -/
  signal : (semSignal st.count ()).isSome

/-- The interrupt does not push an item between the load and the store of `fifo->size`, nor, if the
item taken off is the last one, between the load of `entry->next` and the last store of
`list_del`. -/
def Harmless (st : WorkState α) : WorkEvent α → Prop
  | .push _ =>
    match st.handler with
    | .storeSize _ => False
    | .storeNext _ _ next | .storePrev _ _ next => next ≠ .list
    | _ => True
  | _ => True

/-! ### The invariant -/

/-- The wait of the handler for the item that it takes off. -/
@[simp]
def Handler.tokens : Handler α → ℤ
  | .loop | .returned _ => 0
  | _ => 1

/-- Whether `fifo->size` has been stored for the item that is taken off. -/
@[simp]
def Handler.counted : Handler α → ℤ
  | .loadFirst | .loadLinks _ | .storeNext .. | .storePrev .. => 1
  | _ => 0

/-- The node behind the head of a list. -/
def firstNode : List α → WorkNode α
  | [] => .list
  | w :: _ => .node w

/-- The list and what the handler has loaded, when the items `R` have not been popped. -/
def Listed (links : Links (WorkNode α)) (R : List α) : Handler α → Prop
  | .loadLinks w => IsRing links .list (R.map .node) ∧ ∃ R', R = w :: R'
  | .storeNext w prev next => IsRing links .list (R.map .node) ∧
      ∃ R', R = w :: R' ∧ prev = .list ∧ next = firstNode R'
  | .storePrev w prev next => ∃ R', R = w :: R' ∧ prev = .list ∧ next = firstNode R' ∧
      IsRing (links.setPrev next .list) .list (R'.map .node)
  | _ => IsRing links .list (R.map .node)

/-- The items `R` have been pushed and not popped; `W` are the waiters. -/
structure WorkInv (st : WorkState α) (R : List α) (W : Unit → List Unit) : Prop where
  queues : Queues st.count W
  waits : W () ≠ [] → st.handler = .waiting
  tokens : (st.count.sem ()).value.toInt = R.length - st.handler.tokens
  listed : Listed st.links R st.handler
  size : st.size.toInt = R.length - st.handler.counted
  stored : ∀ size, st.handler = .storeSize size → size = st.size
  notNull : st.handler ≠ .returned none
  live : ∀ w ∈ R, st.live w = true
  nodup : R.Nodup
  running : ∀ w, st.handler = .returned (some w) → st.live w = true ∧ w ∉ R
  order : R.map st.serial = List.range' st.popped.length R.length
  popped : st.popped = List.range st.popped.length
  pushed : st.pushed = st.popped.length + R.length

namespace WorkInv

variable {st st' : WorkState α} {R : List α} {W : Unit → List Unit} {w : α}

theorem length_le (hI : WorkInv st R W) (mem : α ↪ Fin availableMemory) :
    R.length ≤ availableMemory := by
  simpa using (hI.nodup.map mem.injective).length_le_card

theorem awake (hI : WorkInv st R W) (hh : st.handler ≠ .waiting) :
    st.count.state () ≠ .sleeping := by
  rw [Ne, hI.queues.asleep]
  rintro ⟨⟨⟩, hmem⟩
  exact hh (hI.waits (List.ne_nil_of_mem hmem))

theorem waits_nil (hI : WorkInv st R W) (hs : st.count.state () ≠ .sleeping) : W () = [] :=
  List.eq_nil_iff_forall_not_mem.mpr fun x hx => hs ((hI.queues.asleep x).mpr ⟨(), hx⟩)

/-- Past `sem_wait` there is an item. -/
theorem ne_nil (hI : WorkInv st R W) (hh : st.handler.tokens = 1)
    (hs : st.count.state () ≠ .sleeping) : R ≠ [] := by
  rintro rfl
  have htokens := hI.tokens
  have hlen := hI.queues.length ()
  rw [hI.waits_nil hs, List.length_nil] at hlen
  rw [hh, List.length_nil] at htokens
  omega

/-- A sleeping handler has nothing left to pop. -/
theorem nil_of_sleeping (hI : WorkInv st R W) (hs : st.count.state () = .sleeping) : R = [] := by
  have hh : st.handler = .waiting := by
    by_contra hne
    exact hI.awake hne hs
  obtain ⟨s, hmem⟩ := (hI.queues.asleep ()).mp hs
  obtain rfl : s = () := rfl
  have hlen := hI.queues.length ()
  have hpos := List.length_pos_of_mem hmem
  have htokens := hI.tokens
  rw [hh] at htokens
  dsimp only [Handler.tokens] at htokens
  refine List.length_eq_zero_iff.1 ?_
  omega

end WorkInv

/-! ### The list -/

section Listed

variable {links : Links (WorkNode α)} {R : List α} {w : α} {h : Handler α}

private theorem isRing_push (hr : IsRing links .list (R.map .node)) (hw : w ∉ R) :
    IsRing (listAddTail (initListHead links (.node w)) (.node w) .list) .list
      ((R ++ [w]).map .node) := by
  have hn : WorkNode.node w ∉ .list :: R.map .node := by simpa using hw
  exact (hr.init hn).addTail_map hn

/-- A push at the tail and the last store of `list_del` at another node commute. -/
private theorem push_setPrev {x : α} (hx : x ≠ w) :
    (listAddTail (initListHead links (.node w)) (.node w) .list).setPrev (.node x) .list =
      listAddTail (initListHead (links.setPrev (.node x) .list) (.node w)) (.node w) .list := by
  ext y <;> simp only [listAddTail, listAdd, initListHead, Links.setPrev, Links.setNext,
    Function.update_apply] <;> grind

omit [DecidableEq α] in
private theorem firstNode_append (hR : firstNode R ≠ .list) :
    firstNode (R ++ [w]) = firstNode R := by
  cases R with
  | nil => exact absurd rfl hR
  | cons x R => rfl

theorem Listed.push (hl : Listed links R h) (hw : w ∉ R)
    (hok : ∀ v prev next, h = .storeNext v prev next ∨ h = .storePrev v prev next →
      next ≠ .list) :
    Listed (listAddTail (initListHead links (.node w)) (.node w) .list) (R ++ [w]) h := by
  cases h with
  | loadLinks v =>
    obtain ⟨hr, R', rfl⟩ := hl
    exact ⟨isRing_push hr hw, R' ++ [w], rfl⟩
  | storeNext v prev next =>
    obtain ⟨hr, R', rfl, hprev, rfl⟩ := hl
    have hR' := hok v prev _ (.inl rfl)
    exact ⟨isRing_push hr hw, R' ++ [w], rfl, hprev, (firstNode_append hR').symm⟩
  | storePrev v prev next =>
    obtain ⟨R', rfl, hprev, rfl, hr⟩ := hl
    have hR' := hok v prev _ (.inr rfl)
    refine ⟨R' ++ [w], rfl, hprev, (firstNode_append hR').symm, ?_⟩
    have hw' : w ∉ R' := fun h => hw (List.mem_cons_of_mem _ h)
    cases R' with
    | nil => exact absurd rfl hR'
    | cons x R' =>
      have hx : x ≠ w := by
        rintro rfl
        exact hw' List.mem_cons_self
      have := isRing_push hr hw'
      rwa [firstNode, ← push_setPrev hx] at this
  | _ => exact isRing_push hl hw

omit [DecidableEq α] in
private theorem links_first (hr : IsRing links .list ((w :: R).map .node)) :
    links.next .list = .node w ∧ links.prev (.node w) = .list ∧
      links.next (.node w) = firstNode R := by
  obtain ⟨⟨hnext, hprev⟩, hseg⟩ := hr.seg
  refine ⟨hnext, hprev, ?_⟩
  rw [Seg.next_eq hseg]
  cases R <;> rfl

private theorem isRing_stores (hr : IsRing links .list ((w :: R).map .node)) :
    IsRing ((links.setNext .list (firstNode R)).setPrev (firstNode R) .list) .list
      (R.map .node) := by
  obtain ⟨-, hprev, hnext⟩ := links_first hr
  have := hr.pop_map.2
  rwa [listDel, listDelBetween, hprev, hnext] at this

end Listed

namespace WorkInv

variable {st st' : WorkState α} {R : List α} {W : Unit → List Unit} {w : α}

theorem start (h : st.Started) : WorkInv st [] fun _ => [] := by
  obtain ⟨hsem, hQ⟩ := Queues.of_init (m := st.count) (v := fun _ => 0) (fun _ => h.count)
    (fun _ => le_rfl) fun _ => h.awake
  have hlink : st.links.next .list = .list ∧ st.links.prev .list = .list := by
    rw [← h.links]
    simp [initListHead_next, initListHead_prev]
  refine ⟨hQ, by simp, by simp [hsem, h.handler], ?_, by simp [h.size, h.handler],
    by simp [h.handler], by simp [h.handler], by simp, by simp, by simp [h.handler],
    by simp, by simp [h.popped], by simp [h.pushed, h.popped]⟩
  rw [h.handler]
  exact ⟨by simp, hlink⟩

variable (hI : WorkInv st R W)

include hI

theorem push (mem : α ↪ Fin availableMemory) (hw : st.live w = false) (hok : Harmless st (.push w))
    {t : Option Unit} {m : SemState Unit Unit} (hm : semSignal st.count () = some (t, m)) :
    ∃ W', WorkInv { workQueuePush st w with count := m } (R ++ [w]) W' := by
  obtain ⟨l, hW, hval, -, hQ⟩ := hI.queues.signal_ok hm
  have hwR : w ∉ R := fun h => by simp [hI.live w h] at hw
  have hlen := hI.length_le mem
  have hserial : ∀ v ∈ R, Function.update st.serial w st.pushed v = st.serial v := fun v hv =>
    Function.update_of_ne (fun e : v = w => hwR (e ▸ hv)) ..
  have hsize : (st.size + 1).toInt = st.size.toInt + 1 := by
    refine toInt_add_one ?_
    rw [hI.size]
    have hcounted : 0 ≤ st.handler.counted := by
      cases st.handler <;> simp
    simp only [availableMemory] at hlen
    omega
  refine ⟨_, hQ, fun h => hI.waits fun hnil => h ?_, ?_, ?_, ?_, fun size h => ?_, hI.notNull,
    fun v hv => ?_, ?_, fun v hv => ?_, ?_, hI.popped, ?_⟩
  · rw [hnil] at hW
    simpa using (List.append_eq_nil_iff.1 hW.symm).2
  · simp only [workQueuePush, workAlloc, hval, hI.tokens, List.length_append,
      List.length_singleton]
    omega
  · refine hI.listed.push hwR fun v prev next h => ?_
    rcases h with h | h <;> simpa only [Harmless, h] using hok
  · simp only [workQueuePush, workAlloc, fifoPush, hsize, hI.size, List.length_append,
      List.length_singleton]
    omega
  · simp only [workQueuePush, workAlloc] at h
    simp only [Harmless, h] at hok
  · simp only [workQueuePush, workAlloc]
    rcases List.mem_append.1 hv with hv | hv
    · by_cases h : v = w
      · rw [h, Function.update_self]
      · rw [Function.update_of_ne h]
        exact hI.live v hv
    · rw [List.mem_singleton.1 hv, Function.update_self]
  · exact hI.nodup.append (List.nodup_singleton w) (by simpa using hwR)
  · obtain ⟨hlive, hvR⟩ := hI.running v hv
    have hvw : v ≠ w := by
      rintro rfl
      simp [hw] at hlive
    simp only [workQueuePush, workAlloc, Function.update_of_ne hvw]
    exact ⟨hlive, by simp [hvR, hvw]⟩
  · simp only [workQueuePush, workAlloc, List.map_append, List.map_singleton, Function.update_self,
      List.length_append, List.length_singleton, List.range'_concat, one_mul]
    rw [List.map_congr_left hserial, hI.order, hI.pushed]
  · simp only [workQueuePush, workAlloc, hI.pushed, List.length_append, List.length_singleton]
    omega

/-- The handler goes on without changing the items. -/
theorem move {h : Handler α} (hwaits : W () = []) (htokens : h.tokens = st.handler.tokens)
    (hlisted : Listed st.links R h) (hcounted : h.counted = st.handler.counted)
    (hstored : ∀ size, h = .storeSize size → size = st.size) (hnull : ∀ v, h ≠ .returned v) :
    WorkInv { st with handler := h } R W :=
  ⟨hI.queues, fun h => absurd hwaits h, htokens ▸ hI.tokens, hlisted, hcounted ▸ hI.size, hstored,
    hnull none, hI.live, hI.nodup, fun _ hv => absurd hv (hnull _), hI.order, hI.popped, hI.pushed⟩

theorem wait (hh : st.handler = .loop) :
    ∃ W', WorkInv { st with count := semWait st.count () (), handler := .waiting } R W' := by
  have hawake := hI.awake (by simp [hh])
  have htokens := hI.tokens
  have hlisted := hI.listed
  have hsize := hI.size
  rw [hh] at htokens hlisted hsize
  suffices h : ∃ W', Queues (semWait st.count () ()) W' ∧
      ((semWait st.count () ()).sem ()).value.toInt = (st.count.sem ()).value.toInt - 1 by
    obtain ⟨W', hQ, hval⟩ := h
    refine ⟨W', hQ, fun _ => rfl, ?_, hlisted, hsize, by simp, by simp, hI.live, hI.nodup, by simp,
      hI.order, hI.popped, hI.pushed⟩
    simp only [hval, htokens, Handler.tokens]
    omega
  by_cases hpos : 0 < (st.count.sem ()).value.toInt
  · obtain ⟨-, hval, -, hQ⟩ := hI.queues.wait_pass () hpos
    exact ⟨W, hQ, hval⟩
  · have hlow : -2 ^ 31 < (st.count.sem ()).value.toInt := by
      simp only [Handler.tokens] at htokens
      omega
    obtain ⟨-, hval, -, hQ⟩ := hI.queues.wait_block hawake (not_lt.1 hpos) hlow
    exact ⟨_, hQ, hval⟩

theorem run (hh : st.handler = .returned (some w)) :
    WorkInv { st with live := Function.update st.live w false, handler := .loop } R W := by
  have hwaits := hI.waits_nil (hI.awake (by simp [hh]))
  have htokens := hI.tokens
  have hlisted := hI.listed
  have hsize := hI.size
  rw [hh] at htokens hlisted hsize
  refine ⟨hI.queues, fun h => absurd hwaits h, htokens, hlisted, hsize, by simp, by simp,
    fun v hv => ?_, hI.nodup, by simp, hI.order, hI.popped, hI.pushed⟩
  have hne : v ≠ w := by
    rintro rfl
    exact (hI.running v hh).2 hv
  simpa [hne] using hI.live v hv

theorem storePrev {prev next : WorkNode α} (hh : st.handler = .storePrev w prev next) :
    ∃ R', WorkInv { st with
      links := st.links.setPrev next prev
      handler := .returned (some w)
      popped := st.popped ++ [st.serial w] } R' W := by
  have hwaits := hI.waits_nil (hI.awake (by simp [hh]))
  have htokens := hI.tokens
  have hlisted := hI.listed
  have hsize := hI.size
  rw [hh] at htokens hlisted hsize
  obtain ⟨R', rfl, rfl, rfl, hr⟩ := hlisted
  have horder := hI.order
  rw [List.map_cons, List.length_cons, List.range'_succ] at horder
  obtain ⟨hserial, horder⟩ := List.cons.inj horder
  simp only [Handler.tokens, Handler.counted, List.length_cons] at htokens hsize
  refine ⟨R', hI.queues, fun h => absurd hwaits h, ?_, hr, ?_, by simp, by simp,
    fun v hv => hI.live v (List.mem_cons_of_mem _ hv), (List.nodup_cons.1 hI.nodup).2,
    fun v hv => ?_, ?_, ?_, ?_⟩
  · simp only [Handler.tokens, htokens]
    omega
  · simp only [Handler.counted, hsize]
    omega
  · obtain rfl : w = v := by simpa using hv
    exact ⟨hI.live w List.mem_cons_self, (List.nodup_cons.1 hI.nodup).1⟩
  · simpa using horder
  · rw [List.length_append, List.length_singleton, List.range_succ, ← hI.popped, hserial]
  · have := hI.pushed
    simp only [List.length_append, List.length_cons, List.length_nil] at this ⊢
    omega

/-- Every step of `fifo_pop` keeps the invariant. -/
theorem pop (h : fifoPopStep st = some st') : ∃ R', WorkInv st' R' W := by
  have hlisted := hI.listed
  have hawake : st.count.state () ≠ .sleeping := hI.awake fun hh => by
    rw [fifoPopStep, hh] at h
    cases h
  have hwaits := hI.waits_nil hawake
  unfold fifoPopStep at h
  split at h
  · next hh =>
    rw [hh] at hlisted
    have hempty : listEmpty st.links .list = false := by
      simpa [listEmpty] using hlisted.next_head_eq_iff.not.2
        (by simpa using hI.ne_nil (by simp [hh]) hawake)
    obtain rfl := Option.some.inj h
    rw [hempty, if_neg (by simp)]
    exact ⟨R, hI.move hwaits (by simp [hh]) hlisted (by simp [hh]) (by simp) (by simp)⟩
  · next hh =>
    rw [hh] at hlisted
    obtain rfl := Option.some.inj h
    exact ⟨R, hI.move hwaits (by simp [hh]) hlisted (by simp [hh]) (by simp) (by simp)⟩
  · next size hh =>
    rw [hh] at hlisted
    have hsize := hI.size
    have htokens := hI.tokens
    obtain rfl := hI.stored size hh
    obtain rfl := Option.some.inj h
    rw [hh] at hsize htokens
    have hsub : (st.size - 1).toInt = st.size.toInt - 1 := toInt_sub_one (by
      simp only [Handler.counted] at hsize
      omega)
    refine ⟨R, hI.queues, fun h => absurd hwaits h, htokens, hlisted, ?_, by simp, by simp, hI.live,
      hI.nodup, by simp, hI.order, hI.popped, hI.pushed⟩
    simp only [hsub, hsize, Handler.counted]
    omega
  · next hh =>
    rw [hh] at hlisted
    obtain ⟨w, R', rfl⟩ := List.exists_cons_of_ne_nil (hI.ne_nil (by simp [hh]) hawake)
    obtain rfl := Option.some.inj h
    rw [(links_first hlisted).1]
    exact ⟨_, hI.move hwaits (by simp [hh]) ⟨hlisted, R', rfl⟩ (by simp [hh]) (by simp) (by simp)⟩
  · next w hh =>
    rw [hh] at hlisted
    obtain ⟨hr, R', rfl⟩ := hlisted
    obtain ⟨-, hprev, hnext⟩ := links_first hr
    obtain rfl := Option.some.inj h
    rw [hprev, hnext]
    exact ⟨_, hI.move hwaits (by simp [hh]) ⟨hr, R', rfl, rfl, rfl⟩ (by simp [hh]) (by simp)
      (by simp)⟩
  · next w prev next hh =>
    rw [hh] at hlisted
    obtain ⟨hr, R', rfl, rfl, rfl⟩ := hlisted
    have hsize := hI.size
    have htokens := hI.tokens
    rw [hh] at hsize htokens
    obtain rfl := Option.some.inj h
    exact ⟨_, hI.queues, fun h => absurd hwaits h, htokens, ⟨R', rfl, rfl, rfl, isRing_stores hr⟩,
      hsize, by simp, by simp, hI.live, hI.nodup, by simp, hI.order, hI.popped, hI.pushed⟩
  · next w prev next hh =>
    obtain rfl := Option.some.inj h
    exact hI.storePrev hh
  · cases h

/-- Every step keeps the invariant, if the push is harmless. -/
theorem step {e : WorkEvent α} (mem : α ↪ Fin availableMemory) (hok : Harmless st e)
    (h : WorkStep st e st') : ∃ R' W', WorkInv st' R' W' := by
  cases h with
  | push hw hm => exact ⟨_, hI.push mem hw hok hm⟩
  | wait hh => exact ⟨R, hI.wait hh⟩
  | wake hh hs =>
    have hlisted := hI.listed
    rw [hh] at hlisted
    exact ⟨R, W, hI.move (hI.waits_nil hs) (by simp [hh]) hlisted (by simp [hh]) (by simp)
      (by simp)⟩
  | pop h =>
    obtain ⟨R', hI'⟩ := hI.pop h
    exact ⟨R', W, hI'⟩
  | run hh => exact ⟨R, W, hI.run hh⟩
  | elsewhere hm =>
    exact ⟨R, W, hI.queues.elsewhere hm, hI.waits, by rw [hm.sem]; exact hI.tokens, hI.listed,
      hI.size,
      hI.stored, hI.notNull, hI.live, hI.nodup, hI.running, hI.order, hI.popped, hI.pushed⟩

end WorkInv

/-! ### Delivery -/

/-- How far the handler is. -/
def Handler.index : Handler α → ℕ
  | .returned _ => 0
  | .loop => 1
  | .waiting => 2
  | .testEmpty => 3
  | .loadSize => 4
  | .storeSize _ => 5
  | .loadFirst => 6
  | .loadLinks _ => 7
  | .storeNext .. => 8
  | .storePrev .. => 9

/-- A bound for the steps of the handler until all items are popped. -/
def WorkState.rank (st : WorkState α) : ℕ :=
  10 * (st.pushed - st.popped.length) + (9 - st.handler.index)

theorem rank_of_fifoPopStep {st st' : WorkState α} (h : fifoPopStep st = some st')
    (hnull : st'.handler ≠ .returned none) (hle : st'.popped.length ≤ st'.pushed) :
    st'.pushed = st.pushed ∧ st'.rank < st.rank := by
  unfold fifoPopStep at h
  split at h <;> cases h
  · next hh =>
    dsimp only at hnull
    split at hnull
    · exact absurd rfl hnull
    · next he => simp [WorkState.rank, Handler.index, hh, he]
  · next hh => simp [WorkState.rank, Handler.index, hh]
  · next hh => simp [WorkState.rank, Handler.index, hh]
  · next hh =>
    dsimp only at hnull
    split at hnull
    · exact absurd rfl hnull
    · simp [WorkState.rank, Handler.index, hh]
  · next hh => simp [WorkState.rank, Handler.index, hh]
  · next hh => simp [WorkState.rank, Handler.index, hh]
  · next hh =>
    simp only [List.length_append, List.length_singleton] at hle
    simp only [WorkState.rank, Handler.index, hh, List.length_append, List.length_singleton,
      true_and]
    omega

namespace WorkInv

variable {st : WorkState α} {R : List α} {W : Unit → List Unit}

variable (hI : WorkInv st R W) (mem : α ↪ Fin availableMemory)

include hI mem

/-- While there are items, the handler can take a step. -/
theorem progress (hR : R ≠ []) :
    ∃ st' R' W', HandlerStep st st' ∧ WorkInv st' R' W' ∧ st'.pushed = st.pushed ∧
      st'.rank < st.rank := by
  have hpop : ∀ st', fifoPopStep st = some st' → ∃ st' R' W', HandlerStep st st' ∧
      WorkInv st' R' W' ∧ st'.pushed = st.pushed ∧ st'.rank < st.rank := by
    intro st' h
    obtain ⟨R', hI'⟩ := hI.pop h
    have hrank := rank_of_fifoPopStep h hI'.notNull (by rw [hI'.pushed]; omega)
    exact ⟨st', R', W, .inr (.inr (.inl (.pop h))), hI', hrank⟩
  cases hh : st.handler with
  | loop =>
    obtain ⟨W', hI'⟩ := hI.wait hh
    exact ⟨_, R, W', .inl (.wait hh), hI', rfl, by simp [WorkState.rank, Handler.index, hh]⟩
  | waiting =>
    have hs : st.count.state () ≠ .sleeping := fun h => hR (hI.nil_of_sleeping h)
    have h : WorkStep st .wake _ := .wake hh hs
    obtain ⟨R', W', hI'⟩ := hI.step (e := .wake) mem trivial h
    exact ⟨_, R', W', .inr (.inl h), hI', rfl, by simp [WorkState.rank, Handler.index, hh]⟩
  | returned v =>
    cases v with
    | none => exact absurd hh hI.notNull
    | some w =>
      exact ⟨_, R, W, .inr (.inr (.inr (.run hh))), hI.run hh, rfl,
        by simp [WorkState.rank, Handler.index, hh]⟩
  | testEmpty => exact hpop _ (by rw [fifoPopStep, hh])
  | loadSize => exact hpop _ (by rw [fifoPopStep, hh])
  | storeSize size => exact hpop _ (by rw [fifoPopStep, hh])
  | loadFirst => exact hpop _ (by rw [fifoPopStep, hh])
  | loadLinks w => exact hpop _ (by rw [fifoPopStep, hh])
  | storeNext w prev next => exact hpop _ (by rw [fifoPopStep, hh])
  | storePrev w prev next => exact hpop _ (by rw [fifoPopStep, hh])

theorem delivered :
    ∃ st', Relation.ReflTransGen HandlerStep st st' ∧ st'.popped = List.range st.pushed := by
  induction hn : st.rank using Nat.strong_induction_on generalizing st R W with
  | _ n ih =>
    by_cases hR : R = []
    · refine ⟨st, .refl, ?_⟩
      rw [hI.pushed, hR, List.length_nil, Nat.add_zero]
      exact hI.popped
    · obtain ⟨st₁, R', W', hstep, hI', hpushed, hrank⟩ := hI.progress mem hR
      obtain ⟨st', hrun, hpopped⟩ := ih _ (hn ▸ hrank) hI' rfl
      exact ⟨st', .head hstep hrun, hpushed ▸ hpopped⟩

theorem safe : WorkSafe st := by
  refine ⟨hI.notNull, ⟨hI.popped, by rw [hI.pushed]; omega⟩, fun hh => ⟨R, ?_⟩, fun hs => ?_,
    hI.delivered mem, ?_⟩
  · have hlisted := hI.listed
    have hsize := hI.size
    have hsub : st.pushed - st.popped.length = R.length := by
      rw [hI.pushed]
      omega
    rw [hsub]
    cases hhandler : st.handler <;> rw [hhandler] at hh hlisted hsize <;>
      first
      | exact hh.elim
      | exact ⟨hlisted, by simpa using hsize, hI.order⟩
  · rw [hI.pushed, hI.nil_of_sleeping hs, List.length_nil, Nat.add_zero]
  · have hlen := hI.length_le mem
    have htokens := hI.tokens
    have hmax : (st.count.sem ()).value.toInt < 2 ^ 31 - 1 := by
      have hnn : 0 ≤ st.handler.tokens := by cases st.handler <;> simp
      simp only [availableMemory] at hlen
      omega
    obtain ⟨t, l, m, -, hm, -⟩ := hI.queues.signal hmax
    simp [hm]

end WorkInv

/-- In every run whose pushes are harmless, `work_queue_pop` returns the items in the order in which
they were pushed, each once, and never `NULL`. The handler goes to sleep only when all of them have
been popped. -/
theorem workSafe_of_reachable (mem : α ↪ Fin availableMemory) {st : WorkState α}
    (h : Reachable WorkState.Started (guarded Harmless WorkStep) st) : WorkSafe st := by
  obtain ⟨R, W, hI⟩ := h.invariant (P := fun st => ∃ R W, WorkInv st R W)
    (fun _ h => ⟨_, _, WorkInv.start h⟩) fun _ _ _ ⟨_, _, hI⟩ hs => hI.step mem hs.1 hs.2
  exact hI.safe mem

/-! ### Runs -/

/-- A work queue right after `work_queue_init`. -/
def WorkState.start : WorkState α :=
  { count := (SemRun.start fun _ => 0).st
    size := 0
    links := Links.isolated
    handler := .loop
    live := fun _ => false
    serial := fun _ => 0
    pushed := 0
    popped := [] }

theorem WorkState.started_start : (WorkState.start : WorkState α).Started := by
  have hsem := (SemRun.started_start (fun _ => 0) : (SemRun.start fun _ => 0 :
    SemRun Unit Unit).Started _)
  refine ⟨hsem.init _, hsem.awake _, rfl, ?_, rfl, fun _ => rfl, rfl, rfl⟩
  ext x <;> simp [start, initListHead_next, initListHead_prev, Links.isolated, eq_comm]

/-- Two items are queued, and the interrupt pushes a third between the two stores of `list_del`
that take off the first. -/
theorem workSafe_push_in_pop : ∃ st : WorkState (Fin 3),
    Reachable WorkState.Started (guarded Harmless WorkStep) st ∧ WorkSafe st ∧
      st.handler = .returned (some 0) ∧ st.pushed = 3 ∧ st.popped = [0] := by
  have h₀ : Reachable WorkState.Started (guarded Harmless WorkStep)
      (WorkState.start : WorkState (Fin 3)) := .start WorkState.started_start
  have h₁ := h₀.next (a := WorkEvent.push 0) ⟨trivial, .push rfl rfl⟩
  have h₂ := h₁.next (a := WorkEvent.push 1) ⟨trivial, .push rfl rfl⟩
  have h₃ := h₂.next (a := WorkEvent.wait) ⟨trivial, .wait rfl⟩
  have h₄ := h₃.next (a := WorkEvent.wake) ⟨trivial, .wake rfl (by decide)⟩
  have h₅ := h₄.next (a := WorkEvent.pop) ⟨trivial, .pop rfl⟩
  have h₆ := h₅.next (a := WorkEvent.pop) ⟨trivial, .pop rfl⟩
  have h₇ := h₆.next (a := WorkEvent.pop) ⟨trivial, .pop rfl⟩
  have h₈ := h₇.next (a := WorkEvent.pop) ⟨trivial, .pop rfl⟩
  have h₉ := h₈.next (a := WorkEvent.pop) ⟨trivial, .pop rfl⟩
  have h₁₀ := h₉.next (a := WorkEvent.pop) ⟨trivial, .pop rfl⟩
  have h₁₁ := h₁₀.next (a := WorkEvent.push 2) ⟨(nomatch ·), .push rfl rfl⟩
  have h₁₂ := h₁₁.next (a := WorkEvent.pop) ⟨trivial, .pop rfl⟩
  exact ⟨_, h₁₂, workSafe_of_reachable (Fin.castLEEmb (by decide)) h₁₂, rfl, rfl, rfl⟩

/-- The interrupt pushes an item between the two stores of `list_del`, which takes off the only
item. The new item is lost, and the next call of `work_queue_pop` returns `NULL`. -/
theorem exists_lost_work : ∃ st : WorkState Bool, Reachable WorkState.Started WorkStep st ∧
    st.handler = .returned none ∧ st.pushed = 2 ∧ st.popped = [0] := by
  have h₀ : Reachable WorkState.Started WorkStep (WorkState.start : WorkState Bool) :=
    .start WorkState.started_start
  have h₁ := h₀.next (a := WorkEvent.push true) (.push rfl rfl)
  have h₂ := h₁.next (a := WorkEvent.wait) (.wait rfl)
  have h₃ := h₂.next (a := WorkEvent.wake) (.wake rfl (by decide))
  have h₄ := h₃.next (a := WorkEvent.pop) (.pop rfl)
  have h₅ := h₄.next (a := WorkEvent.pop) (.pop rfl)
  have h₆ := h₅.next (a := WorkEvent.pop) (.pop rfl)
  have h₇ := h₆.next (a := WorkEvent.pop) (.pop rfl)
  have h₈ := h₇.next (a := WorkEvent.pop) (.pop rfl)
  have h₉ := h₈.next (a := WorkEvent.pop) (.pop rfl)
  have h₁₀ := h₉.next (a := WorkEvent.push false) (.push rfl rfl)
  have h₁₁ := h₁₀.next (a := WorkEvent.pop) (.pop rfl)
  have h₁₂ := h₁₁.next (a := WorkEvent.run) (.run (w := true) rfl)
  have h₁₃ := h₁₂.next (a := WorkEvent.wait) (.wait rfl)
  have h₁₄ := h₁₃.next (a := WorkEvent.wake) (.wake rfl (by decide))
  have h₁₅ := h₁₄.next (a := WorkEvent.pop) (.pop rfl)
  exact ⟨_, h₁₅, rfl, rfl, rfl⟩

end RiscvLab.Kernel
