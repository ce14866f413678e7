import RiscvLab.Library.Reachable
import Mathlib.Data.Finset.Option
import Mathlib.Data.BitVec

/-!
# Thread ids

The pid of a thread lives in its `thread_info`, an object of a slab cache. `alloc_thread` keeps the
pid it finds in the object, as the slab hands out objects again with their old bytes, and draws a
new one from `pid_pool` if it finds 0. An object that is used for the first time has the bytes of
a page from the buddy system, which `__alloc_pages` does not clear, so that two threads can find the
same pid there (`exists_equal_pids`).

If every object reads 0 at its first use, and the counter does not overflow, then the pids of all
objects ever used are different, and below the counter (`Drawn`). The first pid that is drawn is 0,
so its object draws a second one when it is used again; this does no harm.

The slab cache is a parameter: `kmem_cache_alloc` returns any object that no thread has.

## Main definitions

* `allocThread`
* `ProcState`, `ProcStep` : the threads over a run.
* `DistinctPids`, `FirstUseZero`

## Main results

* `Drawn.alloc`, `distinctPids_of_reachable`

Source: `kernel/proc.c`, lines 15–21 and 105–155; `mm/mm.c`, lines 159–162.
-/

namespace RiscvLab.Kernel

open Library

variable {ω : Type*} [DecidableEq ω]

/-- `pid_pool.pids`, and the field `pid` in the memory of each object. -/
structure PidPool (ω : Type*) where
  pids : BitVec 32
  pid : ω → BitVec 32

/-- `alloc_thread`, with what `kmem_cache_alloc` returns for the `task_struct` and for the
`thread_info`. `thread_info_init` leaves `pid` alone. -/
def allocThread (st : PidPool ω) (task : Option ω) (thread : Option ω) :
    Option ω × PidPool ω :=
  match task, thread with
  | some _, some t =>
    if st.pid t = 0 then
      (some t, { pids := st.pids + 1, pid := Function.update st.pid t st.pids })
    else (some t, st)
  | _, _ => (none, st)

/-- The threads that there are, and the objects that have been used, by them or by earlier ones. -/
structure ProcState (ω : Type*) where
  pool : PidPool ω
  live : Finset ω
  used : Finset ω

/-- A call of `alloc_thread` for which the memory of the `thread_info` has `junk` in the field `pid`
if it has not been used before; or a release of the object of a thread. -/
inductive ProcCall (ω : Type*)
  | alloc (task thread : Option ω) (junk : BitVec 32)
  | release (t : ω)

/-- The memory after both calls of `kmem_cache_alloc`. -/
def ProcState.deliver (s : ProcState ω) (task thread : Option ω) (junk : BitVec 32) : PidPool ω :=
  match task, thread with
  | some _, some t =>
    if t ∈ s.used then s.pool else { s.pool with pid := Function.update s.pool.pid t junk }
  | _, _ => s.pool

/-- A call of `alloc_thread`. -/
def ProcState.alloc (s : ProcState ω) (task thread : Option ω) (junk : BitVec 32) : ProcState ω :=
  let r := allocThread (s.deliver task thread junk) task thread
  ⟨r.2, s.live ∪ r.1.toFinset, s.used ∪ r.1.toFinset⟩

inductive ProcStep : ProcState ω → ProcCall ω → ProcState ω → Prop
  | alloc {s} (task thread junk) (hfree : ∀ t, thread = some t → t ∉ s.live) :
      ProcStep s (.alloc task thread junk) (s.alloc task thread junk)
  | release {s} (t) (hlive : t ∈ s.live) :
      ProcStep s (.release t) { s with live := s.live.erase t }

/-- No thread yet: `pid_pool` is zero, and the memory is anything. -/
def ProcStart (s : ProcState ω) : Prop := s.pool.pids = 0 ∧ s.live = ∅ ∧ s.used = ∅

/-- The pids of the threads are pairwise different. -/
def DistinctPids (s : ProcState ω) : Prop :=
  ∀ t ∈ s.live, ∀ u ∈ s.live, s.pool.pid t = s.pool.pid u → t = u

/-- An object that is used for the first time has pid 0 in its memory, and `pids` can be
incremented. -/
def FirstUseZero (s : ProcState ω) (a : ProcCall ω) : Prop :=
  match a with
  | .alloc _ (some t) junk => (t ∉ s.used → junk = 0) ∧ s.pool.pids.toNat + 1 < 2 ^ 31
  | _ => True

/-! ### The pids that have been drawn -/

/-- The objects that have been used have different pids, and all of them have been drawn. -/
structure Drawn (s : ProcState ω) : Prop where
  live : s.live ⊆ s.used
  lt : ∀ t ∈ s.used, (s.pool.pid t).toNat < s.pool.pids.toNat
  distinct : ∀ t ∈ s.used, ∀ u ∈ s.used, s.pool.pid t = s.pool.pid u → t = u

section Drawn

variable {s s' : ProcState ω} {t : ω} {junk : BitVec 32}

omit [DecidableEq ω] in
theorem Drawn.distinctPids (hs : Drawn s) : DistinctPids s := fun t ht u hu =>
  hs.distinct t (hs.live ht) u (hs.live hu)

theorem Drawn.draw (hs : Drawn s) (t : ω) (hpids : s.pool.pids.toNat + 1 < 2 ^ 31) :
    Drawn (⟨⟨s.pool.pids + 1, Function.update s.pool.pid t s.pool.pids⟩,
      s.live ∪ {t}, s.used ∪ {t}⟩ : ProcState ω) := by
  have hsucc : (s.pool.pids + 1).toNat = s.pool.pids.toNat + 1 := by
    rw [BitVec.toNat_add]
    exact Nat.mod_eq_of_lt (by simp; omega)
  have hne : ∀ u ∈ s.used, s.pool.pid u ≠ s.pool.pids := fun u hu h =>
    absurd (hs.lt u hu) (by rw [h]; omega)
  refine ⟨Finset.union_subset_union_left hs.live, fun u hu => ?_, fun u hu v hv huv => ?_⟩
  · rw [hsucc]
    by_cases hut : u = t
    · subst hut
      simp
    · have hlt := hs.lt u (by simpa [hut] using hu)
      simp only [Function.update_of_ne hut]
      omega
  · by_cases hut : u = t <;> by_cases hvt : v = t
    · rw [hut, hvt]
    · subst hut
      have hv : v ∈ s.used := by simpa [hvt] using hv
      exact absurd (by simpa [hvt] using huv.symm) (hne v hv)
    · subst hvt
      have hu : u ∈ s.used := by simpa [hut] using hu
      exact absurd (by simpa [hut] using huv) (hne u hu)
    · refine hs.distinct u (by simpa [hut] using hu) v (by simpa [hvt] using hv) ?_
      simpa [hut, hvt] using huv

/-- `alloc_thread` with an object. It keeps the pid of an earlier use, or draws the next one, which
is greater than all before as long as the counter does not wrap. -/
theorem Drawn.alloc (hs : Drawn s) (task : ω) (hjunk : t ∉ s.used → junk = 0)
    (hpids : s.pool.pids.toNat + 1 < 2 ^ 31) : Drawn (s.alloc (some task) (some t) junk) := by
  by_cases hused : t ∈ s.used
  · have hdeliver : s.deliver (some task) (some t) junk = s.pool := if_pos hused
    rw [ProcState.alloc, hdeliver, allocThread]
    by_cases hpid : s.pool.pid t = 0
    · rw [if_pos hpid]
      exact hs.draw t hpids
    · rw [if_neg hpid]
      have hsame : s.used ∪ {t} = s.used :=
        Finset.union_eq_left.2 (Finset.singleton_subset_iff.2 hused)
      simp only [Option.toFinset_some, hsame]
      exact ⟨Finset.union_subset hs.live (Finset.singleton_subset_iff.2 hused), hs.lt, hs.distinct⟩
  · have hdeliver : s.deliver (some task) (some t) junk =
        { s.pool with pid := Function.update s.pool.pid t 0 } := by
      rw [← hjunk hused]
      exact if_neg hused
    rw [ProcState.alloc, hdeliver, allocThread, if_pos (Function.update_self ..)]
    simp only [Function.update_idem]
    exact hs.draw t hpids

theorem ProcStep.drawn {a : ProcCall ω} (hs : Drawn s) (ha : FirstUseZero s a)
    (hstep : ProcStep s a s') : Drawn s' := by
  cases hstep with
  | alloc task thread junk hfree =>
    have hfail : Drawn (⟨s.pool, s.live ∪ ∅, s.used ∪ ∅⟩ : ProcState ω) := by
      rw [Finset.union_empty, Finset.union_empty]
      exact hs
    match task, thread with
    | some task, some t => exact hs.alloc task ha.1 ha.2
    | some _, none => exact hfail
    | none, _ => exact hfail
  | release t hlive =>
    exact ⟨(Finset.erase_subset _ _).trans hs.live, hs.lt, hs.distinct⟩

end Drawn

omit [DecidableEq ω] in
theorem ProcStart.drawn {s : ProcState ω} (hs : ProcStart s) : Drawn s := by
  obtain ⟨-, hlive, hused⟩ := hs
  refine ⟨by rw [hlive, hused], fun t ht => ?_, fun t ht => ?_⟩ <;>
  · rw [hused] at ht
    exact absurd ht (Finset.notMem_empty t)

/-- If every object has pid 0 at its first use, and the counter does not overflow, then the pids of
the threads are different. -/
theorem distinctPids_of_reachable {s : ProcState ω}
    (hr : Reachable ProcStart (guarded FirstUseZero ProcStep) s) : DistinctPids s := by
  have hs : Drawn s := hr.invariant (P := Drawn) (fun _ => ProcStart.drawn)
    fun _ _ _ hs hstep => hstep.2.drawn hs hstep.1
  exact hs.distinctPids

/-- No threads, with `junk` in the memory of every object. -/
def noThreads (junk : BitVec 32) : ProcState ℕ := ⟨⟨0, fun _ => junk⟩, ∅, ∅⟩

theorem procStart_noThreads (junk : BitVec 32) : ProcStart (noThreads junk) := ⟨rfl, rfl, rfl⟩

/-- Two threads, the first of which is released and replaced: its object has pid 0 and draws 2. -/
theorem distinctPids_two_threads : ∃ s : ProcState ℕ,
    Reachable ProcStart (guarded FirstUseZero ProcStep) s ∧ s.live = {0, 1} ∧ s.pool.pid 0 = 2 ∧
      s.pool.pid 1 = 1 ∧ DistinctPids s := by
  have h₀ : Reachable ProcStart (guarded FirstUseZero ProcStep) (noThreads 0) :=
    .start (procStart_noThreads 0)
  have h₁ := h₀.next (a := ProcCall.alloc (some 9) (some 0) 0)
    ⟨⟨fun _ => rfl, by decide⟩, .alloc _ _ _ (by decide)⟩
  have h₂ := h₁.next (a := ProcCall.alloc (some 8) (some 1) 0)
    ⟨⟨fun _ => rfl, by decide⟩, .alloc _ _ _ (by decide)⟩
  have h₃ := h₂.next (a := ProcCall.release 0) ⟨trivial, .release 0 (by decide)⟩
  have h₄ := h₃.next (a := ProcCall.alloc (some 9) (some 0) 0)
    ⟨⟨fun _ => rfl, by decide⟩, .alloc _ _ _ (by decide)⟩
  exact ⟨_, h₄, by decide, by decide, by decide, distinctPids_of_reachable h₄⟩

/-- Two objects with 5 in the field `pid` at their first use. -/
theorem exists_equal_pids :
    ∃ s : ProcState ℕ, Reachable ProcStart ProcStep s ∧ ¬DistinctPids s := by
  have h₀ : Reachable ProcStart ProcStep (noThreads 5) := .start (procStart_noThreads 5)
  have h₁ := h₀.next (.alloc (some 9) (some 0) 5 (by simp [noThreads]))
  have h₂ := h₁.next (.alloc (some 8) (some 1) 5 (by decide))
  refine ⟨_, h₂, fun h => ?_⟩
  exact absurd (h 0 (by decide) 1 (by decide) (by decide)) (by decide)

end RiscvLab.Kernel
