import RiscvLab.Kernel.SchedSafety
import RiscvLab.Library.Machine
import Mathlib.Logic.Relation

/-!
# Context switches

`swtch` stores the registers that a called function must keep in the context of the thread or
scheduler that calls it, loads those of another one, and returns to that one. Threads and schedulers
take turns on several harts, and a thread need not come back on the hart that it has left.

The code between two switches is any change of the registers of the hart and of the memory, except
for the contexts of those who wait in `swtch`; a new thread gets its context from `alloc_thread`.
That nobody is switched to who runs already is a result about the scheduler (`SwtchStep.of_step`).

## Main definitions

* `swtch` : the code.
* `SwtchState`, `SwtchStep` : threads and schedulers on several harts.
* `Machine.cur` : whom a CPU runs.

## Main results

* `SwtchStep.of_step` : where a CPU of the scheduler's machine passes to another thread or to its
  scheduler, the harts switch.
* `regs_of_switched` : a thread comes back from `swtch` with the registers it had when it called it,
  whatever happened in between.

Source: `kernel/swtch.S`; `kernel/sched.c`, lines 61–140.
-/

namespace RiscvLab.Kernel

open Library

/-- The registers of a hart that the assembly code names, `sscratch` among them. -/
inductive Reg
  | ra | sp | gp | tp | t0 | t1 | t2 | s0 | s1 | a0 | a1 | a2 | a3 | a4 | a5 | a6 | a7
  | s2 | s3 | s4 | s5 | s6 | s7 | s8 | s9 | s10 | s11 | t3 | t4 | t5 | t6 | sscratch
  deriving DecidableEq

/-- The slots of `struct context`. -/
def contextSlots : List (Reg × BitVec 64) :=
  [(.ra, 0), (.sp, 8), (.s0, 16), (.s1, 24), (.s2, 32), (.s3, 40), (.s4, 48), (.s5, 56), (.s6, 64),
    (.s7, 72), (.s8, 80), (.s9, 88), (.s10, 96), (.s11, 104)]

/-- `swtch`, up to `ret`. -/
def swtch : List (Instr Reg) := saves .a0 contextSlots ++ loads .a1 contextSlots

/-- The harts `η` run threads and schedulers `κ`. Who has called `swtch` is suspended until somebody
switches to it. -/
structure SwtchState (κ η : Type*) where
  mem : BitVec 64 → BitVec 64
  regs : η → Reg → BitVec 64
  cur : η → κ
  suspended : Set κ

inductive SwtchEvent (κ η : Type*)
  | run (h : η)
  | switch (h : η) (k : κ)

variable {κ η : Type*}

/-- The contexts do not overlap. -/
def Separate (ctx : κ → BitVec 64) : Prop :=
  ∀ k k', k ≠ k' → ∀ s ∈ contextSlots, ∀ s' ∈ contextSlots, ctx k + s.2 ≠ ctx k' + s'.2

variable [DecidableEq η]

/-- What `swtch` on the hart `h` leaves. -/
def SwtchState.switch (st : SwtchState κ η) (h : η) (k : κ) : SwtchState κ η :=
  let m := (⟨st.regs h, st.mem⟩ : RegMachine Reg).exec swtch
  ⟨m.mem, Function.update st.regs h m.reg, Function.update st.cur h k,
    insert (st.cur h) st.suspended \ {k}⟩

/-- A step of the hart `h`: the code that it runs does anything but store into the context of
somebody who is suspended, or it switches to somebody who runs nowhere. -/
def SwtchStep (ctx : κ → BitVec 64) (st : SwtchState κ η) (e : SwtchEvent κ η)
    (st' : SwtchState κ η) : Prop :=
  match e with
  | .run h => (∀ h' ≠ h, st'.regs h' = st.regs h') ∧ st'.cur = st.cur ∧
      st'.suspended = st.suspended ∧
        ∀ k ∈ st.suspended, ∀ s ∈ contextSlots, st'.mem (ctx k + s.2) = st.mem (ctx k + s.2)
  | .switch h k => (∀ h', st.cur h' ≠ k) ∧ st.regs h .a0 = ctx (st.cur h) ∧
      st.regs h .a1 = ctx k ∧ st' = st.switch h k

/-- `swtch` moves the registers from one context to the other. -/
theorem exec_swtch (m : RegMachine Reg)
    (hsep : ∀ s ∈ contextSlots, ∀ s' ∈ contextSlots, m.reg .a1 + s.2 ≠ m.reg .a0 + s'.2) :
    (∀ s ∈ contextSlots, (m.exec swtch).reg s.1 = m.mem (m.reg .a1 + s.2)) ∧
      (∀ s ∈ contextSlots, (m.exec swtch).mem (m.reg .a0 + s.2) = m.reg s.1) ∧
      ∀ a, (∀ s ∈ contextSlots, a ≠ m.reg .a0 + s.2) → (m.exec swtch).mem a = m.mem a := by
  have hbase : ∀ s ∈ contextSlots, s.1 ≠ .a1 := by decide
  obtain ⟨hreg, hmem, hother⟩ := @exec_saves Reg _ .a0 contextSlots (by decide) m
  obtain ⟨hmem', hreg', -⟩ := @exec_loads Reg _ .a1 contextSlots (by decide)
    (m.exec (saves .a0 contextSlots)) fun s hs e => absurd e (hbase s hs)
  rw [hreg] at hreg'
  rw [swtch, exec_append, hmem']
  exact ⟨fun s hs => by rw [hreg' s hs, hother _ (hsep s hs)], hmem, hother⟩

/-- The registers of a thread that is suspended are in its context. -/
def Saved (ctx : κ → BitVec 64) (st : SwtchState κ η) (k : κ) (regs : Reg → BitVec 64) : Prop :=
  (∀ h, st.cur h ≠ k) ∧ k ∈ st.suspended ∧ ∀ s ∈ contextSlots, st.mem (ctx k + s.2) = regs s.1

namespace SwtchStep

variable {ctx : κ → BitVec 64} {st st' : SwtchState κ η} {h : η} {k : κ}

/-- A switch loads one context, stores into the other, and changes no other word. -/
theorem switch_spec (hsep : Separate ctx) (hstep : SwtchStep ctx st (.switch h k) st') :
    (∀ s ∈ contextSlots, st'.regs h s.1 = st.mem (ctx k + s.2)) ∧
      (∀ s ∈ contextSlots, st'.mem (ctx (st.cur h) + s.2) = st.regs h s.1) ∧
      ∀ a, (∀ s ∈ contextSlots, a ≠ ctx (st.cur h) + s.2) → st'.mem a = st.mem a := by
  obtain ⟨hfree, ha0, ha1, rfl⟩ := hstep
  have hspec := exec_swtch ⟨st.regs h, st.mem⟩
  dsimp only at hspec
  rw [ha0, ha1] at hspec
  obtain ⟨hreg, hmem, hother⟩ := hspec (hsep k (st.cur h) (hfree h).symm)
  have hregs : (st.switch h k).regs h = ((⟨st.regs h, st.mem⟩ : RegMachine Reg).exec swtch).reg :=
    Function.update_self ..
  rw [hregs]
  exact ⟨hreg, hmem, hother⟩

theorem cur_switch (hstep : SwtchStep ctx st (.switch h k) st') :
    st'.cur = Function.update st.cur h k ∧
      st'.suspended = insert (st.cur h) st.suspended \ {k} := by
  obtain ⟨-, -, -, rfl⟩ := hstep
  exact ⟨rfl, rfl⟩

/-- Who switches leaves the registers in the context. -/
theorem saved (hsep : Separate ctx) (hinj : st.cur.Injective)
    (hstep : SwtchStep ctx st (.switch h k) st') : Saved ctx st' (st.cur h) (st.regs h) := by
  refine ⟨fun h' => ?_, ?_, (hstep.switch_spec hsep).2.1⟩
  · rw [hstep.cur_switch.1]
    by_cases hh : h' = h
    · subst hh
      simpa using (hstep.1 h').symm
    · simpa [hh] using fun e => hh (hinj e)
  · rw [hstep.cur_switch.2]
    exact ⟨Set.mem_insert .., hstep.1 h⟩

/-- Nobody touches the context of a thread that runs nowhere, until it is switched to. -/
theorem keeps (hsep : Separate ctx) {e : SwtchEvent κ η} (hstep : SwtchStep ctx st e st')
    (hne : ∀ h, e ≠ .switch h k) {regs : Reg → BitVec 64} (hsaved : Saved ctx st k regs) :
    Saved ctx st' k regs := by
  cases e with
  | run h =>
    obtain ⟨-, hcur, hsusp, hmem⟩ := hstep
    exact ⟨by rw [hcur]; exact hsaved.1, by rw [hsusp]; exact hsaved.2.1,
      fun s hs => (hmem k hsaved.2.1 s hs).trans (hsaved.2.2 s hs)⟩
  | switch h k' =>
    have hkk : k' ≠ k := fun e => hne h (by rw [e])
    refine ⟨fun h' => ?_, ?_, fun s hs => ?_⟩
    · rw [hstep.cur_switch.1]
      by_cases hh : h' = h
      · subst hh
        simpa using hkk
      · simpa [hh] using hsaved.1 h'
    · rw [hstep.cur_switch.2]
      exact ⟨Set.mem_insert_of_mem _ hsaved.2.1, hkk.symm⟩
    · rw [← hsaved.2.2 s hs]
      exact (hstep.switch_spec hsep).2.2 _ (hsep k (st.cur h) (hsaved.1 h).symm s hs)

/-- Who is switched to finds the registers in the context. -/
theorem loaded (hsep : Separate ctx) (hstep : SwtchStep ctx st (.switch h k) st')
    {regs : Reg → BitVec 64} (hsaved : Saved ctx st k regs) :
    ∀ s ∈ contextSlots, st'.regs h s.1 = regs s.1 :=
  fun s hs => ((hstep.switch_spec hsep).1 s hs).trans (hsaved.2.2 s hs)

theorem injective (hinj : st.cur.Injective) {e : SwtchEvent κ η} (hstep : SwtchStep ctx st e st') :
    st'.cur.Injective := by
  cases e with
  | run h =>
    obtain ⟨-, hcur, -, -⟩ := hstep
    rwa [hcur]
  | switch h k =>
    rw [hstep.cur_switch.1]
    intro h₁ h₂ heq
    by_cases h₁h : h₁ = h <;> by_cases h₂h : h₂ = h
    · exact h₁h.trans h₂h.symm
    · rw [h₁h, Function.update_self, Function.update_of_ne h₂h] at heq
      exact absurd heq.symm (hstep.1 h₂)
    · rw [h₂h, Function.update_self, Function.update_of_ne h₁h] at heq
      exact absurd heq (hstep.1 h₁)
    · rw [Function.update_of_ne h₁h, Function.update_of_ne h₂h] at heq
      exact hinj heq

end SwtchStep

/-! ### The switches of the scheduler -/

section Sched

variable {n : ℕ} {σ τ : Type*} {m m' : Machine n σ τ} {c : Fin n}

/-- Whom a CPU runs: a thread, or its own scheduler. -/
def Machine.cur (m : Machine n σ τ) (c : Fin n) : Fin n ⊕ τ := (m.pc c).exec.elim (.inl c) .inr

theorem Machine.cur_eq_inr {t : τ} : m.cur c = .inr t ↔ (m.pc c).exec = some t := by
  cases h : (m.pc c).exec <;> simp [Machine.cur, h]

/-- The scheduler dispatches no thread that another CPU executes. -/
theorem SchedInv.exec_ne_of_dispatch {L : SchedList n σ → List τ} {c' : Fin n} {t : τ}
    (hI : SchedInv m.toSchedCore L) (h : m.pc c = .dispatch t) : (m.pc c').exec ≠ some t := by
  intro h'
  have hown : t ∈ (m.pc c).owns := by simp [h, Pc.owns]
  have hne : c ≠ c' := by
    rintro rfl
    simp [h, Pc.exec] at h'
  obtain ⟨hown', hlock⟩ := hI.apart c c' hne t hown
  rcases Pc.mem_owns_or_locks_of_exec h' with ho | hl
  · exact hown' ho
  · simpa [h, Pc.popped] using hlock hl

variable [NeZero n] [DecidableEq σ] [DecidableEq τ]

/-- What a step does to the thread that the CPU executes: it stays, or it gives way to the
scheduler, or the scheduler dispatches it. -/
theorem Step.exec_cases {L : SchedList n σ → List τ} (hI : SchedInv m.toSchedCore L)
    (h : Step m c m') : (m'.pc c).exec = (m.pc c).exec ∨ (m'.pc c).exec = none ∨
      ∃ t, m.pc c = .dispatch t ∧ (m'.pc c).exec = some t := by
  cases h with
  | swtchTo h => exact .inr (.inr ⟨_, h, by simp [Pc.exec]⟩)
  | yieldSwtch | waitSwtch | quitSwtch => exact .inr (.inl (by simp [Pc.exec]))
  | yieldLock h hu | waitLock h hu | quitLock h hu =>
    obtain rfl := hI.myproc_eq h rfl hu
    exact .inl (by simp [h, Pc.exec])
  | wait h =>
    left
    simp only [h, Function.update_self]
    split_ifs <;> rfl
  | @signal ctx _ h =>
    left
    simp only [h, Function.update_self]
    cases ctx <;> split_ifs <;> rfl
  | @wakeUnlock ctx s _ h => cases ctx <;> cases s <;> exact .inl (by simp [h]; rfl)
  | @signalReturn ctx _ h | @create ctx _ _ h =>
    cases ctx <;> exact .inl (by simp [h, Pc.exec, Context.pc, Context.exec])
  | _ => exact .inl (by simp [*, Pc.exec, EnqCont.exec])

/-- If in a run of the scheduler a CPU passes from one thread or scheduler to another, by a call of
`swtch` with the two contexts, the harts switch: nobody runs the one that is switched to. -/
theorem SwtchStep.of_step {ctx : Fin n ⊕ τ → BitVec 64} {st : SwtchState (Fin n ⊕ τ) (Fin n)}
    (hr : Reachable Machine.Started Step m) (hstep : Step m c m') (hcur : st.cur = m.cur)
    (hne : m'.cur c ≠ m.cur c) (ha0 : st.regs c .a0 = ctx (m.cur c))
    (ha1 : st.regs c .a1 = ctx (m'.cur c)) :
    SwtchStep ctx st (.switch c (m'.cur c)) (st.switch c (m'.cur c)) := by
  obtain ⟨L, hI⟩ := exists_schedInv_of_reachable hr
  refine ⟨fun c' heq => ?_, by rw [ha0, hcur], ha1, rfl⟩
  rw [hcur] at heq
  rcases hstep.exec_cases hI with hexec | hexec | ⟨t, hpc, hexec⟩
  · exact hne (by rw [Machine.cur, hexec, Machine.cur])
  · -- only the CPU itself runs its scheduler
    rw [show m'.cur c = .inl c by simp [Machine.cur, hexec]] at heq hne
    cases hc' : (m.pc c').exec with
    | none =>
      obtain rfl : c' = c := by simpa [Machine.cur, hc'] using heq
      exact hne heq.symm
    | some t => simp [Machine.cur, hc'] at heq
  · rw [Machine.cur_eq_inr.2 hexec, Machine.cur_eq_inr] at heq
    exact hI.exec_ne_of_dispatch hpc heq

end Sched

/-- A thread or scheduler that calls `swtch` comes back with the stack pointer, the return address
and the other registers that a called function must keep, on whatever hart and after whatever the
others have done. -/
theorem regs_of_switched {ctx : κ → BitVec 64} (hsep : Separate ctx)
    {st₀ st₁ st₂ st₃ : SwtchState κ η} {h h' : η} {k : κ}
    (hreach : Reachable (fun st : SwtchState κ η => st.cur.Injective) (SwtchStep ctx) st₀)
    (hout : SwtchStep ctx st₀ (.switch h k) st₁)
    (hrun : Relation.ReflTransGen (fun st st' => ∃ e, (∀ h', e ≠ .switch h' (st₀.cur h)) ∧
      SwtchStep ctx st e st') st₁ st₂)
    (hin : SwtchStep ctx st₂ (.switch h' (st₀.cur h)) st₃) :
    ∀ s ∈ contextSlots, st₃.regs h' s.1 = st₀.regs h s.1 := by
  have hinj : st₀.cur.Injective := hreach.invariant
    (P := fun st : SwtchState κ η => st.cur.Injective) (fun _ hst => hst)
    fun _ _ _ hinj hstep => SwtchStep.injective hinj hstep
  have hsaved : Saved ctx st₂ (st₀.cur h) (st₀.regs h) := by
    clear hin
    induction hrun with
    | refl => exact hout.saved hsep hinj
    | tail _ hstep ih =>
      obtain ⟨e, hne, hstep⟩ := hstep
      exact hstep.keeps hsep hne ih
  exact hin.loaded hsep hsaved

/-- A thread leaves one hart for its scheduler and comes back on another hart. -/
theorem regs_of_switched_migrated : ∃ st : SwtchState (Fin 3) Bool,
    st.cur true = 0 ∧ ∀ s ∈ contextSlots, st.regs true s.1 = 7 := by
  let ctx : Fin 3 → BitVec 64 := fun k => BitVec.ofNat 64 (4096 * (k + 1))
  let regs : BitVec 64 → BitVec 64 → BitVec 64 → Reg → BitVec 64 := fun a0 a1 v r =>
    if r = .a0 then a0 else if r = .a1 then a1 else v
  let st₀ : SwtchState (Fin 3) Bool :=
    ⟨fun _ => 0, fun h => if h then regs (ctx 2) (ctx 0) 9 else regs (ctx 0) (ctx 1) 7,
      fun h => if h then 2 else 0, ∅⟩
  let st₁ := st₀.switch false 1
  have hsep : Separate ctx := by unfold Separate; decide
  have hout : SwtchStep ctx st₀ (.switch false 1) st₁ := ⟨by decide, by decide, by decide, rfl⟩
  have hin : SwtchStep ctx st₁ (.switch true 0) (st₁.switch true 0) :=
    ⟨by decide, by decide, by decide, rfl⟩
  have hinj : st₀.cur.Injective := by unfold Function.Injective; decide
  refine ⟨st₁.switch true 0, by decide, fun s hs => ?_⟩
  rw [regs_of_switched hsep (.start hinj) hout .refl hin s hs]
  revert s hs
  decide

end RiscvLab.Kernel
