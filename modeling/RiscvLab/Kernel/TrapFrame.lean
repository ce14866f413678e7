import RiscvLab.Kernel.Swtch

/-!
# Traps from user mode

`uservec` stores the registers of a user thread in its trap frame, whose address is in `sscratch`,
and `userret` loads them again. In between the kernel does whatever it likes, on this thread and on
others; a thread may return to user mode on another hart. `usertrap` advances the program counter
over `ecall`, and `syscall` stores the result of the system call in the slot of `a0`.

Seen from user mode, each thread has registers and a program counter of its own (`UserCtx`), which
change by its own instructions and by the results of its own system calls only (`nextCtx`). The
harts, with the trap frames in memory, implement this (`userCtx_of_reachable`), except for `tp`:
neither `uservec` nor `userret` loads it, so that it is the number of the hart in user mode too.
The kernel relies on that, but user code may change it. A thread that does so is taken for the
thread on another hart, and returns to user mode with the registers of that thread
(`exists_run_as_other`).

## Main definitions

* `uservec`, `userret` : the code.
* `TrapState`, `TrapStep` : user threads on several harts.

## Main results

* `userCtx_of_reachable`, `exists_run_as_other`.

Source: `kernel/trap/uservec.S`; `kernel/trap/trap.c`, lines 101–156 and 178–207;
`kernel/trap/syscall.c`, lines 64–70; `kernel/proc.c`, lines 187–209; `include/core/proc.h`,
lines 74–110.
-/

namespace RiscvLab.Kernel

open Library

/-! ### The code -/

/-- The slots of `struct trapframe` that both `uservec` and `userret` use, but for that of `a0`. -/
def trapSlots : List (Reg × BitVec 64) :=
  [(.ra, 16), (.sp, 24), (.gp, 32), (.t0, 48), (.t1, 56), (.t2, 64), (.s0, 72), (.s1, 80),
    (.a1, 96), (.a2, 104), (.a3, 112), (.a4, 120), (.a5, 128), (.a6, 136), (.a7, 144),
    (.s2, 152), (.s3, 160), (.s4, 168), (.s5, 176), (.s6, 184), (.s7, 192), (.s8, 200), (.s9, 208),
    (.s10, 216), (.s11, 224), (.t3, 232), (.t4, 240), (.t5, 248), (.t6, 256)]

/-- The registers that `uservec` stores: `tp` as well. -/
def uservecSlots : List (Reg × BitVec 64) :=
  trapSlots.take 3 ++ [(.tp, 40)] ++ trapSlots.drop 3

/-- `uservec`, up to the jump. -/
def uservec : List (Instr Reg) :=
  [.swap .a0 .sscratch] ++ saves .a0 uservecSlots ++
    [.ld .sp 0 .a0, .mv .t0 .sscratch, .sd .t0 88 .a0, .mv .sscratch .a0]

/-- `userret`, up to `sret`. -/
def userret : List (Instr Reg) :=
  [.mv .a0 .sscratch] ++ loads .a0 trapSlots ++ [.ld .a0 88 .a0]

/-- The slots of the registers that a thread gets back. -/
def userSlots : List (Reg × BitVec 64) := trapSlots ++ [(.a0, 88)]

/-- The offsets of the words of `struct trapframe`. -/
def frameOffsets : List (BitVec 64) := (List.range 33).map fun i => BitVec.ofNat 64 (8 * i)

/-- `uservec` fills the trap frame, and leaves its address in `sscratch`. -/
theorem exec_uservec (m : RegMachine Reg) :
    (∀ s ∈ userSlots, (m.exec uservec).mem (m.reg .sscratch + s.2) = m.reg s.1) ∧
      (∀ a, (∀ o ∈ frameOffsets, a ≠ m.reg .sscratch + o) → (m.exec uservec).mem a = m.mem a) ∧
      (m.exec uservec).reg .sscratch = m.reg .sscratch ∧
      (m.exec uservec).reg .tp = m.reg .tp := by
  obtain ⟨hreg, hmem, hother⟩ := @exec_saves Reg _ .a0 uservecSlots (by decide)
    (m.step (.swap .a0 .sscratch))
  have ha0 : (m.step (.swap .a0 .sscratch)).reg .a0 = m.reg .sscratch := by simp [RegMachine.step]
  have hscratch : (m.step (.swap .a0 .sscratch)).reg .sscratch = m.reg .a0 := by
    simp [RegMachine.step]
  have hkeep (r : Reg) (h₁ : r ≠ .a0) (h₂ : r ≠ .sscratch) :
      (m.step (.swap .a0 .sscratch)).reg r = m.reg r := by simp [RegMachine.step, h₁, h₂]
  rw [ha0] at hmem hother
  have hcode : m.exec uservec = ((m.step (.swap .a0 .sscratch)).exec (saves .a0 uservecSlots)).exec
      [.ld .sp 0 .a0, .mv .t0 .sscratch, .sd .t0 88 .a0, .mv .sscratch .a0] := by
    rw [uservec, exec_append, exec_append, exec_cons m, exec_nil]
  rw [hcode]
  generalize (m.step (.swap .a0 .sscratch)).exec (saves .a0 uservecSlots) = m' at *
  -- what the last four instructions do
  have hmem' : (m'.exec [.ld .sp 0 .a0, .mv .t0 .sscratch, .sd .t0 88 .a0, .mv .sscratch .a0]).mem =
      Function.update m'.mem (m.reg .sscratch + 88) (m.reg .a0) := by
    simp [exec_cons, exec_nil, RegMachine.step, hreg]
  rw [hmem']
  have hslots : ∀ s ∈ trapSlots, s ∈ uservecSlots ∧ s.1 ≠ .a0 ∧ s.1 ≠ .sscratch ∧ s.2 ≠ 88 := by
    decide
  have hoffsets : (∀ s ∈ uservecSlots, s.2 ∈ frameOffsets) ∧ 88 ∈ frameOffsets := by decide
  refine ⟨fun s hs => ?_, fun a ha => ?_, ?_, ?_⟩
  · rcases List.mem_append.1 hs with hs | hs
    · obtain ⟨hmem₁, h₁, h₂, h₃⟩ := hslots s hs
      rw [Function.update_of_ne fun e => h₃ ((BitVec.add_right_inj _).1 e), hmem s hmem₁,
        hkeep s.1 h₁ h₂]
    · obtain rfl := List.mem_singleton.1 hs
      exact Function.update_self ..
  · rw [Function.update_of_ne (ha 88 hoffsets.2),
      hother a fun s hs => ha s.2 (hoffsets.1 s hs)]
    rfl
  · simp [exec_cons, exec_nil, RegMachine.step, hreg]
  · simp [exec_cons, exec_nil, RegMachine.step, hreg]

/-- `userret` loads the registers from the trap frame. -/
theorem exec_userret (m : RegMachine Reg) :
    (∀ s ∈ userSlots, (m.exec userret).reg s.1 = m.mem (m.reg .sscratch + s.2)) ∧
      (m.exec userret).mem = m.mem ∧ (m.exec userret).reg .sscratch = m.reg .sscratch ∧
      (m.exec userret).reg .tp = m.reg .tp := by
  have hslots : ∀ s ∈ trapSlots, s.1 ≠ .a0 ∧ s.1 ≠ .sscratch ∧ s.1 ≠ .tp := by decide
  obtain ⟨hmem, hreg, hother⟩ := @exec_loads Reg _ .a0 trapSlots (by decide)
    (m.step (.mv .a0 .sscratch)) fun s hs e => absurd e (hslots s hs).1
  have hcode : m.exec userret =
      ((m.step (.mv .a0 .sscratch)).exec (loads .a0 trapSlots)).step (.ld .a0 88 .a0) := by
    rw [userret, exec_append, exec_append, exec_cons, exec_nil, exec_cons, exec_nil]
  have ha0 := hother .a0 fun s hs => (hslots s hs).1
  have hscratch := hother .sscratch fun s hs => (hslots s hs).2.1
  have htp := hother .tp fun s hs => (hslots s hs).2.2
  rw [hcode]
  generalize (m.step (.mv .a0 .sscratch)).exec (loads .a0 trapSlots) = m' at *
  simp only [RegMachine.step, Function.update_self] at ha0 hmem hreg hscratch htp
  refine ⟨fun s hs => ?_, hmem, by simpa [RegMachine.step] using hscratch,
    by simpa [RegMachine.step] using htp⟩
  rcases List.mem_append.1 hs with hs | hs
  · simpa [RegMachine.step, (hslots s hs).1] using hreg s hs
  · obtain rfl := List.mem_singleton.1 hs
    simp [RegMachine.step, ha0, hmem]

/-! ### User threads on several harts -/

/-- The trap frames of the threads, which do not overlap, and the numbers of the harts. `cpu` is how
the kernel finds the entry of `cpus` for a number. -/
structure TrapLayout (τ η : Type*) where
  tf : τ → BitVec 64
  separate : ∀ t t', t ≠ t' → ∀ o ∈ frameOffsets, ∀ o' ∈ frameOffsets, tf t + o ≠ tf t' + o'
  hartid : η → BitVec 64
  cpu : BitVec 64 → Option η
  cpu_hartid : ∀ h, cpu (hartid h) = some h

/-- What a thread sees of itself in user mode. -/
structure UserCtx where
  reg : Reg → BitVec 64
  pc : BitVec 64

/-- The variables of a call of `usertrap`. `pending` says that `syscall` has not been called yet. -/
structure UsertrapVars (τ : Type*) where
  p : τ
  sepc : BitVec 64
  pending : Bool
  deriving DecidableEq

/-- Harts, memory and threads. `upc` is the program counter of a hart in user mode; `running` is
`cpus[].thread`. `ctx` is what the threads should see. -/
structure TrapState (τ η : Type*) where
  mem : BitVec 64 → BitVec 64
  regs : η → Reg → BitVec 64
  upc : η → BitVec 64
  user : η → Bool
  running : η → Option τ
  vars : τ → Option (UsertrapVars τ)
  ctx : τ → UserCtx

/-- The steps of a hart: user code; a trap, be it a system call or not; other kernel code; a change
of the thread; `syscall` with its result; and the return to user mode. -/
inductive TrapEvent (τ η : Type*)
  | user (h : η) (regs : Reg → BitVec 64) (pc : BitVec 64) (mem : BitVec 64 → BitVec 64)
  | trap (h : η) (ecall : Bool)
  | kernel (h : η) (regs : Reg → BitVec 64) (mem : BitVec 64 → BitVec 64)
  | sched (h : η) (next : Option τ)
  | syscall (h : η) (result : BitVec 32)
  | ret (h : η)

variable {τ η : Type*}

/-- `myproc`: `tp` is taken for the number of the hart. -/
def TrapState.myproc (L : TrapLayout τ η) (st : TrapState τ η) (h : η) : Option τ :=
  (L.cpu (st.regs h .tp)).bind st.running

/-- What a step of the thread `t` does to the contexts. -/
def nextCtx [DecidableEq τ] (ctx : τ → UserCtx) (t : τ) : TrapEvent τ η → τ → UserCtx
  | .user _ regs pc _ => Function.update ctx t ⟨regs, pc⟩
  | .trap _ true => Function.update ctx t { ctx t with pc := (ctx t).pc + 4 }
  | .syscall _ result =>
    Function.update ctx t
      { ctx t with reg := Function.update (ctx t).reg .a0 (result.signExtend 64) }
  | _ => ctx

/-- `uservec` and the beginning of `usertrap`, for the thread `t` that the hart runs and the thread
`p` that `myproc` finds. -/
def TrapState.trap [DecidableEq τ] [DecidableEq η] (st : TrapState τ η) (h : η) (t p : τ)
    (ecall : Bool) : TrapState τ η :=
  let m := (⟨st.regs h, st.mem⟩ : RegMachine Reg).exec uservec
  let sepc := if ecall then st.upc h + 4 else st.upc h
  { st with
    mem := m.mem
    regs := Function.update st.regs h m.reg
    user := Function.update st.user h false
    vars := Function.update st.vars t (some ⟨p, sepc, ecall⟩)
    ctx := nextCtx st.ctx t (.trap h ecall : TrapEvent τ η) }

/-- The end of `usertrap`, `usertrapret` for the thread `q` that `myproc` finds, and `userret`. -/
def TrapState.ret [DecidableEq τ] [DecidableEq η] (L : TrapLayout τ η) (st : TrapState τ η) (h : η)
    (t q : τ) (v : UsertrapVars τ) : TrapState τ η :=
  let mem := Function.update st.mem (L.tf v.p + 8) v.sepc
  let m := (⟨Function.update (st.regs h) .sscratch (L.tf q), mem⟩ : RegMachine Reg).exec userret
  { st with
    mem := m.mem
    regs := Function.update st.regs h m.reg
    upc := Function.update st.upc h (mem (L.tf q + 8))
    user := Function.update st.user h true
    vars := Function.update st.vars t none }

/-- One step. User code does not change `sscratch` and does not store into trap frames, and if it is
`honest`, it does not change `tp`. Other kernel code does not change `tp` and does not store into
trap frames. -/
def TrapStep [DecidableEq τ] [DecidableEq η] (L : TrapLayout τ η) (honest : Bool)
    (st : TrapState τ η) (e : TrapEvent τ η) (st' : TrapState τ η) : Prop :=
  match e with
  | .user h regs pc mem => st.user h = true ∧ ∃ t, st.running h = some t ∧
      regs .sscratch = st.regs h .sscratch ∧ (honest = true → regs .tp = st.regs h .tp) ∧
      (∀ t, ∀ o ∈ frameOffsets, mem (L.tf t + o) = st.mem (L.tf t + o)) ∧
      st' = { st with
        mem := mem
        regs := Function.update st.regs h regs
        upc := Function.update st.upc h pc
        ctx := nextCtx st.ctx t e }
  | .trap h ecall => st.user h = true ∧ ∃ t p, st.running h = some t ∧
      st.myproc L h = some p ∧ st' = st.trap h t p ecall
  | .kernel h regs mem => st.user h = false ∧ regs .tp = st.regs h .tp ∧
      (∀ t, ∀ o ∈ frameOffsets, mem (L.tf t + o) = st.mem (L.tf t + o)) ∧
      st' = { st with mem := mem, regs := Function.update st.regs h regs }
  | .sched h next => st.user h = false ∧ (∀ t, next = some t → ∀ h', st.running h' ≠ some t) ∧
      st' = { st with running := Function.update st.running h next }
  | .syscall h result => st.user h = false ∧ ∃ t q v, st.running h = some t ∧
      st.myproc L h = some q ∧ st.vars t = some v ∧ v.pending = true ∧
      st' = { st with
        mem := Function.update st.mem (L.tf q + 88) (result.signExtend 64)
        vars := Function.update st.vars t (some { v with pending := false })
        ctx := nextCtx st.ctx t e }
  | .ret h => st.user h = false ∧ ∃ t q v, st.running h = some t ∧ st.myproc L h = some q ∧
      st.vars t = some v ∧ v.pending = false ∧ st' = st.ret L h t q v

/-- All threads are in the kernel, about to go to user mode for the first time. -/
structure TrapState.Started (L : TrapLayout τ η) (st : TrapState τ η) : Prop where
  tp : ∀ h, st.regs h .tp = L.hartid h
  kernel : ∀ h, st.user h = false
  unique : ∀ h h' t, st.running h = some t → st.running h' = some t → h = h'
  vars : ∀ t, st.vars t = some ⟨t, (st.ctx t).pc, false⟩
  frame : ∀ t, ∀ s ∈ userSlots, st.mem (L.tf t + s.2) = (st.ctx t).reg s.1

/-- `tp` has the number of the hart. In user mode the registers are those of the context; in the
kernel they are in the trap frame, and the program counter is in a variable of `usertrap`. -/
structure TrapInv (L : TrapLayout τ η) (st : TrapState τ η) : Prop where
  tp : ∀ h, st.regs h .tp = L.hartid h
  unique : ∀ h h' t, st.running h = some t → st.running h' = some t → h = h'
  inUser : ∀ h t, st.user h = true → st.running h = some t → st.regs h .sscratch = L.tf t ∧
    (∀ s ∈ userSlots, st.regs h s.1 = (st.ctx t).reg s.1) ∧ st.upc h = (st.ctx t).pc
  inKernel : ∀ t, (∀ h, st.running h = some t → st.user h = false) →
    (∃ pending, st.vars t = some ⟨t, (st.ctx t).pc, pending⟩) ∧
      ∀ s ∈ userSlots, st.mem (L.tf t + s.2) = (st.ctx t).reg s.1

theorem mem_frameOffsets : ∀ s ∈ userSlots, s.2 ∈ frameOffsets ∧ s.1 ≠ .tp ∧ s.2 ≠ 8 := by decide

/-- The word at 8 is not in a slot of a register. -/
theorem exec_userret_slots {tf pc : BitVec 64} {regs : Reg → BitVec 64}
    {mem : BitVec 64 → BitVec 64} {s : Reg × BitVec 64} (hs : s ∈ userSlots) :
    (RegMachine.exec ⟨Function.update regs .sscratch tf, Function.update mem (tf + 8) pc⟩
      userret).reg s.1 = mem (tf + s.2) := by
  rw [(exec_userret _).1 s hs]
  dsimp only
  rw [Function.update_self, Function.update_of_ne fun e =>
    (mem_frameOffsets s hs).2.2 ((BitVec.add_right_inj _).1 e)]

theorem exists_userSlot (r : Reg) : r ≠ .tp → r ≠ .sscratch → ∃ s ∈ userSlots, s.1 = r := by
  cases r <;> decide

namespace TrapInv

variable {L : TrapLayout τ η} {st st' : TrapState τ η}

theorem ne_of_user {h h' : η} (hu : st.user h' = true) (huser : st.user h = false) : h' ≠ h := by
  rintro rfl
  rw [huser] at hu
  cases hu

/-- A thread that the hart `h` runs in user mode is not in the kernel. -/
theorem ne_of_kernel {h : η} {t t' : τ} (huser : st.user h = true) (hrun : st.running h = some t)
    (hk : ∀ h, st.running h = some t' → st.user h = false) : t' ≠ t := by
  rintro rfl
  rw [hk h hrun] at huser
  cases huser

theorem start (hst : st.Started L) : TrapInv L st := by
  refine ⟨hst.tp, hst.unique, fun h t hu _ => ?_, fun t _ => ⟨⟨false, hst.vars t⟩, hst.frame t⟩⟩
  rw [hst.kernel h] at hu
  cases hu

variable (hI : TrapInv L st)

include hI

theorem myproc_eq (h : η) : st.myproc L h = st.running h := by
  rw [TrapState.myproc, hI.tp, L.cpu_hartid]
  rfl

theorem syscall [DecidableEq τ] {h : η} {t : τ} {v : UsertrapVars τ} {result : BitVec 32}
    (huser : st.user h = false) (hrun : st.running h = some t) (hv : st.vars t = some v) :
    TrapInv L { st with
      mem := Function.update st.mem (L.tf t + 88) (result.signExtend 64)
      vars := Function.update st.vars t (some { v with pending := false })
      ctx := nextCtx st.ctx t (.syscall h result : TrapEvent τ η) } := by
  have hslots : ∀ s ∈ userSlots, (s.1 = .a0 ↔ s.2 = 88) := by decide
  refine ⟨hI.tp, hI.unique, fun h' t' hu hr => ?_, fun t' hk => ?_⟩
  · have htt : t' ≠ t := by
      rintro rfl
      rw [hI.unique h' h t' hr hrun, huser] at hu
      cases hu
    simpa [nextCtx, htt] using hI.inUser h' t' hu hr
  · obtain ⟨⟨pending, hvars⟩, hframe⟩ := hI.inKernel t' hk
    by_cases htt : t' = t
    · subst htt
      obtain rfl : _ = v := Option.some.inj (hvars.symm.trans hv)
      refine ⟨⟨false, by simp [nextCtx]⟩, fun s hs => ?_⟩
      by_cases hs88 : s.2 = 88
      · simp [nextCtx, (hslots s hs).2 hs88, hs88]
      · have hne : L.tf t' + s.2 ≠ L.tf t' + 88 := fun e => hs88 ((BitVec.add_right_inj _).1 e)
        have ha0 : s.1 ≠ .a0 := fun e => hs88 ((hslots s hs).1 e)
        dsimp only
        rw [Function.update_of_ne hne]
        simpa [nextCtx, ha0] using hframe s hs
    · refine ⟨⟨pending, by simpa [nextCtx, htt] using hvars⟩, fun s hs => ?_⟩
      have hne := L.separate t' t htt s.2 (mem_frameOffsets s hs).1 88 (by decide)
      dsimp only
      rw [Function.update_of_ne hne]
      simpa [nextCtx, htt] using hframe s hs

variable [DecidableEq η]

/-- The hart goes on with registers that have the same `tp`. -/
theorem tp_update {h : η} {regs : Reg → BitVec 64} (htp : regs .tp = st.regs h .tp) (h' : η) :
    Function.update st.regs h regs h' .tp = L.hartid h' := by
  by_cases hh : h' = h
  · rw [hh, Function.update_self, htp, hI.tp]
  · rw [Function.update_of_ne hh, hI.tp]

theorem kernel {h : η} {regs : Reg → BitVec 64} {mem : BitVec 64 → BitVec 64}
    (huser : st.user h = false) (htp : regs .tp = st.regs h .tp)
    (hmem : ∀ t, ∀ o ∈ frameOffsets, mem (L.tf t + o) = st.mem (L.tf t + o)) :
    TrapInv L { st with mem := mem, regs := Function.update st.regs h regs } := by
  refine ⟨hI.tp_update htp, hI.unique, fun h' t' hu hr => ?_, fun t' hk => ?_⟩
  · simpa [ne_of_user hu huser] using hI.inUser h' t' hu hr
  · obtain ⟨hvars, hframe⟩ := hI.inKernel t' hk
    exact ⟨hvars, fun s hs => (hmem t' s.2 (mem_frameOffsets s hs).1).trans (hframe s hs)⟩

theorem sched {h : η} {next : Option τ} (huser : st.user h = false)
    (hfree : ∀ t, next = some t → ∀ h', st.running h' ≠ some t) :
    TrapInv L { st with running := Function.update st.running h next } := by
  refine ⟨hI.tp, fun h₁ h₂ t h₁t h₂t => ?_, fun h' t' hu hr => ?_, fun t' hk => hI.inKernel t' ?_⟩
  · by_cases h₁h : h₁ = h <;> by_cases h₂h : h₂ = h
    · exact h₁h.trans h₂h.symm
    · simp only [h₁h, Function.update_self, Function.update_of_ne h₂h] at h₁t h₂t
      exact absurd h₂t (hfree t h₁t h₂)
    · simp only [h₂h, Function.update_self, Function.update_of_ne h₁h] at h₁t h₂t
      exact absurd h₁t (hfree t h₂t h₁)
    · simp only [Function.update_of_ne h₁h, Function.update_of_ne h₂h] at h₁t h₂t
      exact hI.unique h₁ h₂ t h₁t h₂t
  · exact hI.inUser h' t' hu (by simpa [ne_of_user hu huser] using hr)
  · intro h' hr
    by_cases hh : h' = h
    · rw [hh, huser]
    · exact hk h' (by simpa [hh] using hr)

variable [DecidableEq τ]

theorem user {h : η} {t : τ} {regs : Reg → BitVec 64} {pc : BitVec 64} {mem : BitVec 64 → BitVec 64}
    (huser : st.user h = true) (hrun : st.running h = some t)
    (hscratch : regs .sscratch = st.regs h .sscratch) (htp : regs .tp = st.regs h .tp)
    (hmem : ∀ t, ∀ o ∈ frameOffsets, mem (L.tf t + o) = st.mem (L.tf t + o)) :
    TrapInv L { st with
      mem := mem
      regs := Function.update st.regs h regs
      upc := Function.update st.upc h pc
      ctx := Function.update st.ctx t ⟨regs, pc⟩ } := by
  refine ⟨hI.tp_update htp, hI.unique, fun h' t' hu hr => ?_, fun t' hk => ?_⟩
  · by_cases hh : h' = h
    · subst hh
      obtain rfl : t = t' := Option.some.inj (hrun.symm.trans hr)
      simpa [hscratch] using (hI.inUser h' t hu hr).1
    · have htt : t' ≠ t := fun e => hh (hI.unique h' h t (e ▸ hr) hrun)
      simpa [hh, htt] using hI.inUser h' t' hu hr
  · have htt := ne_of_kernel huser hrun hk
    obtain ⟨hvars, hframe⟩ := hI.inKernel t' hk
    simp only [Function.update_of_ne htt]
    exact ⟨hvars, fun s hs => (hmem t' s.2 (mem_frameOffsets s hs).1).trans (hframe s hs)⟩

theorem trap {h : η} {t : τ} {ecall : Bool} (huser : st.user h = true)
    (hrun : st.running h = some t) : TrapInv L (st.trap h t t ecall) := by
  obtain ⟨hscratch, hregs, hpc⟩ := hI.inUser h t huser hrun
  obtain ⟨hframe, hother, -, htp⟩ := exec_uservec ⟨st.regs h, st.mem⟩
  dsimp only at hframe hother htp
  rw [hscratch] at hframe hother
  have hctx (t' : τ) (ht : t' ≠ t) : (st.trap h t t ecall).ctx t' = st.ctx t' := by
    cases ecall <;> simp [TrapState.trap, nextCtx, ht]
  have hreg : ((st.trap h t t ecall).ctx t).reg = (st.ctx t).reg := by
    cases ecall <;> simp [TrapState.trap, nextCtx]
  refine ⟨hI.tp_update htp, hI.unique, fun h' t' hu hr => ?_, fun t' hk => ?_⟩
  · have hh : h' ≠ h := by
      rintro rfl
      simp [TrapState.trap] at hu
    have htt : t' ≠ t := fun e => hh (hI.unique h' h t (e ▸ hr) hrun)
    rw [hctx t' htt]
    simpa [TrapState.trap, hh] using hI.inUser h' t' (by simpa [TrapState.trap, hh] using hu) hr
  · by_cases htt : t' = t
    · subst htt
      refine ⟨⟨ecall, ?_⟩, fun s hs => ?_⟩
      · cases ecall <;> simp [TrapState.trap, nextCtx, hpc]
      · rw [hreg, ← hregs s hs]
        exact hframe s hs
    · have hk' : ∀ h', st.running h' = some t' → st.user h' = false := fun h' hr => by
        have hh : h' ≠ h := by
          rintro rfl
          exact htt (Option.some.inj (hr.symm.trans hrun))
        simpa [TrapState.trap, hh] using hk h' hr
      obtain ⟨hvars, hmem⟩ := hI.inKernel t' hk'
      rw [hctx t' htt]
      refine ⟨by simpa [TrapState.trap, htt] using hvars, fun s hs => ?_⟩
      rw [← hmem s hs]
      exact hother _ fun o ho => L.separate t' t htt s.2 (mem_frameOffsets s hs).1 o ho

theorem ret {h : η} {t : τ} {v : UsertrapVars τ} (huser : st.user h = false)
    (hrun : st.running h = some t) (hv : st.vars t = some v) : TrapInv L (st.ret L h t t v) := by
  obtain ⟨⟨pending, hvars⟩, hframe⟩ := hI.inKernel t fun h' hr => by
    rw [hI.unique h' h t hr hrun, huser]
  obtain rfl : _ = v := Option.some.inj (hvars.symm.trans hv)
  obtain ⟨-, hmem, hscratch, htp⟩ := exec_userret
    ⟨Function.update (st.regs h) .sscratch (L.tf t),
      Function.update st.mem (L.tf t + 8) (st.ctx t).pc⟩
  simp only [Function.update_self] at hscratch
  refine ⟨fun h' => ?_, hI.unique, fun h' t' hu hr => ?_, fun t' hk => ?_⟩
  · simpa [TrapState.ret] using hI.tp_update htp h'
  · by_cases hh : h' = h
    · subst hh
      obtain rfl : t = t' := Option.some.inj (hrun.symm.trans hr)
      refine ⟨by simpa [TrapState.ret] using hscratch, fun s hs => ?_, by simp [TrapState.ret]⟩
      simpa [TrapState.ret] using (exec_userret_slots hs).trans (hframe s hs)
    · simpa [TrapState.ret, hh] using
        hI.inUser h' t' (by simpa [TrapState.ret, hh] using hu) hr
  · have htt : t' ≠ t := by
      rintro rfl
      simpa [TrapState.ret] using hk h hrun
    obtain ⟨hvars', hframe'⟩ := hI.inKernel t' fun h' hr => by
      have hh : h' ≠ h := by
        rintro rfl
        exact htt (Option.some.inj (hr.symm.trans hrun))
      simpa [TrapState.ret, hh] using hk h' hr
    refine ⟨by simpa [TrapState.ret, htt] using hvars', fun s hs => ?_⟩
    have hne := L.separate t' t htt s.2 (mem_frameOffsets s hs).1 8 (by decide)
    have hword : (st.ret L h t t ⟨t, (st.ctx t).pc, pending⟩).mem =
        Function.update st.mem (L.tf t + 8) (st.ctx t).pc := hmem
    rw [hword, Function.update_of_ne hne]
    exact hframe' s hs

/-- What one step preserves, if user code does not change `tp`. -/
theorem step {e : TrapEvent τ η} (hstep : TrapStep L true st e st') : TrapInv L st' := by
  cases e with
  | user h regs pc mem =>
    obtain ⟨huser, t, hrun, hscratch, htp, hmem, rfl⟩ := hstep
    exact hI.user huser hrun hscratch (htp rfl) hmem
  | trap h ecall =>
    obtain ⟨huser, t, p, hrun, hp, rfl⟩ := hstep
    obtain rfl : t = p := Option.some.inj (hrun.symm.trans ((hI.myproc_eq h).symm.trans hp))
    exact hI.trap huser hrun
  | kernel h regs mem =>
    obtain ⟨huser, htp, hmem, rfl⟩ := hstep
    exact hI.kernel huser htp hmem
  | sched h next =>
    obtain ⟨huser, hfree, rfl⟩ := hstep
    exact hI.sched huser hfree
  | syscall h result =>
    obtain ⟨huser, t, q, v, hrun, hq, hv, -, rfl⟩ := hstep
    obtain rfl : t = q := Option.some.inj (hrun.symm.trans ((hI.myproc_eq h).symm.trans hq))
    exact hI.syscall huser hrun hv
  | ret h =>
    obtain ⟨huser, t, q, v, hrun, hq, hv, -, rfl⟩ := hstep
    obtain rfl : t = q := Option.some.inj (hrun.symm.trans ((hI.myproc_eq h).symm.trans hq))
    exact hI.ret huser hrun hv

end TrapInv

variable [DecidableEq τ] [DecidableEq η]

theorem trapInv_of_reachable {L : TrapLayout τ η} {st : TrapState τ η}
    (hreach : Reachable (TrapState.Started L) (TrapStep L true) st) : TrapInv L st :=
  hreach.invariant (P := TrapInv L) (fun _ => TrapInv.start) fun _ _ _ hI hstep => hI.step hstep

/-- In every run, whatever the interleaving and the harts that the threads run on, a thread has its
own registers and its own program counter in user mode: they change by its own instructions, and by
a system call, which puts its result into `a0` and goes on behind `ecall`. The register `tp` is the
number of the hart. -/
theorem userCtx_of_reachable {L : TrapLayout τ η} {st : TrapState τ η}
    (hreach : Reachable (TrapState.Started L) (TrapStep L true) st) {h : η} {t : τ}
    (huser : st.user h = true) (hrun : st.running h = some t) :
    (∀ r, r ≠ .tp → r ≠ .sscratch → st.regs h r = (st.ctx t).reg r) ∧
      st.upc h = (st.ctx t).pc ∧ st.regs h .tp = L.hartid h := by
  have hI := trapInv_of_reachable hreach
  obtain ⟨-, hregs, hpc⟩ := hI.inUser h t huser hrun
  refine ⟨fun r htp hscratch => ?_, hpc, hI.tp h⟩
  obtain ⟨s, hs, rfl⟩ := exists_userSlot r htp hscratch
  exact hregs s hs

/-- The trap frames of two threads, and two harts. -/
def twoThreads : TrapLayout Bool Bool where
  tf t := if t then 8192 else 4096
  separate := by
    have hlt : ∀ o ∈ frameOffsets, o < 4096 := by
      intro o ho
      obtain ⟨i, hi, rfl⟩ := List.mem_map.1 ho
      have := List.mem_range.1 hi
      bv_omega
    intro t t' htt o ho o' ho' heq
    have h := hlt o ho
    have h' := hlt o' ho'
    cases t <;> cases t' <;> simp at htt heq <;> bv_omega
  hartid h := if h then 1 else 0
  cpu n := if n = 0 then some false else if n = 1 then some true else none
  cpu_hartid := by decide

/-- Both threads are in the kernel, each on a hart. -/
def twoThreadsStart : TrapState Bool Bool where
  mem _ := 7
  regs h _ := twoThreads.hartid h
  upc _ := 0
  user _ := false
  running h := some h
  vars t := some ⟨t, 100, false⟩
  ctx _ := ⟨fun _ => 7, 100⟩

theorem started_twoThreadsStart : twoThreadsStart.Started twoThreads :=
  ⟨fun _ => rfl, fun _ => rfl, by decide, fun _ => rfl, fun _ _ _ => rfl⟩

/-- One thread goes to user mode, makes a system call, and gets the result. -/
theorem userCtx_of_reachable_ecall : ∃ st : TrapState Bool Bool,
    st.user false = true ∧ st.running false = some false ∧
      st.regs false .a0 = BitVec.signExtend 64 (-38#32) ∧ st.regs false .sp = 7 ∧
      st.upc false = 104 := by
  let st₀ := twoThreadsStart
  let st₁ := st₀.ret twoThreads false false false ⟨false, 100, false⟩
  let st₂ := st₁.trap false false false true
  let st₃ : TrapState Bool Bool :=
    { st₂ with
      mem := Function.update st₂.mem (twoThreads.tf false + 88) ((-38#32).signExtend 64)
      vars := Function.update st₂.vars false (some ⟨false, 104, false⟩)
      ctx := nextCtx st₂.ctx false (.syscall false (-38#32) : TrapEvent Bool Bool) }
  let st₄ := st₃.ret twoThreads false false false ⟨false, 104, false⟩
  have h₁ : TrapStep twoThreads true st₀ (.ret false) st₁ :=
    ⟨rfl, false, false, _, rfl, rfl, rfl, rfl, rfl⟩
  have h₂ : TrapStep twoThreads true st₁ (.trap false true) st₂ :=
    ⟨rfl, false, false, rfl, by decide, rfl⟩
  have h₃ : TrapStep twoThreads true st₂ (.syscall false (-38#32)) st₃ :=
    ⟨rfl, false, false, ⟨false, 104, true⟩, rfl, by decide, by decide, rfl, rfl⟩
  have h₄ : TrapStep twoThreads true st₃ (.ret false) st₄ :=
    ⟨rfl, false, false, _, rfl, by decide, rfl, rfl, rfl⟩
  have hreach : Reachable (TrapState.Started twoThreads) (TrapStep twoThreads true) st₄ :=
    .next (.next (.next (.next (.start started_twoThreadsStart) h₁) h₂) h₃) h₄
  obtain ⟨hregs, hpc, -⟩ := userCtx_of_reachable hreach (h := false) (t := false) rfl rfl
  exact ⟨st₄, rfl, rfl, (hregs .a0 (by decide) (by decide)).trans (by decide),
    (hregs .sp (by decide) (by decide)).trans (by decide), hpc.trans (by decide)⟩

/-- If `myproc` finds the thread `b` while the hart runs `a`, a trap of `a` ends with the registers
of `b`. -/
theorem exists_trap_ret {L : TrapLayout τ η} {honest : Bool} (st : TrapState τ η) {h : η} {a b : τ}
    {reg : Reg → BitVec 64} (huser : st.user h = true) (hrun : st.running h = some a)
    (hscratch : st.regs h .sscratch = L.tf a) (hproc : st.myproc L h = some b) (hne : b ≠ a)
    (hframe : ∀ s ∈ userSlots, st.mem (L.tf b + s.2) = reg s.1) :
    ∃ st₁ st₂, TrapStep L honest st (.trap h false) st₁ ∧ TrapStep L honest st₁ (.ret h) st₂ ∧
      st₂.user h = true ∧ st₂.running h = some a ∧ st₂.upc h = st.upc h ∧
      ∀ s ∈ userSlots, st₂.regs h s.1 = reg s.1 := by
  obtain ⟨-, hother, -, htp⟩ := exec_uservec ⟨st.regs h, st.mem⟩
  dsimp only at hother htp
  rw [hscratch] at hother
  let st₁ := st.trap h a b false
  let st₂ := st₁.ret L h a b ⟨b, st.upc h, false⟩
  have hproc₁ : st₁.myproc L h = some b := by
    have htp₁ : st₁.regs h .tp = st.regs h .tp := (congrFun (Function.update_self ..) _).trans htp
    rw [TrapState.myproc, htp₁]
    exact hproc
  have hmem₁ (s : Reg × BitVec 64) (hs : s ∈ userSlots) : st₁.mem (L.tf b + s.2) = reg s.1 :=
    (hother _ (L.separate b a hne s.2 (mem_frameOffsets s hs).1)).trans (hframe s hs)
  refine ⟨st₁, st₂, ⟨huser, a, b, hrun, hproc, rfl⟩,
    ⟨Function.update_self .., a, b, _, hrun, hproc₁, Function.update_self .., rfl, rfl⟩,
    Function.update_self .., hrun,
    (Function.update_self ..).trans (Function.update_self ..), fun s hs => ?_⟩
  exact (congrFun (Function.update_self ..) _).trans
    ((exec_userret_slots hs).trans (hmem₁ s hs))

/-- While the thread `b` is in the kernel on one hart, the thread `a` on another hart in user mode
can store the number of that hart in `tp`. After the next trap it runs with the registers of `b`,
from wherever it likes. -/
theorem exists_run_as_other {L : TrapLayout τ η} {st : TrapState τ η}
    (hreach : Reachable (TrapState.Started L) (TrapStep L true) st) {h h' : η} {a b : τ}
    (ha : st.user h = true) (hruna : st.running h = some a) (hb : st.user h' = false)
    (hrunb : st.running h' = some b) (pc : BitVec 64) :
    ∃ st', Reachable (TrapState.Started L) (TrapStep L false) st' ∧ st'.user h = true ∧
      st'.running h = some a ∧ st'.upc h = pc ∧
      ∀ r, r ≠ .tp → r ≠ .sscratch → st'.regs h r = (st.ctx b).reg r := by
  have hI := trapInv_of_reachable hreach
  have hkernel : ∀ h'', st.running h'' = some b → st.user h'' = false := fun h'' hr => by
    rw [hI.unique h'' h' b hr hrunb, hb]
  obtain ⟨hscratch, -, -⟩ := hI.inUser h a ha hruna
  -- the instruction that writes `tp`
  let regs := Function.update (st.regs h) .tp (L.hartid h')
  let st₁ : TrapState τ η :=
    { st with
      regs := Function.update st.regs h regs
      upc := Function.update st.upc h pc
      ctx := nextCtx st.ctx a (.user h regs pc st.mem : TrapEvent τ η) }
  have hsc₁ : regs .sscratch = st.regs h .sscratch := Function.update_of_ne (by decide) _ _
  have h₁ : TrapStep L false st (.user h regs pc st.mem) st₁ :=
    ⟨ha, a, hruna, hsc₁, by simp, fun _ _ _ => rfl, rfl⟩
  have hproc₁ : st₁.myproc L h = some b := by
    have htp₁ : st₁.regs h .tp = L.hartid h' :=
      (congrFun (Function.update_self ..) _).trans (Function.update_self ..)
    rw [TrapState.myproc, htp₁, L.cpu_hartid]
    exact hrunb
  obtain ⟨st₂, st₃, h₂, h₃, huser, hrun, hpc, hregs⟩ := exists_trap_ret st₁ ha hruna
    ((congrFun (Function.update_self ..) _).trans (hsc₁.trans hscratch)) hproc₁
    (TrapInv.ne_of_kernel ha hruna hkernel) (hI.inKernel b hkernel).2
  have hweak : Reachable (TrapState.Started L) (TrapStep L false) st :=
    hreach.mono fun s e s' hs => by
      cases e with
      | user h regs pc mem =>
        obtain ⟨hu, t, hr, hsc, -, hmem, heq⟩ := hs
        exact ⟨hu, t, hr, hsc, by simp, hmem, heq⟩
      | _ => exact hs
  refine ⟨st₃, .next (.next (.next hweak h₁) h₂) h₃, huser, hrun,
    hpc.trans (Function.update_self ..), fun r htp hsc => ?_⟩
  obtain ⟨s, hs, rfl⟩ := exists_userSlot r htp hsc
  exact hregs s hs

/-- The other thread has been interrupted, and the first one takes its place. -/
theorem exists_run_as_other_two : ∃ st : TrapState Bool Bool,
    Reachable (TrapState.Started twoThreads) (TrapStep twoThreads false) st ∧
      st.user false = true ∧ st.running false = some false ∧ st.upc false = 4000 ∧
      st.regs false .sp = 7 := by
  let st₁ := twoThreadsStart.ret twoThreads false false false ⟨false, 100, false⟩
  have h₁ : TrapStep twoThreads true twoThreadsStart (.ret false) st₁ :=
    ⟨rfl, false, false, _, rfl, rfl, rfl, rfl, rfl⟩
  obtain ⟨st, hreach, huser, hrun, hpc, hregs⟩ := exists_run_as_other
    (.next (.start started_twoThreadsStart) h₁) (rfl : st₁.user false = true)
    (rfl : _ = some false) (rfl : st₁.user true = false) (rfl : _ = some true) 4000
  exact ⟨st, hreach, huser, hrun, hpc, hregs .sp (by decide) (by decide)⟩

end RiscvLab.Kernel
