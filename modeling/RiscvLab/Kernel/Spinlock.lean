import RiscvLab.Kernel.Interrupts

/-!
# Spinlocks

Harts call `spin_lock` and `spin_unlock` on a lock at the same time. A step is one access to a field
of the lock; `holding` reads two fields, and only the swap of `lock` is atomic with its test. Calls
that are mistakes are steps as well: a hart may lock what it holds and unlock what it does not hold.

`holding` is exact although it does not synchronise: `cpuid` is written after the swap and reset
before the release, both by the hart that holds the lock.

## Main definitions

* `SpinState`, `SpinStep` : harts and a lock.

## Main results

* `spinSafe_of_reachable` : one hart holds the lock at a time, with interrupts turned off, and a
  call panics exactly if it is a mistake.

Source: `lib/spinlock.c`, lines 8–14 and 48–96.
-/

namespace RiscvLab.Kernel

open Library

/-- The two functions. -/
inductive SpinCall
  | lock
  | unlock
  deriving DecidableEq

/-- What a hart does next with the lock. `had` says whether it held the lock when it called. -/
inductive SpinPc
  | outside (had : Bool)
  | testLock (f : SpinCall) (had : Bool)
  | testCpuid (f : SpinCall) (had : Bool)
  | swap (had : Bool)
  | setCpuid
  | resetCpuid (had : Bool)
  | release
  | popOff
  | panicked (f : SpinCall) (had : Bool)
  | popPanicked

/-- A lock and harts; `cpuid` is `none` for -1. `depth` is how often other code on a hart has turned
interrupts off. -/
structure SpinState (η : Type*) where
  lock : Bool
  cpuid : Option η
  pc : η → SpinPc
  cpu : η → IntrCpu
  depth : η → ℕ

/-- A function is called, a field is accessed, other code on a hart calls `push_off` and `pop_off`,
and interrupts are turned on and off outside. -/
inductive SpinEvent (η : Type*)
  | call (f : SpinCall) (h : η)
  | access (h : η)
  | other (h : η) (ops : List NestOp)
  | intr (h : η) (on : Bool)

namespace SpinPc

/-- The hart holds the lock. -/
def holds : SpinPc → Bool
  | outside had | testLock _ had | testCpuid _ had | swap had | resetCpuid had => had
  | panicked _ had => had
  | setCpuid | release => true
  | popOff | popPanicked => false

/-- How a function goes on after `holding`. -/
def tested (f : SpinCall) (had holding : Bool) : SpinPc :=
  match f with
  | .lock => if holding then panicked f had else swap had
  | .unlock => if holding then resetCpuid had else panicked f had

/-- A function panics if the call is a mistake, and goes on otherwise. -/
def Exact : SpinPc → Prop
  | swap had => had = false
  | resetCpuid had => had = true
  | panicked f had => f = .lock ↔ had = true
  | popPanicked => False
  | _ => True

/-- How often the functions have called `push_off`. -/
def pushed : SpinPc → ℕ
  | testLock .lock had | testCpuid .lock had | swap had | panicked .lock had => had.toNat + 1
  | popOff => 1
  | p => p.holds.toNat

end SpinPc

variable {η : Type*} [DecidableEq η]

/-- The hart `h` goes on at `p`. -/
def SpinState.goTo (st : SpinState η) (h : η) (p : SpinPc) : SpinState η :=
  { st with pc := Function.update st.pc h p }

/-- The interrupt state of the hart `h` changes. -/
def SpinState.setCpu (st : SpinState η) (h : η) (x : IntrCpu) : SpinState η :=
  { st with cpu := Function.update st.cpu h x }

/-- The next access of a hart. -/
def SpinState.access (st : SpinState η) (h : η) : SpinState η :=
  match st.pc h with
  | .testLock f had => st.goTo h (if st.lock then .testCpuid f had else .tested f had false)
  | .testCpuid f had => st.goTo h (.tested f had (st.cpuid = some h))
  | .swap _ => if st.lock then st else { st.goTo h .setCpuid with lock := true }
  | .setCpuid => { st.goTo h (.outside true) with cpuid := some h }
  | .resetCpuid _ => { st.goTo h .release with cpuid := none }
  | .release => { st.goTo h .popOff with lock := false }
  | .popOff =>
    match popOff (st.cpu h) with
    | none => st.goTo h .popPanicked
    | some x => (st.goTo h (.outside false)).setCpu h x
  | _ => st

/-- One step. `spin_lock` begins with `push_off`. -/
def SpinStep (st : SpinState η) (e : SpinEvent η) (st' : SpinState η) : Prop :=
  match e with
  | .call .lock h => ∃ had, st.pc h = .outside had ∧
      st' = (st.goTo h (.testLock .lock had)).setCpu h (pushOff (st.cpu h))
  | .call .unlock h => ∃ had, st.pc h = .outside had ∧ st' = st.goTo h (.testLock .unlock had)
  | .access h => st' = st.access h
  | .other h ops => ∃ had d x, st.pc h = .outside had ∧ depthAfter ops (st.depth h) = some d ∧
      runOps ops (st.cpu h) = some x ∧
      st' = { st.setCpu h x with depth := Function.update st.depth h d }
  | .intr h on => st.pc h = .outside false ∧ st.depth h = 0 ∧
      st' = st.setCpu h { st.cpu h with intr := on }

/-- `spin_init`, with nothing turned off. -/
structure SpinState.Started (st : SpinState η) : Prop where
  lock : st.lock = false
  cpuid : st.cpuid = none
  pc : ∀ h, st.pc h = .outside false
  noff : ∀ h, (st.cpu h).noff = 0
  depth : ∀ h, st.depth h = 0

/-- What spinlocks are for. -/
structure SpinSafe (st : SpinState η) : Prop where
  exclusive : ∀ h h', (st.pc h).holds = true → (st.pc h').holds = true → h = h'
  held : st.lock = true → ∃ h, (st.pc h).holds = true
  exact : ∀ h, (st.pc h).Exact
  intr : ∀ h, (st.pc h).holds = true → (st.cpu h).intr = false

/-- The hart `o` holds the lock, and has written `cpuid` unless it is about to or has reset it. -/
structure SpinInv (st : SpinState η) (o : Option η) : Prop where
  holds : ∀ h, (st.pc h).holds = true ↔ o = some h
  lock : st.lock = o.isSome
  cpuid : ∀ h, st.cpuid = some h ↔ o = some h ∧ st.pc h ≠ .setCpuid ∧ st.pc h ≠ .release
  exact : ∀ h, (st.pc h).Exact
  nested : ∀ h, NestedAt 0 (st.depth h + (st.pc h).pushed) (st.cpu h)

/-! ### What the steps preserve -/

theorem depthAfter_add {ops : List NestOp} {d e : ℕ} (h : depthAfter ops d = some e) (k : ℕ) :
    depthAfter ops (d + k) = some (e + k) := by
  induction ops generalizing d with
  | nil => exact congrArg (Option.map (· + k)) h
  | cons op ops ih =>
    cases op with
    | push =>
      rw [depthAfter, Nat.add_right_comm]
      exact ih h
    | pop =>
      cases d with
      | zero => cases h
      | succ d =>
        rw [Nat.add_right_comm]
        exact ih h

/-- If `holding` answers what it should, the function does what it should. -/
theorem SpinPc.tested_spec (f : SpinCall) (had : Bool) : (tested f had had).Exact ∧
    (tested f had had).holds = had ∧ (tested f had had).pushed = (testCpuid f had).pushed ∧
      tested f had had ≠ .setCpuid ∧ tested f had had ≠ .release := by
  cases f <;> cases had <;> simp [tested, Exact, holds, pushed]

theorem SpinPc.pushed_pos {p : SpinPc} (hp : p.holds = true) : 0 < p.pushed := by
  rcases p with _ | ⟨_ | _, _⟩ | ⟨_ | _, _⟩ | _ | _ | _ | _ | _ | ⟨_ | _, _⟩ | _ <;>
    simp_all [holds, pushed]

namespace SpinInv

variable {st st' : SpinState η} {o : Option η} {h : η} {p : SpinPc}

theorem move (hI : SpinInv st o) (hpc : st'.pc = Function.update st.pc h p)
    (hlock : st'.lock = st.lock) (hcpuid : st'.cpuid = st.cpuid)
    (hholds : p.holds = (st.pc h).holds) (hexact : p.Exact)
    (hshown : p ≠ .setCpuid ∧ p ≠ .release) (hshown' : st.pc h ≠ .setCpuid ∧ st.pc h ≠ .release)
    (hother : ∀ h' ≠ h, st'.depth h' = st.depth h' ∧ st'.cpu h' = st.cpu h')
    (hnested : NestedAt 0 (st'.depth h + p.pushed) (st'.cpu h)) : SpinInv st' o := by
  refine ⟨fun h' => ?_, hlock.trans hI.lock, fun h' => ?_, fun h' => ?_, fun h' => ?_⟩ <;>
    rw [hpc] <;> by_cases hh : h' = h
  · rw [hh, Function.update_self, hholds, hI.holds]
  · rw [Function.update_of_ne hh, hI.holds]
  · rw [hh, Function.update_self, hcpuid, hI.cpuid]
    simp only [hshown, hshown', ne_eq, not_false_eq_true, and_self]
  · rw [Function.update_of_ne hh, hcpuid, hI.cpuid]
  · rwa [hh, Function.update_self]
  · rw [Function.update_of_ne hh]
    exact hI.exact h'
  · rwa [hh, Function.update_self]
  · rw [Function.update_of_ne hh, (hother h' hh).1, (hother h' hh).2]
    exact hI.nested h'

/-- A hart takes the lock, or uses it as the one that holds it. -/
theorem turn (hI : SpinInv st o) (ho : ∀ h' ≠ h, o ≠ some h')
    (hpc : st'.pc = Function.update st.pc h p) (hlock : st'.lock = p.holds)
    (hcpuid : ∀ h', st'.cpuid = some h' ↔
      h' = h ∧ p.holds = true ∧ p ≠ .setCpuid ∧ p ≠ .release)
    (hexact : p.Exact) (hpushed : p.pushed = (st.pc h).pushed) (hdepth : st'.depth = st.depth)
    (hcpu : st'.cpu = st.cpu) : SpinInv st' (if p.holds then some h else none) := by
  have ho' (h' : η) : (if p.holds then some h else none) = some h' ↔ p.holds = true ∧ h = h' := by
    split <;> simp [*]
  refine ⟨fun h' => ?_, ?_, fun h' => ?_, fun h' => ?_, fun h' => ?_⟩
  · rw [ho', hpc]
    by_cases hh : h' = h
    · simp [hh]
    · rw [Function.update_of_ne hh, hI.holds]
      simp [ho h' hh, Ne.symm hh]
  · rw [hlock]
    cases p.holds <;> rfl
  · rw [hcpuid, ho', hpc]
    by_cases hh : h' = h
    · simp [hh]
    · simp [hh, Ne.symm hh]
  · rw [hpc]
    by_cases hh : h' = h
    · rwa [hh, Function.update_self]
    · rw [Function.update_of_ne hh]
      exact hI.exact h'
  · rw [hpc, hdepth, hcpu]
    by_cases hh : h' = h
    · rw [hh, Function.update_self, hpushed]
      exact hI.nested h
    · rw [Function.update_of_ne hh]
      exact hI.nested h'

omit [DecidableEq η] in
theorem owner (hI : SpinInv st o) (hholds : (st.pc h).holds = true) : o = some h :=
  (hI.holds h).1 hholds

theorem access (hI : SpinInv st o) (h : η) : ∃ o', SpinInv (st.access h) o' := by
  have hn := hI.nested h
  have hone (ho : o = some h) (h' : η) (hh : h' ≠ h) : o ≠ some h' := fun e =>
    hh (Option.some_inj.1 (e.symm.trans ho))
  unfold SpinState.access
  cases hpc : st.pc h with rw [hpc] at hn
  | outside had => exact ⟨o, hI⟩
  | panicked f had => exact ⟨o, hI⟩
  | popPanicked => exact ⟨o, hI⟩
  | testLock f had =>
    cases hlock : st.lock with
    | true =>
      refine ⟨o, hI.move rfl rfl rfl (by rw [hpc]; rfl) trivial (by simp) (by simp [hpc])
        (fun _ _ => ⟨rfl, rfl⟩) ?_⟩
      cases f <;> exact hn
    | false =>
      -- a hart that holds the lock would have found it locked
      obtain rfl : had = false := by
        by_contra hhad
        have ho := hI.owner (h := h) (by rw [hpc]; exact Bool.eq_true_of_not_eq_false hhad)
        rw [hI.lock, ho] at hlock
        cases hlock
      obtain ⟨hexact, hholds, hpushed, hshown⟩ := SpinPc.tested_spec f false
      refine ⟨o, hI.move rfl rfl rfl (by rw [hpc]; exact hholds) hexact hshown (by simp [hpc])
        (fun _ _ => ⟨rfl, rfl⟩) ?_⟩
      change NestedAt 0 (st.depth h + (SpinPc.tested f false false).pushed) (st.cpu h)
      rw [hpushed]
      cases f <;> exact hn
  | testCpuid f had =>
    have hanswer : decide (st.cpuid = some h) = had := by
      have hcpuid := hI.cpuid h
      rw [← hI.holds, hpc] at hcpuid
      cases had <;> simp_all [SpinPc.holds]
    rw [hanswer]
    obtain ⟨hexact, hholds, hpushed, hshown⟩ := SpinPc.tested_spec f had
    exact ⟨o, hI.move rfl rfl rfl (by rw [hpc]; exact hholds) hexact hshown (by simp [hpc])
      (fun _ _ => ⟨rfl, rfl⟩) (by rw [hpushed]; exact hn)⟩
  | swap had =>
    obtain rfl : had = false := by simpa [hpc, SpinPc.Exact] using hI.exact h
    cases hlock : st.lock with
    | true => exact ⟨o, hI⟩
    | false =>
      obtain rfl : o = none := by simpa [hlock] using hI.lock
      exact ⟨_, hI.turn (by simp) rfl rfl (by simp [SpinState.goTo, hI.cpuid]) trivial
        (by rw [hpc]; rfl) rfl rfl⟩
  | setCpuid =>
    have ho := hI.owner (h := h) (by rw [hpc]; rfl)
    have hlock : st.lock = true := by rw [hI.lock, ho]; rfl
    exact ⟨_, hI.turn (hone ho) rfl hlock (by simp [SpinPc.holds, eq_comm]) trivial
      (by rw [hpc]; rfl) rfl rfl⟩
  | resetCpuid had =>
    obtain rfl : had = true := by simpa [hpc, SpinPc.Exact] using hI.exact h
    have ho := hI.owner (h := h) (by rw [hpc]; rfl)
    have hlock : st.lock = true := by rw [hI.lock, ho]; rfl
    exact ⟨_, hI.turn (hone ho) rfl hlock (by simp) trivial (by rw [hpc]; rfl) rfl rfl⟩
  | release =>
    have ho := hI.owner (h := h) (by rw [hpc]; rfl)
    refine ⟨_, hI.turn (hone ho) rfl rfl (fun h' => ?_) trivial (by rw [hpc]; rfl) rfl rfl⟩
    have hcpuid := hI.cpuid h'
    rw [ho] at hcpuid
    constructor
    · intro hsome
      obtain ⟨he, -, hne⟩ := hcpuid.1 hsome
      exact absurd (Option.some_inj.1 he ▸ hpc) hne
    · rintro ⟨-, hfalse, -⟩
      cases hfalse
  | popOff =>
    obtain ⟨x, hx, hx'⟩ := hn.run [.pop] (rfl : _ = some (st.depth h))
    have hpop : popOff (st.cpu h) = some x := by simpa [runOps] using hx
    rw [hpop]
    refine ⟨o, hI.move rfl rfl rfl (by rw [hpc]; rfl) trivial (by simp) (by simp [hpc])
      (fun h' hh => ⟨rfl, Function.update_of_ne hh _ _⟩) ?_⟩
    dsimp only [SpinState.setCpu]
    rwa [Function.update_self]

theorem step (hI : SpinInv st o) {e : SpinEvent η} (hstep : SpinStep st e st') :
    ∃ o', SpinInv st' o' := by
  cases e with
  | call f h =>
    cases f with
    | lock =>
      obtain ⟨had, hpc, rfl⟩ := hstep
      have hn := hI.nested h
      rw [hpc] at hn
      refine ⟨o, hI.move rfl rfl rfl (by rw [hpc]; rfl) trivial (by simp) (by simp [hpc])
        (fun h' hh => ⟨rfl, Function.update_of_ne hh _ _⟩) ?_⟩
      obtain ⟨x, hx, hx'⟩ := hn.run [.push] (rfl : _ = some _)
      obtain rfl : pushOff (st.cpu h) = x := by simpa [runOps] using hx
      dsimp only [SpinState.setCpu]
      rwa [Function.update_self]
    | unlock =>
      obtain ⟨had, hpc, rfl⟩ := hstep
      have hn := hI.nested h
      rw [hpc] at hn
      exact ⟨o, hI.move rfl rfl rfl (by rw [hpc]; rfl) trivial (by simp) (by simp [hpc])
        (fun _ _ => ⟨rfl, rfl⟩) hn⟩
  | access h =>
    obtain rfl := hstep
    exact hI.access h
  | other h ops =>
    obtain ⟨had, d, x, hpc, hd, hx, rfl⟩ := hstep
    have hn := hI.nested h
    rw [hpc] at hn
    obtain ⟨y, hy, hy'⟩ := hn.run ops (depthAfter_add hd _)
    obtain rfl : x = y := Option.some_inj.1 (hx.symm.trans hy)
    refine ⟨o, hI.move (h := h) (p := .outside had) ?_ rfl rfl (by rw [hpc]) trivial (by simp)
      (by simp [hpc])
      (fun h' hh => ⟨Function.update_of_ne hh _ _, Function.update_of_ne hh _ _⟩) ?_⟩
    · rw [← hpc, Function.update_eq_self]
      rfl
    · dsimp only [SpinState.setCpu]
      rwa [Function.update_self, Function.update_self]
  | intr h on =>
    obtain ⟨hpc, hd, rfl⟩ := hstep
    have hn := hI.nested h
    rw [hpc, hd] at hn
    refine ⟨o, hI.move (h := h) (p := .outside false) ?_ rfl rfl (by rw [hpc]) trivial (by simp)
      (by simp [hpc]) (fun h' hh => ⟨rfl, Function.update_of_ne hh _ _⟩) ?_⟩
    · rw [← hpc, Function.update_eq_self]
      rfl
    · dsimp only [SpinState.setCpu]
      rw [Function.update_self, hd]
      exact hn.of_noff rfl

omit [DecidableEq η] in
theorem start (hst : st.Started) : SpinInv st none := by
  refine ⟨fun h => ?_, ?_, fun h => ?_, fun h => ?_, fun h => ?_⟩
  · simp [hst.pc, SpinPc.holds]
  · simp [hst.lock]
  · simp [hst.cpuid]
  · simp [hst.pc, SpinPc.Exact]
  · simp [NestedAt, hst.pc, hst.depth, hst.noff, SpinPc.pushed, SpinPc.holds]

end SpinInv

/-- Whatever the interleaving of the accesses, one hart holds the lock at a time, with interrupts
turned off; the lock is locked only if a hart holds it; `spin_lock` panics exactly if the hart holds
the lock when it calls it, `spin_unlock` exactly if it does not, and `pop_off` never. -/
theorem spinSafe_of_reachable {st : SpinState η}
    (hreach : Reachable SpinState.Started SpinStep st) : SpinSafe st := by
  obtain ⟨o, hI⟩ : ∃ o, SpinInv st o := hreach.invariant (P := fun st => ∃ o, SpinInv st o)
    (fun _ hst => ⟨none, .start hst⟩) fun _ _ _ hI hstep => hI.elim fun _ hI => hI.step hstep
  refine ⟨fun h h' hh hh' => ?_, fun hlock => ?_, hI.exact, fun h hh => ?_⟩
  · exact Option.some_inj.1 ((hI.owner hh).symm.trans (hI.owner hh'))
  · rw [hI.lock, Option.isSome_iff_exists] at hlock
    obtain ⟨h, ho⟩ := hlock
    exact ⟨h, (hI.holds h).2 ho⟩
  · exact (hI.nested h).2 (Nat.add_pos_right _ (SpinPc.pushed_pos hh))

/-- Both harts find the lock free, one of them takes it, and the other one waits. -/
theorem spinSafe_of_reachable_race : ∃ st : SpinState Bool,
    (st.pc false).holds = true ∧ st.pc true = .swap false ∧ SpinSafe st := by
  let st₀ : SpinState Bool := ⟨false, none, fun _ => .outside false, fun _ => ⟨true, 0, false⟩, 0⟩
  let st₁ := (st₀.goTo false (.testLock .lock false)).setCpu false (pushOff (st₀.cpu false))
  let st₂ := (st₁.goTo true (.testLock .lock false)).setCpu true (pushOff (st₁.cpu true))
  have hreach : Reachable SpinState.Started SpinStep
      ((((st₂.access false).access true).access false).access true) :=
    .next (a := .access true) (.next (a := .access false) (.next (a := .access true)
      (.next (a := .access false) (.next (a := .call .lock true) (.next (a := .call .lock false)
        (.start ⟨rfl, rfl, fun _ => rfl, fun _ => rfl, fun _ => rfl⟩)
          ⟨false, rfl, rfl⟩) ⟨false, rfl, rfl⟩) rfl) rfl) rfl) rfl
  exact ⟨_, rfl, rfl, spinSafe_of_reachable hreach⟩

end RiscvLab.Kernel
