import Mathlib.Logic.Basic

/-!
# Reachable states of a labelled transition system

A system is a set of initial states and a step relation whose steps carry a label: the operation
a client calls, or the thread that moves. `Reachable init step` collects the states of all finite
runs. An invariant is proved once per step (`Reachable.invariant`); a run whose steps all meet a
guard is a run of the guarded step relation `guarded ok step`, and forgetting the guard embeds it
into the runs of the whole system (`Reachable.of_guarded`).
-/

namespace RiscvLab.Library

variable {σ ι : Type*}

/-- The states that a labelled transition system reaches from its initial states. -/
inductive Reachable (init : σ → Prop) (step : σ → ι → σ → Prop) : σ → Prop
  | start {s : σ} (h : init s) : Reachable init step s
  | next {s s' : σ} {a : ι} (h : Reachable init step s) (hs : step s a s') :
      Reachable init step s'

/-- The steps that meet the guard `ok` in the state they are taken from. -/
def guarded (ok : σ → ι → Prop) (step : σ → ι → σ → Prop) (s : σ) (a : ι) (s' : σ) : Prop :=
  ok s a ∧ step s a s'

variable {init : σ → Prop} {step : σ → ι → σ → Prop}

/-- A property of the initial states that every step preserves holds in every reachable state. -/
theorem Reachable.invariant {P : σ → Prop} (h0 : ∀ s, init s → P s)
    (hstep : ∀ s a s', P s → step s a s' → P s') {s : σ} (h : Reachable init step s) : P s := by
  induction h with
  | start h => exact h0 _ h
  | next _ hs ih => exact hstep _ _ _ ih hs

/-- A run of a system is a run of every system with more steps. -/
theorem Reachable.mono {step' : σ → ι → σ → Prop} (hle : ∀ s a s', step s a s' → step' s a s')
    {s : σ} (h : Reachable init step s) : Reachable init step' s := by
  induction h with
  | start h => exact .start h
  | next _ hs ih => exact .next ih (hle _ _ _ hs)

/-- Executing labels one after the other is a run. -/
theorem Reachable.foldlM {ε : Type*} {exec : σ → ι → Except ε σ}
    (hexec : ∀ s a s', exec s a = .ok s' → step s a s') {l : List ι} {s s' : σ}
    (h : l.foldlM exec s = .ok s') (hs : Reachable init step s) : Reachable init step s' := by
  induction l generalizing s with
  | nil =>
    obtain rfl := Except.ok.inj h
    exact hs
  | cons a l ih =>
    rw [List.foldlM_cons] at h
    cases ha : exec s a with
    | error e =>
      rw [ha] at h
      cases h
    | ok s₁ =>
      rw [ha] at h
      exact ih h (hs.next (hexec s a s₁ ha))

/-- A run whose steps meet a guard is a run of the whole system. -/
theorem Reachable.of_guarded {ok : σ → ι → Prop} {s : σ}
    (h : Reachable init (guarded ok step) s) : Reachable init step s :=
  h.mono fun _ _ _ hs => hs.2

end RiscvLab.Library
