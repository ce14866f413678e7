import Mathlib.Logic.Basic

/-!
# Computations that may fail

A sequence of two computations succeeds exactly if both do (`bind_eq_ok`).

`Ensures E x Q` is the specification of a computation: what it returns meets `Q`, and if it fails,
the error meets `E`. Specifications are combined along the computation by `Ensures.bind`.
-/

namespace RiscvLab.Library

universe u

variable {ε : Type*} {α β : Type u}

theorem bind_eq_ok {x : Except ε α} {f : α → Except ε β} {b : β} :
    x >>= f = .ok b ↔ ∃ a, x = .ok a ∧ f a = .ok b := by
  cases x with
  | error e => simp [bind, Except.bind]
  | ok a => simp [bind, Except.bind]

theorem ok_prod_inj {a a' : α} {b b' : β} (h : (.ok (a, b) : Except ε (α × β)) = .ok (a', b')) :
    a = a' ∧ b = b' :=
  Prod.mk.inj (Except.ok.inj h)

/-- A computation that can be evaluated: what it returns is known by its image. -/
theorem exists_of_map_toOption {x : Except ε α} {g : α → β} {b : β}
    (h : x.toOption.map g = some b) : ∃ a, x = .ok a ∧ g a = b := by
  cases x with
  | error e => cases h
  | ok a => exact ⟨a, rfl, Option.some.inj h⟩

/-- What a computation returns meets `Q`, and an error meets `E`. -/
def Ensures (E : ε → Prop) (x : Except ε α) (Q : α → Prop) : Prop :=
  match x with
  | .ok a => Q a
  | .error e => E e

namespace Ensures

variable {E : ε → Prop} {P Q : α → Prop} {R : β → Prop} {x : Except ε α} {f : α → Except ε β}

theorem ok {a : α} (h : Q a) : Ensures E (.ok a) Q := h

theorem error {e : ε} (h : E e) : Ensures E (.error e) Q := h

theorem bind (hx : Ensures E x P) (hf : ∀ a, P a → Ensures E (f a) R) : Ensures E (x >>= f) R := by
  cases x with
  | error e => exact hx
  | ok a => exact hf a hx

theorem mono (hx : Ensures E x P) (h : ∀ a, P a → Q a) : Ensures E x Q := by
  cases x with
  | error e => exact hx
  | ok a => exact h a hx

/-- Nothing is said about errors. -/
theorem any (hx : Ensures E x Q) : Ensures (fun _ => True) x Q := by
  cases x with
  | error e => exact True.intro
  | ok a => exact hx

/-- Nothing is asked for. -/
theorem trivial : Ensures (fun _ => True) x fun _ => True := by cases x <;> exact True.intro

theorem of_eq_ok {a : α} (h : Ensures E x Q) (hx : x = .ok a) : Q a := by
  subst hx
  exact h

theorem of_eq_error {e : ε} (h : Ensures E x Q) (hx : x = .error e) : E e := by
  subst hx
  exact h

end Ensures

end RiscvLab.Library
