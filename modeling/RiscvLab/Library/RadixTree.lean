import Mathlib.Data.List.Induction
import Mathlib.Tactic.Common

/-!
# Radix trees in a memory of tables

A memory gives each table an entry for each index, and some entries lead to another table. A path of
indices leads from a root to a table (`tableAt`). Up to a depth, a memory is *tree-shaped* below a
root if different paths lead to different tables.

The two updates of such a tree are to store into a table at the greatest depth, which changes no
path, and to link a table that no path leads to, whose own entries lead nowhere. The second adds one
path and changes no other (`Link.tableAt_eq`). Both keep the tree.

## Main definitions

* `tableAt`, `TreeShaped`, `Link`

## Main results

* `tableAt_congr` : what a path depends on.
* `TreeShaped.leaf_ne` : a table at the greatest depth is on no path to another one.
* `Link.tableAt_eq`, `Link.treeShaped`.
-/

namespace RiscvLab.Library

variable {τ ι ε : Type*} {child : ε → Option τ} {mem mem' : τ → ι → ε} {root t u : τ} {i : ι}
  {p : List ι} {n : ℕ}

/-- The table that a path of indices leads to. -/
def tableAt (child : ε → Option τ) (mem : τ → ι → ε) : τ → List ι → Option τ
  | t, [] => some t
  | t, i :: p => (child (mem t i)).bind fun u => tableAt child mem u p

/-- Different paths of length at most `n` lead to different tables. -/
def TreeShaped (child : ε → Option τ) (mem : τ → ι → ε) (root : τ) (n : ℕ) : Prop :=
  ∀ p q t, p.length ≤ n → q.length ≤ n → tableAt child mem root p = some t →
    tableAt child mem root q = some t → p = q

theorem tableAt_concat (root : τ) (p : List ι) (i : ι) :
    tableAt child mem root (p ++ [i]) =
      (tableAt child mem root p).bind fun t => child (mem t i) := by
  induction p generalizing root with
  | nil => simp [tableAt]
  | cons j p ih =>
    simp only [List.cons_append, tableAt, ih]
    cases child (mem root j) <;> rfl

/-- A path depends on the entries of the tables on the way only: stores to tables at the greatest
depth, or to tables that no path leads to, do not change it. -/
theorem tableAt_congr
    (h : ∀ p t i, p.length < n → tableAt child mem root p = some t →
      child (mem' t i) = child (mem t i)) (q : List ι) (hq : q.length ≤ n) :
    tableAt child mem' root q = tableAt child mem root q := by
  induction q using List.reverseRecOn with
  | nil => rfl
  | append_singleton q i ih =>
    rw [List.length_append, List.length_singleton] at hq
    rw [tableAt_concat, tableAt_concat, ih (by omega)]
    cases ht : tableAt child mem root q with
    | none => rfl
    | some t => exact h q t i (by omega) ht

namespace TreeShaped

theorem congr (htree : TreeShaped child mem root n)
    (h : ∀ q, q.length ≤ n → tableAt child mem' root q = tableAt child mem root q) :
    TreeShaped child mem' root n := by
  intro p q t hp hq hpt hqt
  rw [h p hp] at hpt
  rw [h q hq] at hqt
  exact htree p q t hp hq hpt hqt

/-- A table at the greatest depth is not on the way to another one, since two paths in a tree lead
to different tables. -/
theorem leaf_ne (htree : TreeShaped child mem root n) (hp : p.length = n)
    (hpt : tableAt child mem root p = some t) {q : List ι} (hq : q.length < n)
    (hqu : tableAt child mem root q = some u) : u ≠ t := by
  rintro rfl
  have := htree p q u (Nat.le_of_eq hp) (Nat.le_of_lt hq) hpt hqu
  subst this
  omega

end TreeShaped

/-- The table `u` is linked at the index `i` of the table `t`. -/
structure Link (child : ε → Option τ) (mem mem' : τ → ι → ε) (t : τ) (i : ι) (u : τ) : Prop where
  entry : child (mem' t i) = some u
  empty : ∀ j, child (mem' u j) = none
  same : ∀ t' j, t' ≠ u → (t', j) ≠ (t, i) → mem' t' j = mem t' j

namespace Link

variable (hlink : Link child mem mem' t i u) (htree : TreeShaped child mem root n)
  (hp : p.length < n) (hpt : tableAt child mem root p = some t) (hnone : child (mem t i) = none)
  (hfresh : ∀ q, q.length ≤ n → tableAt child mem root q ≠ some u)

include hlink htree hp hpt hnone hfresh

/-- Linking the empty table `u` adds one path, which leads to `u`. All other paths lead where they
led before. -/
theorem tableAt_eq [DecidableEq ι] (q : List ι) (hq : q.length ≤ n) :
    tableAt child mem' root q = if q = p ++ [i] then some u else tableAt child mem root q := by
  have hend : tableAt child mem root (p ++ [i]) = none := by
    rw [tableAt_concat, hpt, Option.bind_some, hnone]
  induction q using List.reverseRecOn with
  | nil => rw [if_neg (by simp)]; rfl
  | append_singleton q j ih =>
    rw [List.length_append, List.length_singleton] at hq
    rw [tableAt_concat, tableAt_concat, ih (by omega)]
    by_cases hqp : q = p ++ [i]
    · have hne : q ++ [j] ≠ p ++ [i] := by
        intro h
        have := congrArg List.length (hqp ▸ h)
        simp at this
      rw [if_pos hqp, if_neg hne, hqp, hend]
      exact hlink.empty j
    · rw [if_neg hqp]
      cases hqt : tableAt child mem root q with
      | none =>
        have hne : q ++ [j] ≠ p ++ [i] := by
          intro h
          rw [(List.append_inj' h rfl).1, hpt] at hqt
          cases hqt
        rw [if_neg hne]
        rfl
      | some t' =>
        have htu : t' ≠ u := by
          rintro rfl
          exact hfresh q (by omega) hqt
        by_cases heq : q ++ [j] = p ++ [i]
        · obtain ⟨rfl, hj⟩ := List.append_inj' heq rfl
          obtain rfl : j = i := by simpa using hj
          obtain rfl : t' = t := Option.some_inj.1 (hqt.symm.trans hpt)
          rw [if_pos heq]
          exact hlink.entry
        · have hne : (t', j) ≠ (t, i) := by
            rintro ⟨⟩
            exact heq (by rw [htree q p t (by omega) (Nat.le_of_lt hp) hqt hpt])
          rw [if_neg heq, Option.bind_some, Option.bind_some, hlink.same t' j htu hne]

/-- The tables are still a tree when a fresh one has been linked, since the only new path leads to
it and no other path did. -/
theorem treeShaped : TreeShaped child mem' root n := by
  classical
  have heq := hlink.tableAt_eq htree hp hpt hnone hfresh
  intro q₁ q₂ v h₁ h₂ hv₁ hv₂
  rw [heq q₁ h₁] at hv₁
  rw [heq q₂ h₂] at hv₂
  split_ifs at hv₁ hv₂ with hq₁ hq₂ hq₂
  · rw [hq₁, hq₂]
  · exact absurd (hv₂.trans hv₁.symm) (hfresh q₂ h₂)
  · exact absurd (hv₁.trans hv₂.symm) (hfresh q₁ h₁)
  · exact htree q₁ q₂ v h₁ h₂ hv₁ hv₂

end Link

end RiscvLab.Library
