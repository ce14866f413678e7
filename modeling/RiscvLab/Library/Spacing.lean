import Mathlib.Data.List.Chain
import Mathlib.Data.List.Lattice

/-!
# Instants at a minimal distance

Of a list of instants, `spaced d last n` takes each one that is at least `d` after the last one
taken, beginning from the instant `last`, and stops after `n` of them (`none`: never). It takes as
many as any selection of instants at distance `d` can (`length_spaced_of_sublist`), and what it does
with one instant more depends only on what it has taken (`spaced_append_singleton`).
-/

namespace RiscvLab.Library

/-- The instants at distance `d`, from `last` on, at most `n` of them. -/
def spaced (d : ℕ) : ℕ → Option ℕ → List ℕ → List ℕ
  | _, _, [] => []
  | last, n, s :: ticks =>
    if n ≠ some 0 ∧ last + d ≤ s then s :: spaced d s (n.map (· - 1)) ticks
    else spaced d last n ticks

/-- Consecutive instants are at least `d` apart. -/
def Apart (d : ℕ) (l : List ℕ) : Prop := l.IsChain fun a b => a + d ≤ b

variable {d last k : ℕ} {n : Option ℕ} {ticks sub : List ℕ}

theorem apart_spaced (d last : ℕ) (n : Option ℕ) (ticks : List ℕ) :
    Apart d (last :: spaced d last n ticks) := by
  induction ticks generalizing last n with
  | nil => exact .singleton last
  | cons s ticks ih =>
    rw [spaced]
    split_ifs with h
    · exact .cons_cons h.2 (ih s _)
    · exact ih last n

theorem Apart.last_add_le {s : ℕ} {l : List ℕ} (h : Apart d (last :: (l ++ [s]))) :
    l.getLastD last + d ≤ s := by
  induction l generalizing last with
  | nil => exact (List.isChain_cons_cons.1 h).1
  | cons x l ih =>
    rw [List.getLastD_cons]
    exact ih (List.isChain_cons_cons.1 h).2

theorem length_spaced_le (d last k : ℕ) (ticks : List ℕ) :
    (spaced d last (some k) ticks).length ≤ k := by
  induction ticks generalizing last k with
  | nil => exact Nat.zero_le k
  | cons s ticks ih =>
    rw [spaced]
    split_ifs with h
    · have hk : k ≠ 0 := fun hk => h.1 (by rw [hk])
      have := ih s (k - 1)
      rw [List.length_cons, Option.map_some]
      omega
    · exact ih last k

/-- There is room for one instant more. -/
def Room (n : Option ℕ) (l : List ℕ) : Prop := ∀ k, n = some k → l.length < k

theorem room_nil : Room n [] ↔ n ≠ some 0 := by
  constructor
  · rintro h rfl
    exact absurd (h 0 rfl) (Nat.lt_irrefl 0)
  · rintro h k rfl
    exact Nat.pos_of_ne_zero fun hk => h (by rw [hk])

theorem room_cons (hn : n ≠ some 0) (s : ℕ) (l : List ℕ) :
    Room n (s :: l) ↔ Room (n.map (· - 1)) l := by
  cases n with
  | none => simp [Room]
  | some k =>
    have hk : k ≠ 0 := fun h => hn (by rw [h])
    simp only [Room, Option.map_some, Option.some_inj, forall_eq', List.length_cons]
    omega

/-- One instant more is taken if there is room and it is late enough. -/
theorem spaced_append_singleton (d last : ℕ) (n : Option ℕ) (ticks : List ℕ) (s : ℕ) :
    (Room n (spaced d last n ticks) ∧ (spaced d last n ticks).getLastD last + d ≤ s →
      spaced d last n (ticks ++ [s]) = spaced d last n ticks ++ [s]) ∧
    (¬(Room n (spaced d last n ticks) ∧ (spaced d last n ticks).getLastD last + d ≤ s) →
      spaced d last n (ticks ++ [s]) = spaced d last n ticks) := by
  induction ticks generalizing last n with
  | nil =>
    simp only [List.nil_append, spaced, room_nil, List.getLastD_nil]
    exact ⟨fun h => if_pos h, fun h => if_neg h⟩
  | cons t ticks ih =>
    simp only [List.cons_append, spaced]
    split_ifs with h
    · rw [room_cons h.1, List.getLastD_cons]
      exact ⟨fun hs => by rw [(ih _ _).1 hs, List.cons_append], fun hs => by rw [(ih _ _).2 hs]⟩
    · exact ih last n

/-- A selection that begins later is not longer. -/
theorem length_le_length_spaced {last' : ℕ} (hticks : ticks.Pairwise (· ≤ ·))
    (hsub : sub.Sublist ticks) (hlast : last ≤ last') (hapart : Apart d (last' :: sub))
    (hk : sub.length ≤ k) : sub.length ≤ (spaced d last (some k) ticks).length := by
  induction ticks generalizing last last' sub k with
  | nil => rw [List.sublist_nil.1 hsub, spaced]
  | cons s ticks ih =>
    obtain ⟨hs, hticks⟩ := List.pairwise_cons.1 hticks
    cases sub with
    | nil => exact Nat.zero_le _
    | cons x sub =>
      obtain ⟨hx, hapart⟩ := List.isChain_cons_cons.1 hapart
      rw [List.length_cons] at hk
      rw [spaced]
      split_ifs with h
      · -- the greedy choice is not later than that of the selection
        have hsx : s ≤ x ∧ sub.Sublist ticks := by
          rcases List.cons_sublist_cons'.1 hsub with htail | ⟨rfl, htail⟩
          · exact ⟨hs x (htail.subset List.mem_cons_self),
              (List.sublist_cons_self x sub).trans htail⟩
          · exact ⟨le_rfl, htail⟩
        have := ih hticks hsx.2 hsx.1 hapart (k := k - 1) (by omega)
        rw [List.length_cons, List.length_cons, Option.map_some]
        omega
      · have hne : x ≠ s := by
          rintro rfl
          exact h ⟨by simp; omega, by omega⟩
        have hsub' : (x :: sub).Sublist ticks :=
          (List.cons_sublist_cons'.1 hsub).resolve_right fun h => hne h.1
        exact ih hticks hsub' hlast (List.isChain_cons_cons.2 ⟨hx, hapart⟩) hk

/-- If there are `k` instants at distance `d`, then `k` are taken. -/
theorem length_spaced_of_sublist (hticks : ticks.Pairwise (· ≤ ·)) (hsub : sub.Sublist ticks)
    (hapart : Apart d (last :: sub)) (hk : sub.length = k) :
    (spaced d last (some k) ticks).length = k := by
  have hle := length_le_length_spaced hticks hsub le_rfl hapart hk.le
  have := length_spaced_le d last k ticks
  omega

end RiscvLab.Library
