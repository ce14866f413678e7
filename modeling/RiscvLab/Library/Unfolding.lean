import Mathlib.Data.List.Forall2

/-!
# Unfolding a graph into trees

A graph whose nodes have labels and lists of children is unfolded from a node into a tree, to a
given depth. Similar nodes of two graphs have the same unfoldings (`unfolding_eq_of_sim`).

A sequence of keys leads from a node to one below it, where each key stands for the first child
whose label it fits. The label of the node to which the keys lead is in the unfoldings
(`map_label_descend`).
-/

namespace RiscvLab.Library

/-- A tree whose nodes have labels. -/
inductive RoseTree (L : Type*)
  | node (label : L) (kids : List (RoseTree L))

variable {α β κ L : Type*}

/-- The label at the root. -/
def RoseTree.label : RoseTree L → L
  | .node l _ => l

/-- The tree below the node `a`, to the depth `n`. -/
def unfolding (label : α → L) (kids : α → List α) : ℕ → α → RoseTree L
  | 0, a => .node (label a) []
  | n + 1, a => .node (label a) ((kids a).map (unfolding label kids n))

/-- Nodes with equal labels, whose children are similar again, have the same unfoldings. -/
theorem unfolding_eq_of_sim {label : α → L} {kids : α → List α} {label' : β → L}
    {kids' : β → List β} {R : α → β → Prop} (hlabel : ∀ a b, R a b → label' b = label a)
    (hkids : ∀ a b, R a b → List.Forall₂ R (kids a) (kids' b)) {a : α} {b : β} (h : R a b)
    (n : ℕ) : unfolding label' kids' n b = unfolding label kids n a := by
  induction n generalizing a b with
  | zero => rw [unfolding, unfolding, hlabel a b h]
  | succ n ih =>
    have hmap : (kids' b).map (unfolding label' kids' n) =
        (kids a).map (unfolding label kids n) := by
      rw [← List.forall₂_eq_eq_eq, List.forall₂_map_left_iff, List.forall₂_map_right_iff]
      exact (List.Forall₂.imp (fun _ _ h' => ih h') (hkids a b h)).flip
    rw [unfolding, unfolding, hlabel a b h, hmap]

/-! ### Similar lists -/

section Similar

variable {R : α → β → Prop} {as : List α} {bs : List β} {b : β}

theorem exists_of_forall₂ (h : List.Forall₂ R as bs) (hb : b ∈ bs) : ∃ a ∈ as, R a b := by
  induction h with
  | nil => cases hb
  | @cons a b' as bs hab _ ih =>
    rcases List.mem_cons.1 hb with rfl | hb
    · exact ⟨a, List.mem_cons_self, hab⟩
    · obtain ⟨a', ha', hab'⟩ := ih hb
      exact ⟨a', List.mem_cons_of_mem _ ha', hab'⟩

/-- What is found in one of the lists is similar to what is found in the other. -/
theorem exists_find?_of_forall₂ {p : α → Bool} {q : β → Bool} (h : List.Forall₂ R as bs)
    (hpq : ∀ a b, R a b → q b = p a) (hb : bs.find? q = some b) :
    ∃ a, as.find? p = some a ∧ R a b := by
  induction h with
  | nil => cases hb
  | @cons a b' as bs hab _ ih =>
    cases ha : p a with
    | true =>
      rw [List.find?_cons_of_pos (by rw [hpq a b' hab, ha])] at hb
      exact ⟨a, List.find?_cons_of_pos ha, Option.some.inj hb ▸ hab⟩
    | false =>
      rw [List.find?_cons_of_neg (by rw [hpq a b' hab, ha]; exact Bool.false_ne_true)] at hb
      rw [List.find?_cons_of_neg (by rw [ha]; exact Bool.false_ne_true)]
      exact ih hb

end Similar

/-! ### Descending along keys -/

theorem label_unfolding (label : α → L) (kids : α → List α) (n : ℕ) (a : α) :
    (unfolding label kids n a).label = label a := by
  cases n <;> rfl

/-- The node to which the keys lead from `a`. Each of them leads to the first child whose label it
fits. -/
def descend (label : α → L) (kids : α → List α) (fits : κ → L → Bool) : α → List κ → Option α
  | a, [] => some a
  | a, k :: ks =>
    ((kids a).find? fun b => fits k (label b)).bind fun b => descend label kids fits b ks

/-- The children that a key leads to have the same unfoldings if the nodes have. -/
theorem map_unfolding_find? {label : α → L} {kids : α → List α} {label' : β → L}
    {kids' : β → List β} {a : α} {b : β} {n : ℕ}
    (h : unfolding label' kids' (n + 1) b = unfolding label kids (n + 1) a) (p : L → Bool) :
    ((kids' b).find? fun y => p (label' y)).map (unfolding label' kids' n) =
      ((kids a).find? fun x => p (label x)).map (unfolding label kids n) := by
  have hkids : (kids' b).map (unfolding label' kids' n) = (kids a).map (unfolding label kids n) :=
    (RoseTree.node.inj h).2
  have hfind := congrArg (List.find? fun t : RoseTree L => p t.label) hkids
  simpa only [List.find?_map, Function.comp_def, label_unfolding] using hfind

/-- Keys lead to nodes with equal labels from nodes with the same unfoldings. -/
theorem map_label_descend {label : α → L} {kids : α → List α} {label' : β → L}
    {kids' : β → List β} {fits : κ → L → Bool} {a : α} {b : β}
    (h : ∀ n, unfolding label' kids' n b = unfolding label kids n a) (ks : List κ) :
    (descend label' kids' fits b ks).map label' = (descend label kids fits a ks).map label := by
  induction ks generalizing a b with
  | nil =>
    have hlabel := congrArg RoseTree.label (h 0)
    rw [label_unfolding, label_unfolding] at hlabel
    exact congrArg some hlabel
  | cons k ks ih =>
    have hfind (n : ℕ) := map_unfolding_find? (h (n + 1)) (fits k)
    rw [descend, descend]
    generalize (kids' b).find? (fun y => fits k (label' y)) = y at hfind ⊢
    generalize (kids a).find? (fun x => fits k (label x)) = x at hfind ⊢
    cases x with
    | none =>
      cases y with
      | none => rfl
      | some y => cases hfind 0
    | some x =>
      cases y with
      | none => cases hfind 0
      | some y => exact ih fun n => Option.some.inj (hfind n)

end RiscvLab.Library
