import Mathlib.Data.List.Nodup
import Mathlib.Logic.Function.Iterate
import Mathlib.Tactic.Common

/-!
# Circular doubly linked rings in a heap of nodes

A heap of nodes gives every node a predecessor and a successor. A *ring* is a head node with a
list of members: starting at the head, the successors run through the members in order and back
to the head, and the predecessors run back the same way (`IsRing`). A ring is cut into *segments*
(`Seg`), on which the proofs recurse. The two elementary updates, linking a node between two
neighbours and bypassing a node, change the members of one ring and leave every segment alone
that they do not touch.

A heap usually holds several rings. `Rings h hd L` says that the heads `hd k` carry the lists
`L k` and that no node lies on two of the rings; the update rules are stated for it, so that
a client never looks at a predecessor or a successor.

## Main definitions

* `Links`, `Links.insert`, `Links.bypass` : the heap and its two updates.
* `Seg`, `IsRing`, `Rings` : segments, one ring, a family of disjoint rings.
* `OnRing` : the nodes that a walk along the successors meets before it is back at the head.

## Main results

* `IsRing.insert_head`, `IsRing.bypass` : the updates push to the front and remove.
* `Rings.insert_head`, `Rings.bypass` : the same inside a family of rings.
* `Rings.flip`, `Rings.insert_tail` : rings read backwards, and pushing to the back.
* `IsRing.onRing_iff` : the nodes met by a walk are the members.
-/

namespace RiscvLab.Library

/-- A heap of list nodes: the predecessor and the successor stored in each node. -/
@[ext]
structure Links (ν : Type*) where
  prev : ν → ν
  next : ν → ν

variable {ν : Type*}

namespace Links

/-- Every node linked to itself only. -/
def isolated : Links ν := ⟨id, id⟩

/-- The heap read backwards. -/
def flip (h : Links ν) : Links ν := ⟨h.next, h.prev⟩

variable [DecidableEq ν]

/-- Store a successor in one node. -/
def setNext (h : Links ν) (a b : ν) : Links ν := { h with next := Function.update h.next a b }

/-- Store a predecessor in one node. -/
def setPrev (h : Links ν) (a b : ν) : Links ν := { h with prev := Function.update h.prev a b }

/-- Link the node `n` between `a` and `b`. -/
def insert (h : Links ν) (n a b : ν) : Links ν :=
  (((h.setPrev b n).setNext a n).setNext n b).setPrev n a

/-- Link `a` directly to `b`. -/
def bypass (h : Links ν) (a b : ν) : Links ν := (h.setNext a b).setPrev b a

theorem insert_next (h : Links ν) (n a b x : ν) :
    (h.insert n a b).next x = if x = n then b else if x = a then n else h.next x := by
  simp only [insert, setPrev, setNext, Function.update_apply]

theorem insert_prev (h : Links ν) (n a b x : ν) :
    (h.insert n a b).prev x = if x = n then a else if x = b then n else h.prev x := by
  simp only [insert, setPrev, setNext, Function.update_apply]

theorem bypass_next (h : Links ν) (a b x : ν) :
    (h.bypass a b).next x = if x = a then b else h.next x := by
  simp only [bypass, setPrev, setNext, Function.update_apply]

theorem bypass_prev (h : Links ν) (a b x : ν) :
    (h.bypass a b).prev x = if x = b then a else h.prev x := by
  simp only [bypass, setPrev, setNext, Function.update_apply]

theorem flip_insert (h : Links ν) (n a b : ν) :
    (h.insert n a b).flip = h.flip.insert n b a := by
  ext x <;> simp [flip, insert_next, insert_prev]

end Links

/-! ### Segments -/

/-- `a` and `b` are neighbours: each is stored in the other. -/
def Linked (h : Links ν) (a b : ν) : Prop := h.next a = b ∧ h.prev b = a

/-- The successors of `a` run through `l` to `b`, and the predecessors run back. -/
def Seg (h : Links ν) : ν → List ν → ν → Prop
  | a, [], b => Linked h a b
  | a, x :: l, b => Linked h a x ∧ Seg h x l b

theorem seg_append (h : Links ν) (a b x : ν) (l₁ l₂ : List ν) :
    Seg h a (l₁ ++ x :: l₂) b ↔ Seg h a l₁ x ∧ Seg h x l₂ b := by
  induction l₁ generalizing a with
  | nil => rfl
  | cons y l₁ ih => simp only [List.cons_append, Seg, ih, and_assoc]

/-- A segment only depends on the successors of its start and its members and on the
predecessors of its members and its end. -/
theorem Seg.congr {h h' : Links ν} {a b : ν} {l : List ν} (hs : Seg h a l b)
    (hn : ∀ x ∈ a :: l, h'.next x = h.next x) (hp : ∀ x ∈ l ++ [b], h'.prev x = h.prev x) :
    Seg h' a l b := by
  induction l generalizing a with
  | nil =>
    exact ⟨(hn a (by simp)).trans hs.1, (hp b (by simp)).trans hs.2⟩
  | cons x l ih =>
    refine ⟨⟨(hn a (by simp)).trans hs.1.1, (hp x (by simp)).trans hs.1.2⟩, ih hs.2 ?_ ?_⟩
    · exact fun y hy => hn y (List.mem_cons_of_mem _ hy)
    · exact fun y hy => hp y (List.mem_cons_of_mem _ hy)

/-- The predecessor of the end of a segment is its last member, or its start. -/
theorem Seg.prev_mem {h : Links ν} {a b : ν} {l : List ν} (hs : Seg h a l b) :
    h.prev b ∈ a :: l := by
  induction l generalizing a with
  | nil => simp [hs.2]
  | cons x l ih => exact List.mem_cons_of_mem _ (ih hs.2)

/-- The successor of the start of a segment is its first member, or its end. -/
theorem Seg.next_eq {h : Links ν} {a b : ν} {l : List ν} (hs : Seg h a l b) :
    h.next a = (l ++ [b]).head (by simp) := by
  cases l with
  | nil => exact hs.1
  | cons x l => exact hs.1.1

theorem Seg.next_mem {h : Links ν} {a b : ν} {l : List ν} (hs : Seg h a l b) :
    h.next a ∈ l ++ [b] := by
  rw [hs.next_eq]
  exact List.head_mem _

/-- A segment read backwards. -/
theorem Seg.flip {h : Links ν} {a b : ν} {l : List ν} (hs : Seg h a l b) :
    Seg h.flip b l.reverse a := by
  induction l generalizing a with
  | nil => exact ⟨hs.2, hs.1⟩
  | cons x l ih =>
    rw [List.reverse_cons, seg_append]
    exact ⟨ih hs.2, hs.1.2, hs.1.1⟩

section

variable [DecidableEq ν]

/-- Bypassing a node joins the two segments that meet in it. -/
theorem Seg.bypass {h : Links ν} {a b n : ν} {l₁ l₂ : List ν} (h₁ : Seg h a l₁ n)
    (h₂ : Seg h n l₂ b) (ha : (a :: l₁).Nodup) (hb : (l₂ ++ [b]).Nodup)
    (hd : ∀ x ∈ l₁, x ∉ l₂ ++ [b]) (ha₂ : a ∉ l₂) :
    Seg (h.bypass (h.prev n) (h.next n)) a (l₁ ++ l₂) b := by
  induction l₁ generalizing a with
  | nil =>
    have hpn : h.prev n = a := h₁.2
    cases l₂ with
    | nil =>
      have hnn : h.next n = b := h₂.1
      simp only [hpn, hnn, List.append_nil, Seg, Linked, Links.bypass_next, Links.bypass_prev,
        ↓reduceIte, and_self]
    | cons y l₂ =>
      have hnn : h.next n = y := h₂.1.1
      rw [List.nil_append, hpn, hnn]
      refine ⟨⟨by simp [Links.bypass_next], by simp [Links.bypass_prev]⟩, h₂.2.congr ?_ ?_⟩
      · intro x hx
        have hxa : x ≠ a := fun e => ha₂ (e ▸ hx)
        simp [Links.bypass_next, hxa]
      · intro x hx
        have hxy : x ≠ y := fun e => (List.nodup_cons.mp hb).1 (e ▸ hx)
        simp [Links.bypass_prev, hxy]
  | cons x l₁ ih =>
    have hp : h.prev n ∈ x :: l₁ := h₁.2.prev_mem
    have hn : h.next n ∈ l₂ ++ [b] := h₂.next_mem
    obtain ⟨hax, hx⟩ := List.nodup_cons.mp ha
    have hx₂ : x ∉ l₂ ++ [b] := hd x (by simp)
    refine ⟨⟨?_, ?_⟩, ih h₁.2 hx (fun y hy => hd y (List.mem_cons_of_mem _ hy)) ?_⟩
    · have : a ≠ h.prev n := fun e => hax (e ▸ hp)
      rw [Links.bypass_next, if_neg this]
      exact h₁.1.1
    · have : x ≠ h.next n := fun e => hx₂ (e ▸ hn)
      rw [Links.bypass_prev, if_neg this]
      exact h₁.1.2
    · exact fun hx' => hx₂ (List.mem_append_left _ hx')

/-- Linking a fresh node behind the start of a segment puts it in front of the members. -/
theorem Seg.insert_head {h : Links ν} {a b n : ν} {l : List ν} (hs : Seg h a l b)
    (hal : a ∉ l) (hb : (l ++ [b]).Nodup) (hna : n ≠ a) (hnl : n ∉ l ++ [b]) :
    Seg (h.insert n a (h.next a)) a (n :: l) b := by
  have hnext := hs.next_eq
  have hna' : a ≠ n := hna.symm
  cases l with
  | nil =>
    have hb' : b ≠ n := fun e => hnl (by simp [e])
    have hnext : h.next a = b := hnext
    simp [Seg, Linked, Links.insert_next, Links.insert_prev, hnext, hna', hb']
  | cons x l =>
    have hnext : h.next a = x := hnext
    have hxn : x ≠ n := fun e => hnl (by simp [e])
    obtain ⟨hxl, -⟩ := List.nodup_cons.mp (show (x :: (l ++ [b])).Nodup from hb)
    refine ⟨?_, ?_, hs.2.congr ?_ ?_⟩
    · simp [Linked, Links.insert_next, Links.insert_prev, hna']
    · simp [Linked, Links.insert_next, Links.insert_prev, hnext, hxn]
    · intro y hy
      have hyn : y ≠ n := fun e => hnl (by rw [← e]; exact List.mem_append_left _ hy)
      have hya : y ≠ a := fun e => hal (e ▸ hy)
      simp [Links.insert_next, hyn, hya]
    · intro y hy
      have hyn : y ≠ n := fun e => hnl (by rw [← e]; exact List.mem_cons_of_mem _ hy)
      have hyx : y ≠ x := fun e => hxl (e ▸ hy)
      simp [Links.insert_prev, hnext, hyn, hyx]

end

/-! ### Rings -/

/-- The head `hd` carries the members `l`: the successors run from the head through `l` back to
the head, the predecessors run back, and no node occurs twice. -/
structure IsRing (h : Links ν) (hd : ν) (l : List ν) : Prop where
  nodup : (hd :: l).Nodup
  seg : Seg h hd l hd

namespace IsRing

variable {h h' : Links ν} {hd n : ν} {l l₁ l₂ : List ν}

section

variable (hr : IsRing h hd l)

include hr

theorem head_notMem : hd ∉ l := (List.nodup_cons.mp hr.nodup).1

private theorem nodup_append_head : (l ++ [hd]).Nodup :=
  List.nodup_append_comm.mp (by simpa using hr.nodup)

/-- A ring is empty exactly when its head is its own successor. -/
theorem next_head_eq_iff : h.next hd = hd ↔ l = [] := by
  cases l with
  | nil => simpa using hr.seg.1
  | cons x l =>
    have hx : x ≠ hd := fun e => hr.head_notMem (by simp [e])
    simpa [hr.seg.1.1] using hx

theorem prev_next_head : h.prev (h.next hd) = hd := by
  cases l with
  | nil => rw [hr.seg.1, hr.seg.2]
  | cons x l => rw [hr.seg.1.1, hr.seg.1.2]

/-- A ring only depends on what its own nodes store. -/
theorem congr (hn : ∀ x ∈ hd :: l, h'.next x = h.next x)
    (hp : ∀ x ∈ hd :: l, h'.prev x = h.prev x) : IsRing h' hd l :=
  ⟨hr.nodup, hr.seg.congr hn fun x hx => hp x (by simpa [or_comm] using hx)⟩

/-- The neighbours of a node of a ring are nodes of the ring. -/
theorem neighbours_mem (hn : n ∈ hd :: l) : h.prev n ∈ hd :: l ∧ h.next n ∈ hd :: l := by
  rcases List.mem_cons.mp hn with rfl | hn
  · exact ⟨hr.seg.prev_mem, by simpa [or_comm] using hr.seg.next_mem⟩
  · obtain ⟨l₁, l₂, rfl⟩ := List.append_of_mem hn
    obtain ⟨h₁, h₂⟩ := (seg_append h hd hd n l₁ l₂).mp hr.seg
    have hp := h₁.prev_mem
    have hn := h₂.next_mem
    simp only [List.mem_cons, List.mem_append, List.not_mem_nil, or_false] at hp hn ⊢
    tauto

/-- A member of a ring is not its own successor. -/
theorem next_ne_self (hn : n ∈ l) : h.next n ≠ n := by
  obtain ⟨l₁, l₂, rfl⟩ := List.append_of_mem hn
  have hseg := ((seg_append h hd hd n l₁ l₂).mp hr.seg).2
  have hnd := hr.nodup
  simp only [List.nodup_cons, List.mem_append, List.mem_cons, List.nodup_append] at hnd
  cases l₂ with
  | nil =>
    intro e
    exact hnd.1 (Or.inr (Or.inl (hseg.1.symm.trans e)))
  | cons x l₂ =>
    intro e
    have hx : x = n := hseg.1.1.symm.trans e
    exact hnd.2.2.1.1 (by simp [hx])

/-- A ring read backwards is one with the members in reverse order, so that facts about `prev`
follow from those about `next`. -/
theorem flip : IsRing h.flip hd l.reverse :=
  ⟨by simpa using hr.nodup, hr.seg.flip⟩

end

variable [DecidableEq ν]

/-- Linking a fresh node behind the head pushes it to the front. -/
theorem insert_head (hr : IsRing h hd l) (hn : n ∉ hd :: l) :
    IsRing (h.insert n hd (h.next hd)) hd (n :: l) := by
  obtain ⟨hne, hnl⟩ : n ≠ hd ∧ n ∉ l := by simpa using hn
  refine ⟨?_, hr.seg.insert_head hr.head_notMem hr.nodup_append_head hne ?_⟩
  · simp only [List.nodup_cons, List.mem_cons, not_or]
    exact ⟨⟨fun e => hne e.symm, hr.head_notMem⟩, hnl, (List.nodup_cons.mp hr.nodup).2⟩
  · simpa [or_comm] using hn

/-- Bypassing a member removes it. -/
theorem bypass (hr : IsRing h hd (l₁ ++ n :: l₂)) :
    IsRing (h.bypass (h.prev n) (h.next n)) hd (l₁ ++ l₂) := by
  obtain ⟨h₁, h₂⟩ := (seg_append h hd hd n l₁ l₂).mp hr.seg
  have hnd := hr.nodup
  simp only [List.nodup_cons, List.nodup_append, List.mem_append, List.mem_cons, not_or] at hnd
  obtain ⟨⟨hh₁, -, hh₂⟩, hn₁, ⟨-, hn₂⟩, hdis⟩ := hnd
  refine ⟨?_, h₁.bypass h₂ (List.nodup_cons.mpr ⟨hh₁, hn₁⟩) ?_ ?_ hh₂⟩
  · simp only [List.nodup_cons, List.nodup_append, List.mem_append, not_or]
    exact ⟨⟨hh₁, hh₂⟩, hn₁, hn₂, fun a ha b hb => hdis a ha b (Or.inr hb)⟩
  · simpa [List.nodup_append] using ⟨hn₂, fun a ha e => hh₂ (e ▸ ha)⟩
  · intro x hx hx'
    rcases List.mem_append.mp hx' with hx' | hx'
    · exact hdis x hx x (Or.inr hx') rfl
    · exact hh₁ (List.mem_singleton.mp hx' ▸ hx)

end IsRing

/-! ### Walking along a ring -/

/-- The nodes that a walk along the successors meets before it is back at the head. -/
def OnRing (h : Links ν) (hd x : ν) : Prop :=
  ∃ n, h.next^[n + 1] hd = x ∧ ∀ m ≤ n, h.next^[m + 1] hd ≠ hd

private theorem Seg.iterate_next {h : Links ν} {a b : ν} {l : List ν} (hs : Seg h a l b) {n : ℕ}
    (hn : n < (l ++ [b]).length) : h.next^[n + 1] a = (l ++ [b])[n] := by
  induction l generalizing a n with
  | nil =>
    obtain rfl : n = 0 := by simpa using hn
    exact hs.1
  | cons x l ih =>
    cases n with
    | zero => exact hs.1.1
    | succ n =>
      rw [Function.iterate_succ_apply, hs.1.1]
      exact ih hs.2 (by simpa using hn)

/-- The nodes met by a walk along the successors are the members of the ring, so that a loop over a
list from its head visits all members and no other node. -/
theorem IsRing.onRing_iff {h : Links ν} {hd x : ν} {l : List ν} (hr : IsRing h hd l) :
    OnRing h hd x ↔ x ∈ l := by
  have hwalk (m : ℕ) (hm : m < l.length) : h.next^[m + 1] hd = l[m] := by
    rw [hr.seg.iterate_next (by simp; omega), List.getElem_append_left hm]
  constructor
  · rintro ⟨n, rfl, hne⟩
    by_cases hn : n < l.length
    · rw [hwalk n hn]
      exact List.getElem_mem hn
    · refine absurd ?_ (hne l.length (by omega))
      rw [hr.seg.iterate_next (by simp)]
      simp
  · intro hx
    obtain ⟨n, hn, rfl⟩ := List.getElem_of_mem hx
    refine ⟨n, hwalk n hn, fun m hm e => hr.head_notMem ?_⟩
    rw [← e, hwalk m (by omega)]
    exact List.getElem_mem _

/-! ### Families of disjoint rings -/

/-- Replacing one sequence commutes with embedding the members. -/
theorem update_map {κ α : Type*} [DecidableEq κ] (f : α → ν) (L : κ → List α) (k : κ)
    (l : List α) :
    Function.update (fun j => (L j).map f) k (l.map f) =
      fun j => (Function.update L k l j).map f := by
  funext j
  by_cases hj : j = k
  · subst hj
    simp
  · simp [hj]

/-- The heads `hd k` carry the members `L k`, and no node lies on two of the rings. -/
structure Rings {κ : Type*} (h : Links ν) (hd : κ → ν) (L : κ → List ν) : Prop where
  ring : ∀ k, IsRing h (hd k) (L k)
  disjoint : ∀ j k, j ≠ k → ∀ x ∈ hd j :: L j, x ∉ hd k :: L k

/-- A single ring is a family. -/
theorem IsRing.rings {h : Links ν} {hd : ν} {l : List ν} (hr : IsRing h hd l) :
    Rings h (fun _ : Unit => hd) fun _ => l :=
  ⟨fun _ => hr, fun _ _ hjk => absurd rfl hjk⟩

namespace Rings

variable {κ : Type*} {h : Links ν} {hd : κ → ν} {L : κ → List ν} {n : ν}

variable (hr : Rings h hd L)

include hr

/-- A family of rings read backwards. -/
theorem flip : Rings h.flip hd fun k => (L k).reverse :=
  ⟨fun k => (hr.ring k).flip, fun j k hjk => by simpa using hr.disjoint j k hjk⟩

/-- The rings only depend on what their own nodes store. -/
theorem congr {h' : Links ν}
    (hn : ∀ k, ∀ x ∈ hd k :: L k, h'.next x = h.next x ∧ h'.prev x = h.prev x) : Rings h' hd L :=
  ⟨fun k => (hr.ring k).congr (fun x hx => (hn k x hx).1) fun x hx => (hn k x hx).2, hr.disjoint⟩

variable [DecidableEq ν]

/-- Pushing a node changes no node off the rings but itself. -/
theorem insert_head_frame (k : κ) {x : ν} (hx : ∀ j, x ∉ hd j :: L j) (hn : x ≠ n) :
    (h.insert n (hd k) (h.next (hd k))).next x = h.next x ∧
      (h.insert n (hd k) (h.next (hd k))).prev x = h.prev x := by
  have hmem := ((hr.ring k).neighbours_mem (n := hd k) List.mem_cons_self).2
  have hk : x ≠ hd k := fun e => hx k (by simp [e])
  have hnext : x ≠ h.next (hd k) := fun e => hx k (e ▸ hmem)
  simp [Links.insert_next, Links.insert_prev, hn, hk, hnext]

/-- Bypassing a member changes no node off the rings. -/
theorem bypass_frame {k : κ} (hk : n ∈ L k) {x : ν} (hx : ∀ j, x ∉ hd j :: L j) :
    (h.bypass (h.prev n) (h.next n)).next x = h.next x ∧
      (h.bypass (h.prev n) (h.next n)).prev x = h.prev x := by
  have hmem := (hr.ring k).neighbours_mem (n := n) (List.mem_cons_of_mem _ hk)
  have hprev : x ≠ h.prev n := fun e => hx k (e ▸ hmem.1)
  have hnext : x ≠ h.next n := fun e => hx k (e ▸ hmem.2)
  simp [Links.bypass_next, Links.bypass_prev, hprev, hnext]

variable [DecidableEq κ]

/-- Pushing a node that is on no ring to the front of one of them. -/
theorem insert_head (k : κ) (hn : ∀ j, n ∉ hd j :: L j) :
    Rings (h.insert n (hd k) (h.next (hd k))) hd (Function.update L k (n :: L k)) := by
  have hmem := ((hr.ring k).neighbours_mem (n := hd k) List.mem_cons_self).2
  constructor
  · intro j
    by_cases hj : j = k
    · subst hj
      simpa using (hr.ring j).insert_head (hn j)
    · rw [Function.update_of_ne hj]
      refine (hr.ring j).congr ?_ ?_ <;> intro x hx
      · have hxn : x ≠ n := fun e => hn j (e ▸ hx)
        have hxk : x ≠ hd k := fun e => hr.disjoint j k hj x hx (by simp [e])
        simp [Links.insert_next, hxn, hxk]
      · have hxn : x ≠ n := fun e => hn j (e ▸ hx)
        have hxk : x ≠ h.next (hd k) := fun e => hr.disjoint j k hj x hx (e ▸ hmem)
        simp [Links.insert_prev, hxn, hxk]
  · intro i j hij x hx
    by_cases hi : i = k
    · subst hi
      rw [Function.update_self] at hx
      rw [Function.update_of_ne (Ne.symm hij)]
      rcases List.mem_cons.mp hx with rfl | hx
      · exact hr.disjoint i j hij _ List.mem_cons_self
      · rcases List.mem_cons.mp hx with rfl | hx
        · exact hn j
        · exact hr.disjoint i j hij x (List.mem_cons_of_mem _ hx)
    · rw [Function.update_of_ne hi] at hx
      by_cases hj : j = k
      · subst hj
        have hxn : x ≠ n := fun e => hn i (e ▸ hx)
        have := hr.disjoint i j hij x hx
        simp only [Function.update_self, List.mem_cons, not_or] at this ⊢
        exact ⟨this.1, hxn, this.2⟩
      · rw [Function.update_of_ne hj]
        exact hr.disjoint i j hij x hx

/-- Linking a node that is on no ring before the head of one of them. -/
theorem insert_tail (k : κ) (hn : ∀ j, n ∉ hd j :: L j) :
    Rings (h.insert n (h.prev (hd k)) (hd k)) hd (Function.update L k (L k ++ [n])) := by
  have hflip := (hr.flip.insert_head k (by simpa using hn)).flip
  rw [Links.flip_insert] at hflip
  have hL : (fun j => (Function.update (fun k => (L k).reverse) k (n :: (L k).reverse) j).reverse) =
      Function.update L k (L k ++ [n]) := by
    funext j
    by_cases hj : j = k
    · subst hj
      simp
    · simp [hj]
  rwa [hL] at hflip

/-- Bypassing a member of one of the rings removes it there. The other rings do not share a node
with it and stay the same. -/
theorem bypass {k : κ} {l₁ l₂ : List ν} (hk : L k = l₁ ++ n :: l₂) :
    Rings (h.bypass (h.prev n) (h.next n)) hd (Function.update L k (l₁ ++ l₂)) := by
  have hmem := (hr.ring k).neighbours_mem (n := n) (by simp [hk])
  constructor
  · intro j
    by_cases hj : j = k
    · subst hj
      simpa using (hk ▸ hr.ring j).bypass
    · rw [Function.update_of_ne hj]
      refine (hr.ring j).congr ?_ ?_ <;> intro x hx
      · have hxk : x ≠ h.prev n := fun e => hr.disjoint j k hj x hx (e ▸ hmem.1)
        simp [Links.bypass_next, hxk]
      · have hxk : x ≠ h.next n := fun e => hr.disjoint j k hj x hx (e ▸ hmem.2)
        simp [Links.bypass_prev, hxk]
  · have hsub (j : κ) (x : ν) (hx : x ∈ hd j :: Function.update L k (l₁ ++ l₂) j) :
        x ∈ hd j :: L j := by
      by_cases hj : j = k
      · subst hj
        simp only [Function.update_self, List.mem_cons, List.mem_append, hk] at hx ⊢
        tauto
      · rwa [Function.update_of_ne hj] at hx
    exact fun i j hij x hx hx' => hr.disjoint i j hij x (hsub i x hx) (hsub j x hx')

end Rings

/-! ### Closed sets of nodes -/

/-- The pointers of the nodes in `S` do not leave `S`. -/
def Links.Closed (h : Links ν) (S : Set ν) : Prop :=
  ∀ n ∈ S, h.next n ∈ S ∧ h.prev n ∈ S

/-- A node that is linked to itself joins the set. -/
theorem Links.Closed.union_self {h : Links ν} {S : Set ν} {n : ν} (hc : h.Closed S)
    (hn : h.next n = n ∧ h.prev n = n) : h.Closed (S ∪ {n}) := by
  rintro x (hx | rfl)
  · exact ⟨.inl (hc x hx).1, .inl (hc x hx).2⟩
  · exact ⟨.inr hn.1, .inr hn.2⟩

/-- The pointers of the nodes outside `S` are the same. -/
def Links.SameOff (h h' : Links ν) (S : Set ν) : Prop :=
  ∀ n, n ∉ S → h'.next n = h.next n ∧ h'.prev n = h.prev n

theorem Links.SameOff.trans {h h' h'' : Links ν} {S : Set ν} (h₁ : h.SameOff h' S)
    (h₂ : h'.SameOff h'' S) : h.SameOff h'' S := fun x hx =>
  ⟨(h₂ x hx).1.trans (h₁ x hx).1, (h₂ x hx).2.trans (h₁ x hx).2⟩

theorem Links.Closed.of_sameOff {h h' : Links ν} {S T : Set ν} (hc : h.Closed T)
    (hs : h.SameOff h' S) (hd : ∀ x ∈ T, x ∉ S) : h'.Closed T := by
  intro x hx
  rw [(hs x (hd x hx)).1, (hs x (hd x hx)).2]
  exact hc x hx

end RiscvLab.Library
