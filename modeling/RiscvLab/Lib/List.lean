import RiscvLab.Library.Rings

/-!
# The intrusive lists of the kernel

`include/lib/list.h` links structures through embedded `struct list_head` nodes. The heap of all
nodes is a `Links`, and each function is the sequence of stores it performs. Nothing resets a
node that `list_del` or `list_pop` has taken off its list: its `prev` and `next` stay as they
were, which is what several clients of these lists depend on or trip over.

On a family of disjoint rings the functions act as pushes, removal and pop-front on the
sequences of members (`Library.Rings.addHead`, `Library.Rings.addTail`,
`Library.Rings.del`, `Library.Rings.pop_cons`).

Source: `include/lib/list.h`, lines 13–82, 94–102 and 126–134.
-/

namespace RiscvLab

open Library

variable {ν : Type*} [DecidableEq ν]

/-- `INIT_LIST_HEAD`. -/
def initListHead (h : Links ν) (ptr : ν) : Links ν := (h.setNext ptr ptr).setPrev ptr ptr

/-- `__list_add`. -/
def listAdd (h : Links ν) (new prev next : ν) : Links ν :=
  (((h.setPrev next new).setNext prev new).setNext new next).setPrev new prev

/-- `__list_del`. -/
def listDelBetween (h : Links ν) (prev next : ν) : Links ν :=
  (h.setNext prev next).setPrev next prev

/-- `list_del`: the removed node keeps its own pointers. -/
def listDel (h : Links ν) (entry : ν) : Links ν := listDelBetween h (h.prev entry) (h.next entry)

/-- `list_del_init`. -/
def listDelInit (h : Links ν) (entry : ν) : Links ν := initListHead (listDel h entry) entry

/-- `list_add_tail`. -/
def listAddTail (h : Links ν) (new list : ν) : Links ν := listAdd h new (h.prev list) list

/-- `list_add_head`. -/
def listAddHead (h : Links ν) (new list : ν) : Links ν := listAdd h new list (h.next list)

/-- `list_empty`. -/
def listEmpty (h : Links ν) (list : ν) : Bool := h.next list = list

/-- `list_first`. -/
def listFirst (h : Links ν) (list : ν) : ν := h.next list

/-- `list_pop`: the first node, taken off the list by `list_del`. -/
def listPop (h : Links ν) (list : ν) : Option ν × Links ν :=
  if listEmpty h list then (none, h) else (some (h.next list), listDel h (h.next list))

/-! ### What one call stores -/

theorem listAddHead_next (h : Links ν) (new list x : ν) :
    (listAddHead h new list).next x =
      if x = new then h.next list else if x = list then new else h.next x :=
  h.insert_next new list (h.next list) x

theorem listAddHead_prev (h : Links ν) (new list x : ν) :
    (listAddHead h new list).prev x =
      if x = new then list else if x = h.next list then new else h.prev x :=
  h.insert_prev new list (h.next list) x

theorem listDel_next (h : Links ν) (entry x : ν) :
    (listDel h entry).next x = if x = h.prev entry then h.next entry else h.next x :=
  h.bypass_next (h.prev entry) (h.next entry) x

theorem listDel_prev (h : Links ν) (entry x : ν) :
    (listDel h entry).prev x = if x = h.next entry then h.prev entry else h.prev x :=
  h.bypass_prev (h.prev entry) (h.next entry) x

theorem initListHead_next (h : Links ν) (ptr x : ν) :
    (initListHead h ptr).next x = if x = ptr then ptr else h.next x := by
  simp [initListHead, Links.setNext, Links.setPrev, Function.update_apply]

theorem initListHead_prev (h : Links ν) (ptr x : ν) :
    (initListHead h ptr).prev x = if x = ptr then ptr else h.prev x := by
  simp [initListHead, Links.setNext, Links.setPrev, Function.update_apply]

/-- A node whose neighbours are linked to each other already. -/
theorem listDel_eq_self {h : Links ν} {entry : ν} (hn : h.next (h.prev entry) = h.next entry)
    (hp : h.prev (h.next entry) = h.prev entry) : listDel h entry = h := by
  refine Links.ext (funext fun x => ?_) (funext fun x => ?_)
  · rw [listDel_prev]
    split_ifs with hx
    · rw [hx, hp]
    · rfl
  · rw [listDel_next]
    split_ifs with hx
    · rw [hx, hn]
    · rfl

/-- The first node of a list is taken off and put back. -/
theorem listAddHead_listDel {h : Links ν} {x list : ν} (hnext : h.next list = x)
    (hprev : h.prev x = list) (hback : h.prev (h.next x) = x) :
    listAddHead (listDel h x) x list = h := by
  refine Links.ext (funext fun y => ?_) (funext fun y => ?_)
  · rw [listAddHead_prev, listDel_next, hprev, if_pos rfl, listDel_prev]
    split_ifs with h₁ h₂
    · rw [h₁, hprev]
    · rw [h₂, hback]
    · rfl
  · rw [listAddHead_next, listDel_next, listDel_next, hprev, if_pos rfl]
    split_ifs with h₁ h₂
    · rw [h₁]
    · rw [h₂, hnext]
    · rfl

/-! ### The lists as sequences -/

section Rings

variable {κ : Type*} {h : Links ν} {hd : κ → ν} {L : κ → List ν} {n : ν}

theorem Library.Rings.empty_iff (hr : Rings h hd L) (k : κ) :
    listEmpty h (hd k) = true ↔ L k = [] := by
  simpa [listEmpty] using (hr.ring k).next_head_eq_iff

theorem Library.Rings.notEmpty_of_mem (hr : Rings h hd L) {k : κ} (hn : n ∈ L k) :
    listEmpty h n = false := by
  simpa [listEmpty] using (hr.ring k).next_ne_self hn

/-- `INIT_LIST_HEAD` of a node that is on no list. -/
theorem Library.Rings.init (hr : Rings h hd L) (hn : ∀ j, n ∉ hd j :: L j) :
    Rings (initListHead h n) hd L := by
  refine hr.congr fun k x hx => ?_
  have hxn : x ≠ n := fun e => hn k (e ▸ hx)
  simp [initListHead_next, initListHead_prev, hxn]

/-- `INIT_LIST_HEAD` of the head of an empty list. -/
theorem Library.Rings.init_head (hr : Rings h hd L) {k : κ} (hk : L k = []) :
    Rings (initListHead h (hd k)) hd L := by
  refine hr.congr fun j x hx => ?_
  have hseg := (hr.ring k).seg
  rw [hk] at hseg
  by_cases hxk : x = hd k
  · subst hxk
    simp [initListHead_next, initListHead_prev, hseg.1, hseg.2]
  · simp [initListHead_next, initListHead_prev, hxk]

variable [DecidableEq κ]

/-- `list_add_head` of a node that is on no list pushes it to the front. -/
theorem Library.Rings.addHead (hr : Rings h hd L) (k : κ) (hn : ∀ j, n ∉ hd j :: L j) :
    Rings (listAddHead h n (hd k)) hd (Function.update L k (n :: L k)) :=
  hr.insert_head k hn

/-- `list_add_tail` of a node that is on no list pushes it to the back. -/
theorem Library.Rings.addTail (hr : Rings h hd L) (k : κ) (hn : ∀ j, n ∉ hd j :: L j) :
    Rings (listAddTail h n (hd k)) hd (Function.update L k (L k ++ [n])) :=
  hr.insert_tail k hn

/-- `list_del` of a member removes it from its list. -/
theorem Library.Rings.del (hr : Rings h hd L) {k : κ} {l₁ l₂ : List ν} (hk : L k = l₁ ++ n :: l₂) :
    Rings (listDel h n) hd (Function.update L k (l₁ ++ l₂)) :=
  hr.bypass hk

/-- `list_pop` of a nonempty list returns its first member and removes it. -/
theorem Library.Rings.pop_cons (hr : Rings h hd L) {k : κ} {l : List ν} (hk : L k = n :: l) :
    listPop h (hd k) = (some n, listDel h n) ∧
      Rings (listDel h n) hd (Function.update L k l) := by
  have hne : listEmpty h (hd k) = false := by
    simpa [hk] using (hr.empty_iff k).not
  have hnext : h.next (hd k) = n := by
    have := (hr.ring k).seg
    rw [hk] at this
    exact this.1.1
  have hk' : L k = [] ++ n :: l := hk
  exact ⟨by simp [listPop, hne, hnext], hr.del hk'⟩

/-! The same for structures of type `α` that embed their node. -/

variable {α : Type*} {node : α → ν} {M : κ → List α} {a : α}

theorem Library.Rings.addHead_map (hr : Rings h hd fun k => (M k).map node) (k : κ)
    (hn : ∀ j, node a ∉ hd j :: (M j).map node) :
    Rings (listAddHead h (node a) (hd k)) hd
      fun j => (Function.update M k (a :: M k) j).map node := by
  have := hr.addHead k hn
  rwa [← List.map_cons, update_map] at this

theorem Library.Rings.addTail_map (hr : Rings h hd fun k => (M k).map node) (k : κ)
    (hn : ∀ j, node a ∉ hd j :: (M j).map node) :
    Rings (listAddTail h (node a) (hd k)) hd
      fun j => (Function.update M k (M k ++ [a]) j).map node := by
  have := hr.addTail k hn
  rwa [← List.map_singleton, ← List.map_append, update_map] at this

theorem Library.Rings.del_map (hr : Rings h hd fun k => (M k).map node) {k : κ} {l₁ l₂ : List α}
    (hk : M k = l₁ ++ a :: l₂) :
    Rings (listDel h (node a)) hd fun j => (Function.update M k (l₁ ++ l₂) j).map node := by
  have := hr.del (k := k) (show (M k).map node = l₁.map node ++ node a :: l₂.map node by simp [hk])
  rwa [← List.map_append, update_map] at this

theorem Library.Rings.pop_map (hr : Rings h hd fun k => (M k).map node) {k : κ} {l : List α}
    (hk : M k = a :: l) :
    listPop h (hd k) = (some (node a), listDel h (node a)) ∧
      Rings (listDel h (node a)) hd fun j => (Function.update M k l j).map node := by
  have := hr.pop_cons (show (M k).map node = node a :: l.map node by rw [hk, List.map_cons])
  rwa [update_map] at this

end Rings

section IsRing

variable {h : Links ν} {hd : ν} {α : Type*} {node : α → ν} {l : List α} {a : α}

theorem Library.IsRing.init {n : ν} {l : List ν} (hr : IsRing h hd l) (hn : n ∉ hd :: l) :
    IsRing (initListHead h n) hd l :=
  (hr.rings.init fun _ => hn).ring ()

theorem Library.IsRing.addTail_map (hr : IsRing h hd (l.map node))
    (ha : node a ∉ hd :: l.map node) :
    IsRing (listAddTail h (node a) hd) hd ((l ++ [a]).map node) := by
  have := (Rings.addTail_map (M := fun _ => l) hr.rings () fun _ => ha).ring ()
  rwa [Function.update_self] at this

theorem Library.IsRing.pop_map (hr : IsRing h hd ((a :: l).map node)) :
    listPop h hd = (some (node a), listDel h (node a)) ∧
      IsRing (listDel h (node a)) hd (l.map node) := by
  obtain ⟨hpop, hrings⟩ := Rings.pop_map (M := fun _ => a :: l) hr.rings (k := ()) rfl
  have := hrings.ring ()
  rw [Function.update_self] at this
  exact ⟨hpop, this⟩

end IsRing

/-! ### Closed sets of nodes

A client that unlinks nodes with stale pointers can leave a list that is no ring. It still does not
reach nodes outside a set that the pointers do not leave. -/

section Closed

variable {h h' : Links ν} {S : Set ν} {n list : ν}

theorem Library.Links.Closed.init (hc : h.Closed S) : (initListHead h n).Closed S := by
  intro x hx
  rw [initListHead_next, initListHead_prev]
  split_ifs with hxn
  · exact ⟨hxn ▸ hx, hxn ▸ hx⟩
  · exact hc x hx

theorem Library.Links.Closed.del (hc : h.Closed S) (hn : n ∈ S) :
    (listDel h n).Closed S ∧ h.SameOff (listDel h n) S := by
  refine ⟨fun x hx => ?_, fun x hx => ?_⟩
  · rw [listDel_next, listDel_prev]
    refine ⟨?_, ?_⟩
    · split_ifs
      · exact (hc n hn).1
      · exact (hc x hx).1
    · split_ifs
      · exact (hc n hn).2
      · exact (hc x hx).2
  · have hprev : x ≠ h.prev n := fun e => hx (e ▸ (hc n hn).2)
    have hnext : x ≠ h.next n := fun e => hx (e ▸ (hc n hn).1)
    rw [listDel_next, listDel_prev, if_neg hprev, if_neg hnext]
    exact ⟨rfl, rfl⟩

theorem Library.Links.Closed.addHead (hc : h.Closed S) (hn : n ∈ S) (hl : list ∈ S) :
    (listAddHead h n list).Closed S ∧ h.SameOff (listAddHead h n list) S := by
  refine ⟨fun x hx => ?_, fun x hx => ?_⟩
  · rw [listAddHead_next, listAddHead_prev]
    refine ⟨?_, ?_⟩
    · split_ifs
      · exact (hc list hl).1
      · exact hn
      · exact (hc x hx).1
    · split_ifs
      · exact hl
      · exact hn
      · exact (hc x hx).2
  · have hxn : x ≠ n := fun e => hx (e ▸ hn)
    have hxl : x ≠ list := fun e => hx (e ▸ hl)
    have hnext : x ≠ h.next list := fun e => hx (e ▸ (hc list hl).1)
    rw [listAddHead_next, listAddHead_prev, if_neg hxn, if_neg hxl, if_neg hxn, if_neg hnext]
    exact ⟨rfl, rfl⟩

theorem Library.Links.Closed.pop (hc : h.Closed S) (hl : list ∈ S)
    (hpop : listPop h list = (some n, h')) :
    n ∈ S ∧ n ≠ list ∧ h'.Closed S ∧ h.SameOff h' S := by
  unfold listPop at hpop
  split_ifs at hpop with hempty
  · cases hpop
  · obtain ⟨hn, rfl⟩ := Prod.mk.inj hpop
    obtain rfl := Option.some_inj.1 hn
    have hmem := (hc list hl).1
    exact ⟨hmem, by simpa [listEmpty] using hempty, hc.del hmem⟩

end Closed

end RiscvLab
