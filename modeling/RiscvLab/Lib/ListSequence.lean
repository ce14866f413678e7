import RiscvLab.Lib.List

/-!
# The intrusive lists as sequences

In a heap whose nodes lie on circular lists or are linked to themselves, the functions of
`include/lib/list.h` act on the members of one list as push, removal and pop do on a sequence, and
touch no node of any other list. The loops `list_for_each` and `list_for_each_reverse` visit the
members in their order and backwards. `list_len` counts them and gives up after 1000000.

A node that `list_del` or `list_pop` has taken off keeps its pointers, so that it is not linked to
itself; `list_del_init` links it to itself.

## Main definitions

* `listForEach`, `listForEachReverse`, `listLen`
* `Partitioned` : the heap consists of lists and of nodes that are linked to themselves.
* `Transforms` : what a call does to one list and to the rest of the heap.
* `SequenceSpec` : the functions act on sequences.

## Main results

* `sequenceSpec_of_partitioned`

Source: `include/lib/list.h`, lines 13–149.
-/

namespace RiscvLab

open Library

variable {ν : Type*} [DecidableEq ν]

/-! ### Loops over a list -/

/-- The nodes that a loop from `pos` along `step` visits before it comes to `head`; `none` if it
does not come there in fewer than `fuel` rounds. -/
def loopNodes (step : ν → ν) (head : ν) : ℕ → ν → Option (List ν)
  | 0, _ => none
  | fuel + 1, pos =>
    if pos = head then some [] else (loopNodes step head fuel (step pos)).map (pos :: ·)

/-- The nodes that `list_for_each` visits. -/
def listForEach (h : Links ν) (head : ν) (fuel : ℕ) : Option (List ν) :=
  loopNodes h.next head fuel (h.next head)

/-- The nodes that `list_for_each_reverse` visits. -/
def listForEachReverse (h : Links ν) (head : ν) (fuel : ℕ) : Option (List ν) :=
  loopNodes h.prev head fuel (h.prev head)

/-- The loop of `list_len`, which panics when it has counted `room` nodes and there is one more. -/
def listLenLoop (h : Links ν) (list : ν) : ℕ → ν → Option ℕ
  | 0, pos => if pos = list then some 0 else none
  | room + 1, pos =>
    if pos = list then some 0 else (listLenLoop h list room (h.next pos)).map (· + 1)

/-- `list_len`; `none` is its panic. -/
def listLen (h : Links ν) (list : ν) : Option ℕ := listLenLoop h list 1000000 (h.next list)

theorem Library.Seg.loopNodes {h : Links ν} {a b : ν} {l : List ν} (hs : Seg h a l b) (hb : b ∉ l)
    {fuel : ℕ} (hfuel : l.length < fuel) : loopNodes h.next b fuel (h.next a) = some l := by
  induction l generalizing a fuel with
  | nil =>
    obtain ⟨fuel, rfl⟩ := Nat.exists_eq_add_of_lt hfuel
    rw [hs.1, RiscvLab.loopNodes, if_pos rfl]
  | cons x l ih =>
    obtain ⟨hbx, hbl⟩ := not_or.1 (List.mem_cons.not.1 hb)
    obtain ⟨fuel, rfl⟩ : ∃ m, fuel = m + 1 := Nat.exists_eq_succ_of_ne_zero (by omega)
    rw [List.length_cons] at hfuel
    rw [hs.1.1, RiscvLab.loopNodes, if_neg (Ne.symm hbx), ih hs.2 hbl (by omega)]
    rfl

theorem Library.Seg.listLenLoop {h : Links ν} {a b : ν} {l : List ν} (hs : Seg h a l b)
    (hb : b ∉ l) (room : ℕ) : listLenLoop h b room (h.next a) =
      if l.length ≤ room then some l.length else none := by
  induction l generalizing a room with
  | nil =>
    rw [hs.1, List.length_nil, if_pos (Nat.zero_le _)]
    cases room <;> exact if_pos rfl
  | cons x l ih =>
    obtain ⟨hbx, hbl⟩ := not_or.1 (List.mem_cons.not.1 hb)
    rw [hs.1.1, List.length_cons]
    cases room with
    | zero => rw [RiscvLab.listLenLoop, if_neg (Ne.symm hbx), if_neg (by omega)]
    | succ room =>
      rw [RiscvLab.listLenLoop, if_neg (Ne.symm hbx), ih hs.2 hbl]
      by_cases hle : l.length ≤ room
      · rw [if_pos hle, if_pos (by omega)]
        rfl
      · rw [if_neg hle, if_neg (by omega)]
        rfl

section IsRing

variable {h : Links ν} {hd : ν} {l : List ν}

theorem Library.IsRing.listForEach (hr : IsRing h hd l) {fuel : ℕ} (hfuel : l.length < fuel) :
    listForEach h hd fuel = some l :=
  hr.seg.loopNodes hr.head_notMem hfuel

/-- A heap determines the members of a list. -/
theorem Library.IsRing.unique {l' : List ν} (hr : IsRing h hd l) (hr' : IsRing h hd l') :
    l = l' := by
  have h₁ := hr.listForEach (show l.length < l.length + l'.length + 1 by omega)
  have h₂ := hr'.listForEach (show l'.length < l.length + l'.length + 1 by omega)
  exact Option.some_inj.1 (h₁.symm.trans h₂)

theorem Library.IsRing.listForEachReverse (hr : IsRing h hd l) {fuel : ℕ}
    (hfuel : l.length < fuel) : listForEachReverse h hd fuel = some l.reverse :=
  hr.flip.listForEach (by rwa [List.length_reverse])

theorem Library.IsRing.listLen (hr : IsRing h hd l) :
    listLen h hd = if l.length ≤ 1000000 then some l.length else none :=
  hr.seg.listLenLoop hr.head_notMem _

omit [DecidableEq ν] in
theorem Library.IsRing.listFirst (hr : IsRing h hd l) : listFirst h hd = l.headD hd := by
  have hseg := hr.seg
  cases l with
  | nil => exact hseg.1
  | cons x l => exact hseg.1.1

omit [DecidableEq ν] in
theorem Library.IsRing.next_eq_headD {x : ν} {l₁ l₂ : List ν} (hr : IsRing h hd (l₁ ++ x :: l₂)) :
    h.next x = l₂.headD hd := by
  have hseg := ((seg_append h hd hd x l₁ l₂).1 hr.seg).2
  cases l₂ with
  | nil => exact hseg.1
  | cons y l => exact hseg.1.1

omit [DecidableEq ν] in
/-- On a list `prev` and `next` are inverse to each other. -/
theorem Library.IsRing.inverse (hr : IsRing h hd l) {x : ν} (hx : x ∈ hd :: l) :
    h.prev (h.next x) = x ∧ h.next (h.prev x) = x := by
  have hnext : ∀ (h : Links ν) (a b : ν) (l : List ν), Seg h a l b → h.prev (h.next a) = a := by
    intro h a b l hs
    cases l with
    | nil => rw [hs.1, hs.2]
    | cons y l => rw [hs.1.1, hs.1.2]
  rcases List.mem_cons.1 hx with rfl | hx
  · exact ⟨hnext h _ _ _ hr.seg, hnext h.flip _ _ _ hr.seg.flip⟩
  · obtain ⟨l₁, l₂, rfl⟩ := List.append_of_mem hx
    obtain ⟨h₁, h₂⟩ := (seg_append h hd hd x l₁ l₂).1 hr.seg
    exact ⟨hnext h _ _ _ h₂, hnext h.flip _ _ _ h₁.flip⟩

end IsRing

/-! ### The functions on sequences -/

variable {κ : Type*} {h h' : Links ν} {hd : κ → ν} {L : κ → List ν} {k : κ} {n : ν}

/-- The heap consists of lists and of nodes that are linked to themselves. -/
structure Partitioned (h : Links ν) (hd : κ → ν) (L : κ → List ν) : Prop where
  rings : Rings h hd L
  isolated : ∀ n, (∀ k, n ∉ hd k :: L k) → h.next n = n ∧ h.prev n = n

variable [DecidableEq κ]

/-- A call that puts the node `n` on the list `k`, or takes it off: the members of this list are `l`
then, `prev` and `next` are inverse to each other on every list, and no node but `n` and those of
this list is touched. -/
structure Transforms (h h' : Links ν) (hd : κ → ν) (L : κ → List ν) (k : κ) (l : List ν) (n : ν) :
    Prop where
  rings : Rings h' hd (Function.update L k l)
  inverse : ∀ j, ∀ x ∈ hd j :: Function.update L k l j,
    h'.prev (h'.next x) = x ∧ h'.next (h'.prev x) = x
  frame : ∀ x, x ∉ hd k :: L k → x ≠ n → h'.next x = h.next x ∧ h'.prev x = h.prev x

/-- The functions of the list `k` are those of sequences. -/
structure SequenceSpec (h : Links ν) (hd : κ → ν) (L : κ → List ν) (k : κ) : Prop where
  addHead : ∀ n, (∀ j, n ∉ hd j :: L j) →
    Transforms h (listAddHead h n (hd k)) hd L k (n :: L k) n ∧
      Partitioned (listAddHead h n (hd k)) hd (Function.update L k (n :: L k))
  addTail : ∀ n, (∀ j, n ∉ hd j :: L j) →
    Transforms h (listAddTail h n (hd k)) hd L k (L k ++ [n]) n ∧
      Partitioned (listAddTail h n (hd k)) hd (Function.update L k (L k ++ [n]))
  del : ∀ n ∈ L k, Transforms h (listDel h n) hd L k ((L k).erase n) n
  delInit : ∀ n ∈ L k, Transforms h (listDelInit h n) hd L k ((L k).erase n) n ∧
    Partitioned (listDelInit h n) hd (Function.update L k ((L k).erase n))
  popNil : L k = [] → listPop h (hd k) = (none, h)
  popCons : ∀ n l, L k = n :: l →
    ∃ h', listPop h (hd k) = (some n, h') ∧ Transforms h h' hd L k l n
  empty : listEmpty h (hd k) = true ↔ L k = []
  first : listFirst h (hd k) = (L k).headD (hd k)
  len : listLen h (hd k) = if (L k).length ≤ 1000000 then some (L k).length else none
  forEach : ∀ fuel, (L k).length < fuel → listForEach h (hd k) fuel = some (L k)
  forEachReverse : ∀ fuel, (L k).length < fuel →
    listForEachReverse h (hd k) fuel = some (L k).reverse

omit [DecidableEq ν] in
theorem Library.Rings.transforms {l : List ν} (hr : Rings h' hd (Function.update L k l))
    (hframe : ∀ x, x ∉ hd k :: L k → x ≠ n → h'.next x = h.next x ∧ h'.prev x = h.prev x) :
    Transforms h h' hd L k l n :=
  ⟨hr, fun j _ hx => (hr.ring j).inverse hx, hframe⟩

/-- A node that is on no list after a call was on none before, unless it has been taken off. -/
theorem Transforms.isolated {l : List ν} (ht : Transforms h h' hd L k l n)
    (hp : Partitioned h hd L) (hl : ∀ x ∈ L k, x ∈ l ∨ x = n)
    (hn : n ∉ l → h'.next n = n ∧ h'.prev n = n) :
    Partitioned h' hd (Function.update L k l) := by
  refine ⟨ht.rings, fun x hx => ?_⟩
  have hxk : x ∉ hd k :: l := by simpa using hx k
  by_cases hxn : x = n
  · subst hxn
    exact hn fun hmem => hxk (List.mem_cons_of_mem _ hmem)
  · have hold : ∀ j, x ∉ hd j :: L j := by
      intro j
      by_cases hj : j = k
      · subst hj
        intro hmem
        rcases List.mem_cons.1 hmem with rfl | hmem
        · exact hxk List.mem_cons_self
        · exact (hl x hmem).elim (fun h => hxk (List.mem_cons_of_mem _ h)) hxn
      · simpa [hj] using hx j
    rw [(ht.frame x (hold k) hxn).1, (ht.frame x (hold k) hxn).2]
    exact hp.isolated x hold

section Calls

variable (hr : Rings h hd L)

include hr

omit [DecidableEq ν] [DecidableEq κ] in
private theorem neighbours_frame {x : ν} (hx : x ∉ hd k :: L k) {y : ν} (hy : y ∈ hd k :: L k) :
    x ≠ h.next y ∧ x ≠ h.prev y := by
  have hmem := (hr.ring k).neighbours_mem hy
  exact ⟨fun e => hx (e ▸ hmem.2), fun e => hx (e ▸ hmem.1)⟩

theorem Library.Rings.transforms_addHead (hn : ∀ j, n ∉ hd j :: L j) :
    Transforms h (listAddHead h n (hd k)) hd L k (n :: L k) n := by
  refine (hr.addHead k hn).transforms fun x hx hxn => ?_
  have hne := (neighbours_frame hr hx List.mem_cons_self).1
  rw [listAddHead_next, listAddHead_prev, if_neg hxn, if_neg (List.ne_of_not_mem_cons hx),
    if_neg hxn, if_neg hne]
  exact ⟨rfl, rfl⟩

theorem Library.Rings.transforms_addTail (hn : ∀ j, n ∉ hd j :: L j) :
    Transforms h (listAddTail h n (hd k)) hd L k (L k ++ [n]) n := by
  refine (hr.addTail k hn).transforms fun x hx hxn => ?_
  have hne := (neighbours_frame hr hx List.mem_cons_self).2
  have hhd := List.ne_of_not_mem_cons hx
  simp only [listAddTail, listAdd, Links.setNext, Links.setPrev, Function.update_of_ne hxn,
    Function.update_of_ne hne, Function.update_of_ne hhd]
  exact ⟨trivial, trivial⟩

theorem Library.Rings.transforms_del {l₁ l₂ : List ν} (hk : L k = l₁ ++ n :: l₂) :
    Transforms h (listDel h n) hd L k (l₁ ++ l₂) n := by
  refine (hr.del hk).transforms fun x hx hxn => ?_
  have hmem : n ∈ L k := by simp [hk]
  have hne := neighbours_frame hr hx (List.mem_cons_of_mem _ hmem)
  rw [listDel_next, listDel_prev, if_neg hne.2, if_neg hne.1]
  exact ⟨rfl, rfl⟩

theorem Library.Rings.transforms_erase (hn : n ∈ L k) :
    Transforms h (listDel h n) hd L k ((L k).erase n) n := by
  obtain ⟨l₁, l₂, -, hl, herase⟩ := List.exists_erase_eq hn
  rw [herase]
  exact hr.transforms_del hl

/-- A node that has been taken off is on no list. -/
theorem Library.Rings.notMem_update_erase (hn : n ∈ L k) (j : κ) :
    n ∉ hd j :: Function.update L k ((L k).erase n) j := by
  by_cases hj : j = k
  · subst hj
    have hnodup : (L j).Nodup := (List.nodup_cons.1 (hr.ring j).nodup).2
    rw [Function.update_self]
    intro hmem
    rcases List.mem_cons.1 hmem with rfl | hmem
    · exact (hr.ring j).head_notMem hn
    · exact (hnodup.mem_erase_iff.1 hmem).1 rfl
  · rw [Function.update_of_ne hj]
    exact hr.disjoint k j (Ne.symm hj) n (List.mem_cons_of_mem _ hn)

theorem Library.Rings.transforms_delInit (hn : n ∈ L k) :
    Transforms h (listDelInit h n) hd L k ((L k).erase n) n := by
  have hdel := hr.transforms_erase hn
  refine (hdel.rings.init (hr.notMem_update_erase hn)).transforms fun x hx hxn => ?_
  rw [initListHead_next, initListHead_prev, if_neg hxn, if_neg hxn]
  exact hdel.frame x hx hxn

end Calls

/-- The functions of a list act on the sequence of its members. The other lists and the nodes that
are in no list are left alone. -/
theorem sequenceSpec_of_partitioned (hp : Partitioned h hd L) (k : κ) : SequenceSpec h hd L k := by
  have hr := hp.rings
  have hring := hr.ring k
  refine
    { addHead := fun n hn => ?_
      addTail := fun n hn => ?_
      del := fun n hn => hr.transforms_erase hn
      delInit := fun n hn => ?_
      popNil := fun hk => ?_
      popCons := fun n l hk => ?_
      empty := hr.empty_iff k
      first := hring.listFirst
      len := hring.listLen
      forEach := fun fuel hfuel => hring.listForEach hfuel
      forEachReverse := fun fuel hfuel => hring.listForEachReverse hfuel }
  · have ht := hr.transforms_addHead (k := k) hn
    exact ⟨ht, ht.isolated hp (fun x hx => .inl (List.mem_cons_of_mem _ hx))
      fun h => absurd List.mem_cons_self h⟩
  · have ht := hr.transforms_addTail (k := k) hn
    exact ⟨ht, ht.isolated hp (fun x hx => .inl (List.mem_append_left _ hx))
      fun h => absurd (List.mem_append_right _ List.mem_cons_self) h⟩
  · have ht := hr.transforms_delInit hn
    refine ⟨ht, ht.isolated hp (fun x hx => ?_) fun _ => ?_⟩
    · by_cases hxn : x = n
      · exact .inr hxn
      · exact .inl ((List.mem_erase_of_ne hxn).2 hx)
    · -- `INIT_LIST_HEAD` has linked the node to itself
      rw [listDelInit, initListHead_next, initListHead_prev, if_pos rfl, if_pos rfl]
      exact ⟨rfl, rfl⟩
  · rw [listPop, if_pos ((hr.empty_iff k).2 hk)]
  · have hk' : L k = [] ++ n :: l := hk
    exact ⟨_, (hr.pop_cons hk).1, hr.transforms_del hk'⟩

/-- There is a heap with a list of any members. -/
theorem exists_partitioned {head : ν} {l : List ν} (hl : (head :: l).Nodup) :
    ∃ h : Links ν, Partitioned h (fun _ : Unit => head) fun _ => l := by
  induction l with
  | nil =>
    refine ⟨Links.isolated, IsRing.rings ⟨hl, rfl, rfl⟩, fun n _ => ⟨rfl, rfl⟩⟩
  | cons x l ih =>
    rw [List.nodup_cons, List.nodup_cons, List.mem_cons, not_or] at hl
    obtain ⟨h, hp⟩ := ih (List.nodup_cons.2 ⟨hl.1.2, hl.2.2⟩)
    have hx : ∀ _ : Unit, x ∉ head :: l := fun _ => by
      rw [List.mem_cons, not_or]
      exact ⟨Ne.symm hl.1.1, hl.2.1⟩
    have ht := hp.rings.transforms_addHead (k := ()) hx
    have := ht.isolated hp (fun y hy => .inl (List.mem_cons_of_mem _ hy))
      fun h => absurd List.mem_cons_self h
    refine ⟨_, this.rings.congr fun _ _ _ => ⟨rfl, rfl⟩, this.isolated⟩

/-- `list_len` panics on a list of 1000001 nodes. -/
theorem exists_listLen_panic : ∃ (h : Links ℕ) (l : List ℕ),
    Partitioned h (fun _ : Unit => 0) (fun _ => l) ∧ listLen h 0 ≠ some l.length := by
  have hnodup : (0 :: List.range' 1 1000001).Nodup := by
    refine List.nodup_cons.2 ⟨fun hmem => ?_, List.nodup_range'⟩
    have := List.mem_range'_1.1 hmem
    omega
  obtain ⟨h, hp⟩ := exists_partitioned hnodup
  refine ⟨h, _, hp, ?_⟩
  rw [(hp.rings.ring ()).listLen, List.length_range', if_neg (by decide)]
  exact Option.some_ne_none _ |>.symm

/-- A list with the members 1, 2 and 3. -/
theorem sequenceSpec_three : ∃ h : Links ℕ,
    Partitioned h (fun _ : Unit => 0) (fun _ => [1, 2, 3]) ∧
      SequenceSpec h (fun _ : Unit => 0) (fun _ => [1, 2, 3]) () := by
  obtain ⟨h, hp⟩ := exists_partitioned (show (0 :: [1, 2, 3]).Nodup by decide)
  exact ⟨h, hp, sequenceSpec_of_partitioned hp ()⟩

end RiscvLab
