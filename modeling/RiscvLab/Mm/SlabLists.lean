import RiscvLab.Mm.SlabInvariant

/-!
# Creating and moving slabs

`slab_create` adds a slab to the allocator, and `list_add_head` and `list_del` move slabs between
`part_slabs` and `full_slabs`. For each part of the invariant one lemma says that it is kept. A
move is described by `Relisted`: one node changes its list, and all others stay where they are.

Source: `mm/slab.c`, lines 20–56, 137–142, 229–234, 268–271.
-/

namespace RiscvLab.Mm

open Library

variable {κ : Type}

/-! ### `slab_create` -/

section Create

variable {s : SlabState κ} {out : List (Obj κ)} {L : ListKey κ → List (SlabNode κ)} {c : κ}
  {h p : ℕ}

theorem Fresh.disjoint {order : ℕ} (hf : Fresh s order (h, p)) {a : ℕ} {d : κ} {o : ℕ}
    (ha : s.shape a = some (d, o)) :
    Disjoint (footprint h p order) (footprint a (getPageStruct o) (s.cache d).order) := by
  obtain ⟨sl, hsl, rfl, rfl⟩ := slab_of_shape ha
  exact Set.disjoint_left.mpr fun i hi => (hf.2 i hi).2 a sl hsl

theorem Fresh.shape_eq_none {order : ℕ} (hf : Fresh s order (h, p)) : s.shape h = none := by
  cases hsh : s.shape h with
  | none => rfl
  | some x =>
    exact absurd (mem_footprint.mpr (Or.inl rfl)) (Set.disjoint_left.mp
      (hf.disjoint (d := x.1) (o := x.2) hsh) (mem_footprint.mpr (Or.inl rfl)))

theorem ListsInv.notMem (hL : ListsInv s L) {a : ℕ} (ha : s.shape a = none) (k : ListKey κ) :
    .slabList a ∉ L k := by
  intro hmem
  cases k with
  | caches =>
    obtain ⟨d, hd⟩ := hL.caches hmem
    cases hd
  | slabs d f =>
    obtain ⟨b, q, hb, hq⟩ := hL.slabs hmem
    cases hb
    rw [ha] at hq
    cases hq

theorem slabList_notMem_ring {a : ℕ} (hun : ∀ k, .slabList a ∉ L k) (k : ListKey κ) :
    .slabList a ∉ k.head :: L k := by
  rw [List.mem_cons, not_or]
  refine ⟨?_, hun k⟩
  rcases k with - | ⟨c, - | -⟩ <;> simp [ListKey.head]

variable [DecidableEq κ]

private theorem pageSlabLoop_eq (page slab n : ℕ) (ps : ℕ → Option ℕ) :
    pageSlabLoop page slab (n + 1) ps = Function.update ps page (some slab) := by
  induction n generalizing ps with
  | zero => rfl
  | succ n ih => rw [pageSlabLoop, ih, Function.update_idem]

/-- The back pointers after `slab_create`: the loop has set that of the first page only. -/
theorem slabCreate_pageSlab (s : SlabState κ) (c : κ) (h p : ℕ) :
    (slabCreate s c h p).pageSlab = Function.update s.pageSlab p (some h) := by
  obtain ⟨n, hn⟩ := Nat.exists_eq_succ_of_ne_zero (Nat.two_pow_pos (s.cache c).order).ne'
  simp only [slabCreate, hn, pageSlabLoop_eq, getPageStruct_getPageAddr]

theorem slabCreate_shape (s : SlabState κ) (c : κ) (h p : ℕ) :
    (slabCreate s c h p).shape = Function.update s.shape h (some (c, getPageAddr p)) := by
  funext a
  by_cases ha : a = h <;> simp [slabCreate, SlabState.shape, ha]

private theorem freeTableLoop_entry (h objs size : ℕ) (mem : ℕ → ℕ) {n i : ℕ} (hi : i < n) :
    freeTableLoop (freeListField h) objs size mem n (entryAddr h i) = objs + i * size := by
  induction n with
  | zero => exact absurd hi (Nat.not_lt_zero i)
  | succ n ih =>
    rw [freeTableLoop]
    by_cases hin : i = n
    · subst hin
      exact Function.update_self ..
    · rw [Function.update_of_ne, ih (by omega)]
      exact fun e => hin (entryAddr_injective h e)

private theorem freeTableLoop_frame (h objs size : ℕ) (mem : ℕ → ℕ) {n x : ℕ} (hn : n ≤ 256)
    (hx : getPageStruct x ≠ h) : freeTableLoop (freeListField h) objs size mem n x = mem x := by
  induction n with
  | zero => rfl
  | succ n ih =>
    rw [freeTableLoop, Function.update_of_ne, ih (by omega)]
    rintro rfl
    exact hx (getPageStruct_entryAddr h (by omega))

theorem slabCreate_entry (s : SlabState κ) (c : κ) (h p : ℕ) {i : ℕ}
    (hi : i < (s.cache c).countPerSlab) :
    (slabCreate s c h p).mem (entryAddr h i) = getPageAddr p + i * (s.cache c).size :=
  freeTableLoop_entry h _ _ _ hi

/-- `slab_create` writes into the page of the new slab only. -/
theorem slabCreate_mem_frame (hg : Geometry (s.cache c)) {x : ℕ} (hx : getPageStruct x ≠ h) :
    (slabCreate s c h p).mem x = s.mem x := by
  rw [slabCreate]
  dsimp only
  rw [freeTableLoop_frame h _ _ _ hg.le_max hx, if_neg]
  rintro ⟨hge, hlt⟩
  obtain ⟨r, rfl⟩ := Nat.exists_eq_add_of_le hge
  exact hx (getPageStruct_add (by omega))

theorem PagesInv.create (hP : PagesInv s) (hg : Geometry (s.cache c))
    (hf : Fresh s (s.cache c).order (h, p)) : PagesInv (slabCreate s c h p) := by
  have hold {a d o} (hne : a ≠ h)
      (ha : (slabCreate s c h p).shape a = some (d, o)) : s.shape a = some (d, o) := by
    rwa [slabCreate_shape, Function.update_of_ne hne] at ha
  have hnew {d o} (ha : (slabCreate s c h p).shape h = some (d, o)) :
      d = c ∧ o = getPageAddr p := by
    rw [slabCreate_shape, Function.update_self] at ha
    cases ha
    exact ⟨rfl, rfl⟩
  constructor
  case geometry =>
    intro a d o ha
    by_cases hah : a = h
    · subst hah
      rw [(hnew ha).1]
      exact hg
    · exact hP.geometry (hold hah ha)
  case block =>
    intro a d o ha
    by_cases hah : a = h
    · subst hah
      obtain ⟨rfl, rfl⟩ := hnew ha
      rw [getPageStruct_getPageAddr]
      exact ⟨rfl, hf.1⟩
    · exact hP.block (hold hah ha)
  case disjoint =>
    intro a b d e o o' ha hb hab
    by_cases hah : a = h
    · subst hah
      obtain ⟨rfl, rfl⟩ := hnew ha
      rw [getPageStruct_getPageAddr]
      exact hf.disjoint (hold (Ne.symm hab) hb)
    · by_cases hbh : b = h
      · subst hbh
        obtain ⟨rfl, rfl⟩ := hnew hb
        rw [getPageStruct_getPageAddr]
        exact (hf.disjoint (hold hah ha)).symm
      · exact hP.disjoint (hold hah ha) (hold hbh hb) hab
  case owner =>
    intro a d o ha
    rw [slabCreate_pageSlab]
    by_cases hah : a = h
    · subst hah
      obtain ⟨rfl, rfl⟩ := hnew ha
      rw [getPageStruct_getPageAddr, Function.update_self]
    · rw [Function.update_of_ne, hP.owner (hold hah ha)]
      rintro e
      have hpos := Nat.two_pow_pos (s.cache c).order
      have hpos' := Nat.two_pow_pos (s.cache d).order
      exact Set.disjoint_left.mp (hf.disjoint (hold hah ha))
        (mem_footprint.mpr (Or.inr ⟨le_rfl, by omega⟩))
        (mem_footprint.mpr (Or.inr ⟨e.le, by omega⟩))
  case owner_first =>
    intro q a ha
    rw [slabCreate_pageSlab] at ha
    rw [slabCreate_shape]
    by_cases hq : q = p
    · subst hq
      obtain rfl : h = a := by simpa using ha
      exact ⟨c, Function.update_self ..⟩
    · rw [Function.update_of_ne hq] at ha
      obtain ⟨d, hd⟩ := hP.owner_first ha
      refine ⟨d, ?_⟩
      rw [Function.update_of_ne, hd]
      rintro rfl
      rw [hf.shape_eq_none] at hd
      cases hd

theorem StacksInv.create (hS : StacksInv s out) (hP : PagesInv s) (hg : Geometry (s.cache c))
    (hf : Fresh s (s.cache c).order (h, p)) : StacksInv (slabCreate s c h p) out := by
  have hnone := hf.shape_eq_none
  have hheld : held out h = [] := by
    refine List.eq_nil_iff_forall_not_mem.mpr fun x hx => ?_
    obtain ⟨o, ho, rfl, -⟩ := mem_held.mp hx
    obtain ⟨q, hq⟩ := hS.issued ho
    rw [hnone] at hq
    cases hq
  have hold {a sl} (hne : a ≠ h) (ha : (slabCreate s c h p).slab a = some sl) :
      s.slab a = some sl := by
    simpa [slabCreate, hne] using ha
  have hnew {sl} (ha : (slabCreate s c h p).slab h = some sl) :
      ⟨c, getPageAddr p, 0, freeListField h + 8⟩ = sl := by
    simpa [slabCreate] using ha
  constructor
  case top =>
    intro a sl ha
    by_cases hah : a = h
    · subst hah
      rw [← hnew ha]
      rfl
    · exact hS.top (hold hah ha)
  case le =>
    intro a sl ha
    by_cases hah : a = h
    · subst hah
      rw [← hnew ha]
      exact Nat.zero_le _
    · exact hS.le (hold hah ha)
  case perm =>
    intro a sl ha
    by_cases hah : a = h
    · subst hah
      rw [← hnew ha, hheld, List.nil_append]
      have hstack : stack (slabCreate s c a p) a ⟨c, getPageAddr p, 0, freeListField a + 8⟩ =
          objects (slabCreate s c a p) ⟨c, getPageAddr p, 0, freeListField a + 8⟩ := by
        rw [stack, objects, Nat.sub_zero, ← List.range_eq_range']
        exact List.map_congr_left fun i hi => slabCreate_entry s c a p (List.mem_range.mp hi)
      rw [hstack]
    · have hstack : stack (slabCreate s c h p) a sl = stack s a sl := by
        refine stack_congr rfl fun i _ hi => slabCreate_mem_frame hg ?_
        have hmax := (hP.geometry (shape_of_slab (hold hah ha))).le_max
        rwa [getPageStruct_entryAddr a (by omega)]
      rw [hstack]
      exact hS.perm (hold hah ha)
  case issued =>
    intro o ho
    obtain ⟨q, hq⟩ := hS.issued ho
    refine ⟨q, ?_⟩
    rw [slabCreate_shape, Function.update_of_ne, hq]
    rintro e
    rw [e, hnone] at hq
    cases hq

theorem ListsInv.create (hL : ListsInv s L) (hf : Fresh s (s.cache c).order (h, p)) :
    ListsInv (slabCreate s c h p) L := by
  have hnone := hf.shape_eq_none
  have hkeep {a d q} (ha : s.shape a = some (d, q)) :
      (slabCreate s c h p).shape a = some (d, q) := by
    rw [slabCreate_shape, Function.update_of_ne, ha]
    rintro rfl
    rw [hnone] at ha
    cases ha
  constructor
  case rings =>
    exact hL.rings.init (slabList_notMem_ring (hL.notMem hnone))
  case caches => exact hL.caches
  case slabs =>
    intro d f x hx
    obtain ⟨a, q, rfl, hq⟩ := hL.slabs hx
    exact ⟨a, q, rfl, hkeep hq⟩
  case unlisted =>
    intro a ha hun
    simp only [slabCreate, initListHead_next, initListHead_prev]
    by_cases hah : a = h
    · simp [hah]
    · rw [slabCreate_shape, Function.update_of_ne hah] at ha
      simpa [hah] using hL.unlisted ha hun

end Create

/-! ### Moving slabs between lists -/

section Move

variable {s s' : SlabState κ} {L L' : ListKey κ → List (SlabNode κ)} {a : ℕ} {k : ListKey κ}

/-- The node `n` is moved to the list `k`, and all others stay. -/
def Relisted (L L' : ListKey κ → List (SlabNode κ)) (n : SlabNode κ) (k : ListKey κ) : Prop :=
  ∀ x j, x ∈ L' j ↔ x = n ∧ j = k ∨ x ≠ n ∧ x ∈ L j

theorem ListsInv.unique (hL : ListsInv s L) {n : SlabNode κ} {j : ListKey κ} (hk : n ∈ L k)
    (hj : n ∈ L j) : j = k := by
  by_contra hne
  exact hL.rings.disjoint j k hne n (List.mem_cons_of_mem _ hj) (List.mem_cons_of_mem _ hk)

theorem ListsInv.relisted_refl (hL : ListsInv s L) {n : SlabNode κ} (hn : n ∈ L k) :
    Relisted L L n k := by
  intro x j
  constructor
  · intro hx
    by_cases hxn : x = n
    · subst hxn
      exact Or.inl ⟨rfl, hL.unique hn hx⟩
    · exact Or.inr ⟨hxn, hx⟩
  · rintro (⟨rfl, rfl⟩ | ⟨-, hx⟩)
    · exact hn
    · exact hx

/-- The lists after a slab has moved to one of the lists of its cache. -/
theorem ListsInv.relist {c : κ} {f : Bool} {p : ℕ} (hL : ListsInv s L)
    (hR : Relisted L L' (.slabList a) (.slabs c f)) (hrings : Rings s'.links ListKey.head L')
    (hs : s'.shape = s.shape) (ha : s.shape a = some (c, p))
    (hframe : ∀ b, b ≠ a → (∀ j, .slabList b ∉ L j) →
      s'.links.next (.slabList b) = s.links.next (.slabList b) ∧
        s'.links.prev (.slabList b) = s.links.prev (.slabList b)) :
    ListsInv s' L' := by
  constructor
  case rings => exact hrings
  case caches =>
    intro x hx
    rcases (hR x _).mp hx with ⟨-, hk⟩ | ⟨-, hx⟩
    · cases hk
    · exact hL.caches hx
  case slabs =>
    intro d g x hx
    rw [hs]
    rcases (hR x _).mp hx with ⟨rfl, hk⟩ | ⟨-, hx⟩
    · cases hk
      exact ⟨a, p, rfl, ha⟩
    · exact hL.slabs hx
  case unlisted =>
    intro b hb hun
    have hba : b ≠ a := by
      rintro rfl
      exact hun _ ((hR _ _).mpr (Or.inl ⟨rfl, rfl⟩))
    have hunb (j : ListKey κ) : .slabList b ∉ L j := fun hj =>
      hun j ((hR _ _).mpr (Or.inr ⟨by simpa using hba, hj⟩))
    obtain ⟨hnext, hprev⟩ := hframe b hba hunb
    rw [hnext, hprev]
    exact hL.unlisted (hs ▸ hb) hunb

/-- The lists keep their fill after a slab has moved and changed. -/
theorem FilledInv.relist {c : κ} {f : Bool} (hF : FilledInv s L)
    (hR : Relisted L L' (.slabList a) (.slabs c f)) (hc : s'.cache = s.cache)
    (hother : ∀ b, b ≠ a → s'.slab b = s.slab b)
    (hself : ∀ sl, s'.slab a = some sl → (f = false ↔ sl.inuse < (s.cache c).countPerSlab)) :
    FilledInv s' L' := by
  intro d g b sl hb hsl
  rw [hc]
  rcases (hR _ _).mp hb with ⟨hba, hk⟩ | ⟨hba, hb⟩
  · cases hba
    cases hk
    exact hself sl hsl
  · exact hF d g b sl hb (by rwa [← hother b (by simpa using hba)])

variable [DecidableEq κ]

private theorem relisted_addHead {M : ListKey κ → List (SlabNode κ)} {n : SlabNode κ}
    (h₁ : ∀ x j, x ∈ M j ↔ x ≠ n ∧ x ∈ L j) :
    Relisted L (Function.update M k (n :: M k)) n k := by
  intro x j
  by_cases hj : j = k
  · subst hj
    rw [Function.update_self, List.mem_cons, h₁]
    simp
  · rw [Function.update_of_ne hj, h₁]
    simp [hj]

/-- `list_add_head` of a slab that is on no list. -/
theorem ListsInv.addHead (hL : ListsInv s L) {c : κ} {p : ℕ} (ha : s.shape a = some (c, p))
    (f : Bool) (hun : ∀ j, .slabList a ∉ L j) :
    ∃ L', Relisted L L' (.slabList a) (.slabs c f) ∧
      ListsInv { s with
        links := listAddHead s.links (.slabList a) (ListKey.slabs c f).head } L' := by
  have hR := relisted_addHead (k := .slabs c f) (L := L) (M := L) (n := .slabList a) fun x j =>
    ⟨fun hx => ⟨fun e => hun j (e ▸ hx), hx⟩, And.right⟩
  refine ⟨_, hR, hL.relist hR (hL.rings.addHead _ (slabList_notMem_ring hun)) rfl ha ?_⟩
  exact fun b hba hunb =>
    hL.rings.insert_head_frame _ (slabList_notMem_ring hunb) (by simpa using hba)

/-- `list_del` and `list_add_head` of a slab that is on a list. -/
theorem ListsInv.move (hL : ListsInv s L) {c : κ} {p : ℕ} (ha : s.shape a = some (c, p))
    (f : Bool) {j : ListKey κ} (hj : .slabList a ∈ L j) :
    ∃ L', Relisted L L' (.slabList a) (.slabs c f) ∧
      ListsInv (moveSlab s a (ListKey.slabs c f).head) L' := by
  obtain ⟨l₁, l₂, hsplit⟩ := List.append_of_mem hj
  have hdel := hL.rings.del hsplit
  have hnodup := (hL.rings.ring j).nodup
  have h₁ (x : SlabNode κ) (i : ListKey κ) : x ∈ Function.update L j (l₁ ++ l₂) i ↔
      x ≠ .slabList a ∧ x ∈ L i := by
    by_cases hij : i = j
    · subst hij
      rw [Function.update_self, hsplit]
      rw [hsplit, List.nodup_cons, List.nodup_middle, List.nodup_cons] at hnodup
      have hout := hnodup.2.1
      simp only [List.mem_append, List.mem_cons] at hout ⊢
      constructor
      · exact fun hx => ⟨fun e => hout (e ▸ hx), by tauto⟩
      · tauto
    · rw [Function.update_of_ne hij]
      exact ⟨fun hx => ⟨fun e => hij (hL.unique hj (e ▸ hx)), hx⟩, And.right⟩
  have hun (i : ListKey κ) : .slabList a ∉ Function.update L j (l₁ ++ l₂) i :=
    fun hmem => ((h₁ _ i).mp hmem).1 rfl
  have hR := relisted_addHead (k := .slabs c f) h₁
  refine ⟨_, hR, hL.relist hR (hdel.addHead _ (slabList_notMem_ring hun)) rfl ha
    fun b hba hunb => ?_⟩
  have hunb' (i : ListKey κ) : .slabList b ∉ Function.update L j (l₁ ++ l₂) i :=
    fun hmem => hunb i ((h₁ _ i).mp hmem).2
  have hadd := hdel.insert_head_frame (.slabs c f) (slabList_notMem_ring hunb') (n := .slabList a)
    (by simpa using hba)
  have hbyp := hL.rings.bypass_frame hj (slabList_notMem_ring hunb)
  exact ⟨hadd.1.trans hbyp.1, hadd.2.trans hbyp.2⟩

end Move

end RiscvLab.Mm
