import RiscvLab.Mm.Slab
import Mathlib.Data.List.Perm.Basic
import Mathlib.Data.List.Nodup
import Mathlib.Order.CompletePartialOrder
import Mathlib.Order.Interval.Set.Disjoint

/-!
# Invariants of the slab allocator

The state of the allocator is described in four parts, each of which depends on few fields:

* `PagesInv`: the slabs and their blocks occupy different pages, and of every block the first page
  leads back to its slab;
* `StacksInv`: the objects handed out from a slab and the entries of its stack from `inuse` on
  are together all objects of the slab;
* `ListsInv`: `part_slabs` and `full_slabs` are lists of slabs of their cache, and every other slab
  is linked to itself;
* `FilledInv`: the slabs of `part_slabs` have room and those of `full_slabs` have none.

For `obj_pop` and `obj_push` there is one lemma for each part that the operation touches.

Source: `mm/slab.c`, lines 96–119.
-/

namespace RiscvLab.Mm

open Library

variable {κ : Type}

/-! ### Addresses and geometry -/

/-- The address of entry `i` of the stack of a slab. -/
def entryAddr (slab i : ℕ) : ℕ := freeListField slab + 8 * (i + 1)

theorem getPageStruct_add {p r : ℕ} (hr : r < pgSize) : getPageStruct (getPageAddr p + r) = p := by
  have : getPageAddr p + r - kernBase = pgSize * p + r := by
    rw [getPageAddr, Nat.mul_comm]
    omega
  rw [getPageStruct, this, Nat.mul_add_div (by decide), Nat.div_eq_of_lt hr, Nat.add_zero]

theorem getPageStruct_getPageAddr (p : ℕ) : getPageStruct (getPageAddr p) = p := by
  simpa using getPageStruct_add (p := p) (r := 0) (by decide)

theorem getPageStruct_entryAddr (a : ℕ) {i : ℕ} (hi : i < 256) :
    getPageStruct (entryAddr a i) = a := by
  have : entryAddr a i = getPageAddr a + (40 + 8 * (i + 1)) := by
    simp only [entryAddr, freeListField]
    omega
  rw [this, getPageStruct_add]
  simp only [pgSize]
  omega

theorem entryAddr_injective (a : ℕ) : Function.Injective (entryAddr a) := fun i j h => by
  simp only [entryAddr] at h
  omega

/-- What `kmem_cache_create` ensures of the sizes that the allocator is used with. -/
structure Geometry (k : KmemCache) : Prop where
  size_pos : 0 < k.size
  count_mul : k.countPerSlab * k.size = 2 ^ k.order * pgSize
  four_le : 4 ≤ k.countPerSlab
  le_max : k.countPerSlab ≤ 256

/-- The pages that a slab and its block occupy. -/
def footprint (slab objPage order : ℕ) : Set ℕ :=
  insert slab (Set.Ico objPage (objPage + 2 ^ order))

theorem mem_footprint {slab objPage order i : ℕ} : i ∈ footprint slab objPage order ↔
    i = slab ∨ objPage ≤ i ∧ i < objPage + 2 ^ order := Iff.rfl

/-- The pages `slab` and `objPage` that the page allocator returns to `slab_create` are apart from
each other and from all pages it has returned before. -/
def Fresh (s : SlabState κ) (order : ℕ) (pages : ℕ × ℕ) : Prop :=
  pages.1 ∉ Set.Ico pages.2 (pages.2 + 2 ^ order) ∧
    ∀ i ∈ footprint pages.1 pages.2 order, i < allPfn ∧ ∀ a sl, s.slab a = some sl →
      i ∉ footprint a (getPageStruct sl.objs) (s.cache sl.kc).order

/-! ### The parts of the invariant -/

/-- The fields of a slab that never change: its cache and its block. -/
def SlabState.shape (s : SlabState κ) (a : ℕ) : Option (κ × ℕ) :=
  (s.slab a).map fun sl => (sl.kc, sl.objs)

/-- The pages of the slabs. -/
structure PagesInv (s : SlabState κ) : Prop where
  geometry : ∀ {a c o}, s.shape a = some (c, o) → Geometry (s.cache c)
  block : ∀ {a c o}, s.shape a = some (c, o) → o = getPageAddr (getPageStruct o) ∧
    a ∉ Set.Ico (getPageStruct o) (getPageStruct o + 2 ^ (s.cache c).order)
  disjoint : ∀ {a b c d o o'}, s.shape a = some (c, o) → s.shape b = some (d, o') → a ≠ b →
    Disjoint (footprint a (getPageStruct o) (s.cache c).order)
      (footprint b (getPageStruct o') (s.cache d).order)
  owner : ∀ {a c o}, s.shape a = some (c, o) → s.pageSlab (getPageStruct o) = some a
  owner_first : ∀ {p a}, s.pageSlab p = some a → ∃ c, s.shape a = some (c, getPageAddr p)

/-- The addresses of the objects that were handed out from a slab. -/
def held (out : List (Obj κ)) (a : ℕ) : List ℕ := (out.filter (·.slab = a)).map Obj.addr

/-- The stack of a slab from position `inuse` on. -/
def stack (s : SlabState κ) (a : ℕ) (sl : Slab κ) : List ℕ :=
  (List.range' sl.inuse ((s.cache sl.kc).countPerSlab - sl.inuse)).map fun i =>
    s.mem (entryAddr a i)

/-- All objects of a slab. -/
def objects (s : SlabState κ) (sl : Slab κ) : List ℕ :=
  (List.range (s.cache sl.kc).countPerSlab).map fun i => sl.objs + i * (s.cache sl.kc).size

/-- The stacks of the slabs. -/
structure StacksInv (s : SlabState κ) (out : List (Obj κ)) : Prop where
  top : ∀ {a sl}, s.slab a = some sl → sl.freeList = entryAddr a sl.inuse
  le : ∀ {a sl}, s.slab a = some sl → sl.inuse ≤ (s.cache sl.kc).countPerSlab
  perm : ∀ {a sl}, s.slab a = some sl → (held out a ++ stack s a sl).Perm (objects s sl)
  issued : ∀ {o}, o ∈ out → ∃ p, s.shape o.slab = some (o.cache, p)

/-- The lists of the allocator: the caches, and the slabs of a cache that have room or are full. -/
inductive ListKey (κ : Type)
  | caches
  | slabs (cache : κ) (full : Bool)
  deriving DecidableEq

/-- The heads of the lists. -/
def ListKey.head : ListKey κ → SlabNode κ
  | caches => .kmemCacheList
  | slabs c false => .partSlabs c
  | slabs c true => .fullSlabs c

/-- The lists and the nodes on them. -/
structure ListsInv (s : SlabState κ) (L : ListKey κ → List (SlabNode κ)) : Prop where
  rings : Rings s.links ListKey.head L
  caches : ∀ {x}, x ∈ L .caches → ∃ c, x = .cacheList c
  slabs : ∀ {c f x}, x ∈ L (.slabs c f) → ∃ a p, x = .slabList a ∧ s.shape a = some (c, p)
  unlisted : ∀ {a}, s.shape a ≠ none → (∀ k, .slabList a ∉ L k) →
    s.links.next (.slabList a) = .slabList a ∧ s.links.prev (.slabList a) = .slabList a

/-- A slab on `full_slabs` has no room, and one on `part_slabs` has. -/
def FilledInv (s : SlabState κ) (L : ListKey κ → List (SlabNode κ)) : Prop :=
  ∀ c f a sl, .slabList a ∈ L (.slabs c f) → s.slab a = some sl →
    (f = false ↔ sl.inuse < (s.cache c).countPerSlab)

/-! ### Reading the parts -/

section Read

variable {s : SlabState κ} {out : List (Obj κ)} {L : ListKey κ → List (SlabNode κ)} {a : ℕ}
  {sl : Slab κ}

theorem shape_of_slab (h : s.slab a = some sl) : s.shape a = some (sl.kc, sl.objs) := by
  simp [SlabState.shape, h]

theorem slab_of_shape {c : κ} {o : ℕ} (h : s.shape a = some (c, o)) :
    ∃ sl, s.slab a = some sl ∧ sl.kc = c ∧ sl.objs = o := by
  simpa [SlabState.shape] using h

theorem mem_objects {x : ℕ} : x ∈ objects s sl ↔
    ∃ i < (s.cache sl.kc).countPerSlab, x = sl.objs + i * (s.cache sl.kc).size := by
  simp [objects, eq_comm]

theorem mem_held {x : ℕ} : x ∈ held out a ↔ ∃ o ∈ out, o.slab = a ∧ o.addr = x := by
  simp [held, and_assoc]

theorem objects_nodup (hg : Geometry (s.cache sl.kc)) : (objects s sl).Nodup := by
  refine List.nodup_range.map fun i j hij => ?_
  exact Nat.eq_of_mul_eq_mul_right hg.size_pos (Nat.add_left_cancel hij)

/-- The number of objects handed out from a slab. -/
theorem StacksInv.length_held (hS : StacksInv s out) (h : s.slab a = some sl) :
    (held out a).length = sl.inuse := by
  have hlen := (hS.perm h).length_eq
  have hle := hS.le h
  simp only [List.length_append, stack, objects, List.length_map, List.length_range',
    List.length_range] at hlen
  omega

theorem StacksInv.mem_objects_of_mem (hS : StacksInv s out) {o : Obj κ} (ho : o ∈ out)
    (h : s.slab o.slab = some sl) : o.addr ∈ objects s sl :=
  (hS.perm h).subset (List.mem_append_left _ (mem_held.mpr ⟨o, ho, rfl, rfl⟩))

theorem PagesInv.object_page (hP : PagesInv s) (h : s.slab a = some sl) {x y : ℕ}
    (hx : x ∈ objects s sl) (hy : x ≤ y) (hyx : y < x + (s.cache sl.kc).size) :
    getPageStruct sl.objs ≤ getPageStruct y ∧
      getPageStruct y < getPageStruct sl.objs + 2 ^ (s.cache sl.kc).order := by
  obtain ⟨hbase, -⟩ := hP.block (shape_of_slab h)
  have hg := (hP.geometry (shape_of_slab h)).count_mul
  obtain ⟨i, hi, rfl⟩ := mem_objects.mp hx
  have hlt : i * (s.cache sl.kc).size + (s.cache sl.kc).size ≤
      2 ^ (s.cache sl.kc).order * pgSize := by
    rw [← hg, ← Nat.succ_mul]
    exact Nat.mul_le_mul_right _ hi
  simp only [getPageStruct, getPageAddr, pgSize] at *
  generalize i * (s.cache sl.kc).size = t at *
  omega

end Read

/-! ### `obj_pop` and `obj_push` -/

section Objects

variable {s s' : SlabState κ} {out : List (Obj κ)} {L : ListKey κ → List (SlabNode κ)} {a : ℕ}
  {sl : Slab κ}

theorem PagesInv.congr (hP : PagesInv s) (hc : s'.cache = s.cache) (hs : s'.shape = s.shape)
    (ho : s'.pageSlab = s.pageSlab) : PagesInv s' := by
  constructor <;> intros <;> simp only [hc, hs, ho] at *
  · exact hP.geometry ‹_›
  · exact hP.block ‹_›
  · exact hP.disjoint ‹_› ‹_› ‹_›
  · exact hP.owner ‹_›
  · exact hP.owner_first ‹_›

theorem ListsInv.congr (hL : ListsInv s L) (hl : s'.links = s.links) (hs : s'.shape = s.shape) :
    ListsInv s' L :=
  ⟨hl ▸ hL.rings, hL.caches, hs ▸ hL.slabs, by rw [hl, hs]; exact hL.unlisted⟩

/-- A store of other counters into a slab keeps the shapes. -/
theorem shape_update (h : s.slab a = some sl) (inuse freeList : ℕ) :
    SlabState.shape { s with
      slab := Function.update s.slab a
        (some { sl with inuse := inuse, freeList := freeList }) } = s.shape := by
  funext b
  by_cases hb : b = a
  · subst hb
    simp [SlabState.shape, h]
  · simp [SlabState.shape, hb]

/-- The state after `obj_pop`. -/
def popState (s : SlabState κ) (a : ℕ) (sl : Slab κ) : SlabState κ :=
  { s with
    slab := Function.update s.slab a
      (some { sl with inuse := sl.inuse + 1, freeList := sl.freeList + 8 }) }

theorem objPop_eq (h : s.slab a = some sl) :
    objPop s a = .ok (⟨sl.kc, a, s.mem sl.freeList⟩, popState s a sl) := by
  simp [objPop, popState, h]

theorem StacksInv.pop (hS : StacksInv s out) (h : s.slab a = some sl)
    (hlt : sl.inuse < (s.cache sl.kc).countPerSlab) :
    StacksInv (popState s a sl) (⟨sl.kc, a, s.mem sl.freeList⟩ :: out) := by
  have hshape : (popState s a sl).shape = s.shape := shape_update h _ _
  have htop := hS.top h
  constructor
  case top =>
    intro b sb hb
    by_cases hba : b = a
    · subst hba
      obtain rfl : _ = sb := by simpa [popState] using hb
      simp only [htop, entryAddr]
      omega
    · exact hS.top (by simpa [popState, hba] using hb)
  case le =>
    intro b sb hb
    by_cases hba : b = a
    · subst hba
      obtain rfl : _ = sb := by simpa [popState] using hb
      exact hlt
    · exact hS.le (a := b) (by simpa [popState, hba] using hb)
  case perm =>
    intro b sb hb
    by_cases hba : b = a
    · subst hba
      obtain rfl : _ = sb := by simpa [popState] using hb
      have hstack : stack s b sl = s.mem sl.freeList :: stack (popState s b sl) b
          { sl with inuse := sl.inuse + 1, freeList := sl.freeList + 8 } := by
        obtain ⟨n, hn⟩ : ∃ n, (s.cache sl.kc).countPerSlab - sl.inuse = n + 1 :=
          ⟨_, (Nat.succ_pred_eq_of_pos (Nat.sub_pos_of_lt hlt)).symm⟩
        have hn' : (s.cache sl.kc).countPerSlab - (sl.inuse + 1) = n := by omega
        simp [stack, popState, hn, hn', List.range'_succ, htop]
      have hperm := hS.perm h
      rw [hstack] at hperm
      have hheld : held (⟨sl.kc, b, s.mem sl.freeList⟩ :: out) b =
          s.mem sl.freeList :: held out b := by simp [held]
      rw [hheld]
      exact List.perm_middle.symm.trans hperm
    · have hb' : s.slab b = some sb := by simpa [popState, hba] using hb
      have hheld : held (⟨sl.kc, a, s.mem sl.freeList⟩ :: out) b = held out b := by
        simp [held, Ne.symm hba]
      rw [hheld]
      exact hS.perm hb'
  case issued =>
    intro o ho
    rw [hshape]
    rcases List.mem_cons.mp ho with rfl | ho
    · exact ⟨_, shape_of_slab h⟩
    · exact hS.issued ho

/-- The state after `obj_push`. -/
def pushState (s : SlabState κ) (a : ℕ) (sl : Slab κ) (obj : ℕ) : SlabState κ :=
  { s with
    slab := Function.update s.slab a
      (some { sl with inuse := sl.inuse - 1, freeList := sl.freeList - 8 })
    mem := Function.update s.mem (sl.freeList - 8) obj }

theorem objPush_eq (h : s.slab a = some sl) (obj : ℕ) :
    objPush s a obj = .ok (pushState s a sl obj) := by
  simp [objPush, pushState, h]

theorem stack_congr {a : ℕ} {sl : Slab κ} (hc : s'.cache sl.kc = s.cache sl.kc)
    (hm : ∀ i, sl.inuse ≤ i → i < (s.cache sl.kc).countPerSlab →
      s'.mem (entryAddr a i) = s.mem (entryAddr a i)) :
    stack s' a sl = stack s a sl := by
  rw [stack, stack, hc]
  refine List.map_congr_left fun i hi => ?_
  obtain ⟨hge, hlt⟩ := List.mem_range'_1.mp hi
  exact hm i hge (by omega)

theorem StacksInv.push [DecidableEq κ] (hS : StacksInv s out) (hP : PagesInv s) {o : Obj κ}
    (ho : o ∈ out) (h : s.slab o.slab = some sl) :
    StacksInv (pushState s o.slab sl o.addr) (out.erase o) := by
  have hshape : (pushState s o.slab sl o.addr).shape = s.shape :=
    shape_update (s := { s with mem := _ }) h _ _
  have htop := hS.top h
  have hle := hS.le h
  obtain ⟨n, hn⟩ : ∃ n, sl.inuse = n + 1 := by
    refine Nat.exists_eq_succ_of_ne_zero ?_
    rw [← hS.length_held h]
    exact List.length_pos_iff_exists_mem.mpr ⟨_, mem_held.mpr ⟨o, ho, rfl, rfl⟩⟩ |>.ne'
  have hfl : sl.freeList - 8 = entryAddr o.slab n := by
    rw [htop, hn]
    simp only [entryAddr]
    omega
  have herase := List.perm_cons_erase ho
  have hmax := (hP.geometry (shape_of_slab h)).le_max
  constructor
  case top =>
    intro b sb hb
    by_cases hba : b = o.slab
    · subst hba
      obtain rfl : _ = sb := by simpa [pushState] using hb
      simp only [hfl, hn, Nat.add_sub_cancel]
    · exact hS.top (by simpa [pushState, hba] using hb)
  case le =>
    intro b sb hb
    by_cases hba : b = o.slab
    · subst hba
      obtain rfl : _ = sb := by simpa [pushState] using hb
      exact (Nat.sub_le _ _).trans hle
    · exact hS.le (a := b) (by simpa [pushState, hba] using hb)
  case perm =>
    intro b sb hb
    have hheld := (herase.filter (·.slab = b)).map Obj.addr
    by_cases hba : b = o.slab
    · subst hba
      obtain rfl : _ = sb := by simpa [pushState] using hb
      have hstack : stack (pushState s o.slab sl o.addr) o.slab
          { sl with inuse := sl.inuse - 1, freeList := sl.freeList - 8 } =
            o.addr :: stack s o.slab sl := by
        have hcount : (s.cache sl.kc).countPerSlab - n =
            (s.cache sl.kc).countPerSlab - (n + 1) + 1 := by omega
        simp only [stack, pushState, hn, Nat.add_sub_cancel, hcount, List.range'_succ,
          List.map_cons, hfl, Function.update_self, List.cons.injEq, true_and]
        refine List.map_congr_left fun i hi => Function.update_of_ne ?_ _ _
        have := (List.mem_range'_1.mp hi).1
        exact fun e => absurd (entryAddr_injective _ e) (by omega)
      rw [hstack]
      simp only [List.filter_cons, decide_true, if_true, List.map_cons] at hheld
      exact (List.perm_middle.trans (hheld.symm.append_right _)).trans (hS.perm h)
    · have hb' : s.slab b = some sb := by simpa [pushState, hba] using hb
      have hmaxb := (hP.geometry (shape_of_slab hb')).le_max
      have hstack : stack (pushState s o.slab sl o.addr) b sb = stack s b sb := by
        refine stack_congr rfl fun i _ hi => Function.update_of_ne (fun e => hba ?_) _ _
        rw [hfl] at e
        have := congrArg getPageStruct e
        rwa [getPageStruct_entryAddr b (by omega), getPageStruct_entryAddr _ (by omega)] at this
      rw [hstack]
      simp only [List.filter_cons, decide_eq_true_eq, Ne.symm hba, if_false] at hheld
      exact (hheld.symm.append_right _).trans (hS.perm hb')
  case issued =>
    intro o' ho'
    rw [hshape]
    exact hS.issued (List.mem_of_mem_erase ho')

/-- A store into an object that was handed out changes no stack. -/
theorem StacksInv.store (hS : StacksInv s out) (hP : PagesInv s) {o : Obj κ} (ho : o ∈ out)
    {x v : ℕ} (hx : o.addr ≤ x) (hxo : x < o.addr + (s.cache o.cache).size) :
    StacksInv { s with mem := Function.update s.mem x v } out := by
  obtain ⟨p, hp⟩ := hS.issued ho
  obtain ⟨so, hso, hkc, -⟩ := slab_of_shape hp
  rw [← hkc] at hxo
  have hpage := hP.object_page hso (hS.mem_objects_of_mem ho hso) hx hxo
  refine ⟨hS.top, hS.le, fun {a sl} h => ?_, hS.issued⟩
  have hstack : stack { s with mem := Function.update s.mem x v } a sl = stack s a sl := by
    refine stack_congr rfl fun i _ hi => Function.update_of_ne (fun e => ?_) _ _
    have hmax := (hP.geometry (shape_of_slab h)).le_max
    rw [← e, getPageStruct_entryAddr a (by omega)] at hpage
    -- the page of a slab is in no block, neither its own nor another one
    by_cases ha : a = o.slab
    · exact (hP.block (shape_of_slab hso)).2 (ha ▸ hpage)
    · exact Set.disjoint_left.mp (hP.disjoint (shape_of_slab h) (shape_of_slab hso) ha)
        (mem_footprint.mpr (Or.inl rfl)) (mem_footprint.mpr (Or.inr hpage))
  rw [hstack]
  exact hS.perm h

end Objects

end RiscvLab.Mm
