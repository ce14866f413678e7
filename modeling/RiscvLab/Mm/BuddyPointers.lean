import RiscvLab.Mm.BuddyMerge

/-!
# The free lists of the page allocator as pointers

`buddy_free` unlinks both halves of the block that it makes. The half that is being freed is on no
list, and its node still has the pointers of the time when `list_pop` took it off. `list_del_init`
stores these neighbours into each other. This does nothing if they are not on the lists any more or
are still linked to each other. Otherwise nodes that have come between them are lost
(`exists_lost_block`).

A state is traced together with the blocks that have been put on the lists and have neither been
popped nor merged away since. The callers change the counts between the calls in any way.

## Main definitions

* `Linked` : the lists are rings of the given pages.
* `TracedState`, `TracedStep` : the allocator with the traces of its calls.
* `Unhooked`, `CleanFree` : `list_del_init` of the freed page changes no list.

## Main results

* `Linked.freeLoop`, `Linked.splitLoop` : the pointers follow the sets of `Mm/BuddyMerge.lean`.
* `linked_of_reachable`.

Source: `mm/mm.c`, lines 28–107; `include/lib/list.h`, lines 50–82 and 126–134.
-/

namespace RiscvLab.Mm

open Library

/-! ### Rings of pages -/

/-- `buddy.free_lists[l]` is a ring of the pages in `F l`. -/
def Linked (h : Links Node) (F : ℕ → Finset ℕ) : Prop :=
  ∃ L, FreeLists h L ∧ ∀ l i, i ∈ L l ↔ i ∈ F l

/-- The heads of the lists, and the pages on them. -/
def Node.Listed (F : ℕ → Finset ℕ) : Node → Prop
  | .freeLists _ => True
  | .page i => ∃ l, i ∈ F l

/-- `list_del` of the page changes the pointers of no node in the lists `F`. -/
def Unhooked (h : Links Node) (F : ℕ → Finset ℕ) (page : ℕ) : Prop :=
  (Node.Listed F (h.prev (.page page)) →
      h.next (h.prev (.page page)) = h.next (.page page)) ∧
    (Node.Listed F (h.next (.page page)) →
      h.prev (h.next (.page page)) = h.prev (.page page))

theorem Unhooked.mono {h : Links Node} {F G : ℕ → Finset ℕ} {page : ℕ} (hun : Unhooked h F page)
    (hsub : ∀ l, G l ⊆ F l) : Unhooked h G page := by
  have hlisted : ∀ x : Node, x.Listed G → x.Listed F := by
    rintro (l | i) hx
    · trivial
    · exact hx.imp fun l hi => hsub l hi
  exact ⟨fun hx => hun.1 (hlisted _ hx), fun hx => hun.2 (hlisted _ hx)⟩

theorem Unhooked.del_eq {h : Links Node} {F : ℕ → Finset ℕ} {page : ℕ} (hun : Unhooked h F page)
    {x : Node} (hx : x.Listed F) : (listDel h (.page page)).next x = h.next x ∧
      (listDel h (.page page)).prev x = h.prev x := by
  rw [listDel_next, listDel_prev]
  constructor
  · split_ifs with hprev
    · subst hprev
      exact (hun.1 hx).symm
    · rfl
  · split_ifs with hnext
    · subst hnext
      exact (hun.2 hx).symm
    · rfl

namespace Linked

variable {h h' : Links Node} {F : ℕ → Finset ℕ} {i l page : ℕ}

theorem listed_iff {L : ℕ → List ℕ} (hmem : ∀ l i, i ∈ L l ↔ i ∈ F l) (x : Node) :
    Node.Listed F x ↔ ∃ l, x ∈ Node.freeLists l :: (L l).map Node.page := by
  cases x with
  | freeLists l => simp [Node.Listed]
  | page i => simp [Node.Listed, hmem]

section

variable (hlink : Linked h F)

include hlink

theorem congr (heq : ∀ x, Node.Listed F x → h'.next x = h.next x ∧ h'.prev x = h.prev x) :
    Linked h' F := by
  obtain ⟨L, hL, hmem⟩ := hlink
  exact ⟨L, hL.congr fun l x hx => heq x ((listed_iff hmem x).2 ⟨l, hx⟩), hmem⟩

theorem empty_iff (l : ℕ) : listEmpty h (.freeLists l) = true ↔ F l = ∅ := by
  obtain ⟨L, hL, hmem⟩ := hlink
  rw [Rings.empty_iff hL l, List.map_eq_nil_iff, List.eq_nil_iff_forall_not_mem,
    Finset.eq_empty_iff_forall_notMem]
  simp only [hmem]

theorem onRing_iff : OnRing h (.freeLists l) (.page i) ↔ i ∈ F l := by
  obtain ⟨L, hL, hmem⟩ := hlink
  rw [FreeLists.onRing_iff hL, hmem]

theorem addHead (hi : ∀ l, i ∉ F l) :
    Linked (listAddHead h (.page i) (.freeLists l)) (enlist F i l) := by
  obtain ⟨L, hL, hmem⟩ := hlink
  refine ⟨_, FreeLists.addHead (j := l) hL fun m => by rw [hmem]; exact hi m, fun m j => ?_⟩
  by_cases hm : m = l
  · subst hm
    simp [enlist, hmem]
  · simp [enlist, hm, hmem]

theorem del (hi : i ∈ F l) : Linked (listDel h (.page i)) (unlist F i) := by
  obtain ⟨L, hL, hmem⟩ := hlink
  obtain ⟨l₁, l₂, hl⟩ := List.append_of_mem ((hmem l i).2 hi)
  refine ⟨_, Rings.del_map hL hl, fun m j => ?_⟩
  rw [unlist, Finset.mem_erase, ← hmem]
  by_cases hm : m = l
  · subst hm
    have hnd := (List.nodup_cons.1 (hL.ring m).nodup).2.of_map
    rw [hl, List.nodup_middle, List.nodup_cons] at hnd
    rw [Function.update_self, hl, List.mem_append, List.mem_append, List.mem_cons]
    constructor
    · intro hj
      exact ⟨fun e => hnd.1 (List.mem_append.2 (e ▸ hj)), by tauto⟩
    · rintro ⟨hne, hj⟩
      tauto
  · rw [Function.update_of_ne hm]
    refine ⟨fun hj => ⟨fun e => ?_, hj⟩, fun hj => hj.2⟩
    subst e
    exact hL.disjoint m l hm (.page j) (List.mem_cons_of_mem _ (List.mem_map_of_mem hj))
      (List.mem_cons_of_mem _ (List.mem_map_of_mem ((hmem l j).2 hi)))

/-- The nodes that are on no list keep their pointers. -/
theorem del_frame (hi : i ∈ F l) {x : Node} (hx : ¬Node.Listed F x) :
    (listDel h (.page i)).next x = h.next x ∧ (listDel h (.page i)).prev x = h.prev x := by
  obtain ⟨L, hL, hmem⟩ := hlink
  refine Rings.bypass_frame hL (k := l) (List.mem_map_of_mem ((hmem l i).2 hi)) fun j hj => ?_
  exact hx ((listed_iff hmem x).2 ⟨j, hj⟩)

theorem init (hi : ∀ l, i ∉ F l) : Linked (initListHead h (.page i)) F := by
  refine hlink.congr fun x hx => ?_
  have hne : x ≠ .page i := by
    rintro rfl
    exact hx.elim hi
  rw [initListHead_next, initListHead_prev, if_neg hne, if_neg hne]
  exact ⟨rfl, rfl⟩

theorem delInit (hi : i ∈ F l) : Linked (listDelInit h (.page i)) (unlist F i) :=
  (hlink.del hi).init fun m hmem => Finset.notMem_erase i (F m) hmem

theorem delInit_frame (hi : i ∈ F l) (hpage : ∀ l, page ∉ F l) :
    (listDelInit h (.page i)).next (.page page) = h.next (.page page) ∧
      (listDelInit h (.page i)).prev (.page page) = h.prev (.page page) := by
  have hne : Node.page page ≠ .page i := by
    rintro ⟨⟩
    exact hpage l hi
  rw [listDelInit, initListHead_next, initListHead_prev, if_neg hne, if_neg hne]
  exact hlink.del_frame hi fun ⟨m, hm⟩ => hpage m hm

theorem delInit_stale (hpage : ∀ l, page ∉ F l) (hun : Unhooked h F page) :
    Linked (listDelInit h (.page page)) F :=
  Linked.init (hlink.congr fun _ hx => hun.del_eq hx) hpage

end

theorem pop {L : ℕ → List ℕ} {t : List ℕ} (hL : FreeLists h L)
    (hmem : ∀ l i, i ∈ L l ↔ i ∈ F l) (hl : L l = i :: t) :
    i ∈ F l ∧ Linked (listDel h (.page i)) (Function.update F l ((F l).erase i)) := by
  refine ⟨(hmem l i).1 (hl ▸ List.mem_cons_self), _, (FreeLists.pop_cons hL hl).2, fun m j => ?_⟩
  by_cases hm : m = l
  · subst hm
    have hnd := (List.nodup_cons.1 (hL.ring m).nodup).2.of_map
    rw [hl, List.nodup_cons] at hnd
    rw [Function.update_self, Function.update_self, Finset.mem_erase, ← hmem, hl, List.mem_cons]
    constructor
    · intro hj
      exact ⟨fun e => hnd.1 (e ▸ hj), .inr hj⟩
    · rintro ⟨hne, hj⟩
      exact hj.resolve_left hne
  · rw [Function.update_of_ne hm, Function.update_of_ne hm, hmem]

end Linked

/-! ### The loops -/

section Loops

variable {pages : ℕ} {X : Set ℕ} {O : Set (ℕ × ℕ)} {h : Links Node} {F : ℕ → Finset ℕ}
  {page level order : ℕ}

/-- The splitting loop puts the upper halves on their lists, with pointers as with sets: a half was
part of the block in hand and is on no list. -/
theorem Linked.splitLoop (hlink : Linked h F) (hhand : Hand X O F page level)
    (hX : ∀ x ∈ X, x < pages) (ho : order ≤ level) :
    Linked (splitLoop page order level h pages) (splitSets pages page order level F) := by
  induction level, ho using Nat.le_induction generalizing h F with
  | base =>
    rw [splitSets_self]
    cases order with
    | zero => exact hlink
    | succ j => rwa [Mm.splitLoop, if_neg (by omega)]
  | succ level ho ih =>
    have hxor : page ^^^ 2 ^ level = page + 2 ^ level := xor_two_pow_of_dvd hhand.aligned
    have hhalf : page + 2 ^ level ∈ span (page, level + 1) := by
      rw [span_succ]
      exact .inr (mem_span_self _)
    have hnot : ∀ l, page + 2 ^ level ∉ F l := fun l hl =>
      hhand.tiling.notMem_of_insert hhand.notMem (c := (page + 2 ^ level, l)) (.inl hl) hhalf
        (mem_span_self _)
    have hlt : page ^^^ 2 ^ level < pages := by
      refine hxor ▸ hX _ ?_
      rw [← hhand.tiling.cover]
      exact Set.mem_biUnion (Set.mem_insert _ _) hhalf
    rw [Mm.splitLoop, if_pos (by omega), Mm.splitSets, if_pos (by omega), findBuddy_of_lt hlt, hxor]
    exact ih (hlink.addHead hnot) hhand.split

/-- The blocks on the lists after `buddy_free`: the buddies are merged away, and the block that is
made of them is put on a list. -/
def freeTrace (s : BuddyState) (pages : ℕ) :
    ℕ → Links Node → (ℕ → Finset ℕ) → ℕ → ℕ → ℕ → Finset ℕ
  | 0, _, F, page, level => enlist F page level
  | n + 1, h, F, page, level =>
    if listEmpty h (.freeLists level) then enlist F page level
    else
      match findBuddy page level pages with
      | none => enlist F page level
      | some buddyPage =>
        if !isPageFree s buddyPage then enlist F page level
        else
          freeTrace s pages n (listDelInit (listDelInit h (.page buddyPage)) (.page page))
            (unlist (unlist F buddyPage) page) (if page < buddyPage then page else buddyPage)
            (level + 1)

/-- Both halves are linked to themselves afterwards. -/
theorem Unhooked.self_linked {b : ℕ} (hun : Unhooked (listDelInit h (.page b)) F page)
    (hb : b ∈ F level) (q : ℕ) (hq : q = page ∨ q = b) :
    (listDelInit (listDelInit h (.page b)) (.page page)).next (.page q) = .page q ∧
      (listDelInit (listDelInit h (.page b)) (.page page)).prev (.page q) = .page q := by
  have hself : (listDelInit h (.page b)).next (.page b) = .page b ∧
      (listDelInit h (.page b)).prev (.page b) = .page b := by
    rw [listDelInit, initListHead_next, initListHead_prev, if_pos rfl, if_pos rfl]
    exact ⟨rfl, rfl⟩
  rw [listDelInit, initListHead_next, initListHead_prev]
  by_cases hpage : q = page
  · subst hpage
    rw [if_pos rfl, if_pos rfl]
    exact ⟨rfl, rfl⟩
  · obtain rfl := hq.resolve_left hpage
    have hne : Node.page q ≠ .page page := by
      rintro ⟨⟩
      exact hpage rfl
    obtain ⟨hnext, hprev⟩ := hun.del_eq (x := .page q) ⟨level, hb⟩
    rw [if_neg hne, if_neg hne, hnext, hprev]
    exact hself

theorem Linked.unhooked_of_self (hlink : Linked h F) (hpage : ∀ l, page ∉ F l)
    (hnext : h.next (.page page) = .page page) (hprev : h.prev (.page page) = .page page) {b : ℕ}
    (hb : b ∈ F level) : Unhooked (listDelInit h (.page b)) F page := by
  obtain ⟨hnext', hprev'⟩ := hlink.delInit_frame hb hpage
  have hnot : ¬Node.Listed F (.page page) := fun ⟨m, hm⟩ => hpage m hm
  rw [Unhooked, hnext', hprev', hnext, hprev]
  exact ⟨fun h => absurd h hnot, fun h => absurd h hnot⟩

/-- The merging loop joins the same blocks on the pointers as on the sets, if `list_del_init` of the
page in hand, which is on no list, leaves the lists alone (`Unhooked`). -/
theorem Linked.freeLoop {s : BuddyState} {n : ℕ} (hlink : Linked h F)
    (hhand : Hand X O F page level)
    (hall : MergeAll (fun F b level => b ∈ F level) pages s.count n F page level)
    (hun : ∀ b ∈ F level, b = page ^^^ 2 ^ level → n ≠ 0 → s.count b = pgFree →
      Unhooked (listDelInit h (.page b)) F page) :
    Linked (buddyFreeLoop s n h page level pages).1 (mergeSets pages s.count n F page level).1 ∧
      (buddyFreeLoop s n h page level pages).2 = (mergeSets pages s.count n F page level).2 ∧
      freeTrace s pages n h F page level =
        enlist (mergeSets pages s.count n F page level).1
          (mergeSets pages s.count n F page level).2.1
          (mergeSets pages s.count n F page level).2.2 := by
  induction n generalizing h F page level with
  | zero => exact ⟨hlink, rfl, rfl⟩
  | succ n ih =>
    have hempty := hlink.empty_iff level
    unfold MergeAll at hall
    unfold buddyFreeLoop mergeSets freeTrace
    by_cases hF : F level = ∅
    · rw [if_pos (hempty.2 hF), if_pos hF, if_pos (hempty.2 hF)]
      exact ⟨hlink, rfl, rfl⟩
    rw [if_neg (mt hempty.1 hF), if_neg hF, if_neg (mt hempty.1 hF)]
    rw [if_neg hF] at hall
    cases hbuddy : findBuddy page level pages with
    | none => exact ⟨hlink, rfl, rfl⟩
    | some b =>
      obtain rfl := findBuddy_eq_some hbuddy
      rw [hbuddy] at hall
      dsimp only at hall ⊢
      by_cases hcount : s.count (page ^^^ 2 ^ level) = pgFree
      · have hfree : ¬(!isPageFree s (page ^^^ 2 ^ level)) = true := by
          simp [isPageFree, hcount]
        rw [if_neg hfree, if_neg (not_not.2 hcount), if_neg hfree]
        rw [if_neg (not_not.2 hcount)] at hall
        obtain ⟨hb, hall⟩ := hall
        have hpage := hhand.notMem_free
        have hmerge := hhand.merge hb
        have hnot : ∀ l, page ∉ unlist F (page ^^^ 2 ^ level) l := fun l hl =>
          hpage l (Finset.mem_of_mem_erase hl)
        have hsame : unlist (unlist F (page ^^^ 2 ^ level)) page =
            unlist F (page ^^^ 2 ^ level) :=
          funext fun l => Finset.erase_eq_of_notMem (hnot l)
        have hun := hun _ hb rfl n.succ_ne_zero hcount
        have hdel := (hlink.delInit hb).delInit_stale hnot (hun.mono fun _ _ hj =>
          Finset.mem_of_mem_erase hj)
        rw [hsame] at hall hmerge ⊢
        refine ih hdel hmerge hall fun c hc _ _ _ => ?_
        obtain ⟨hnext, hprev⟩ := hun.self_linked hb
          (if page < page ^^^ 2 ^ level then page else page ^^^ 2 ^ level) (by split_ifs <;> simp)
        exact hdel.unhooked_of_self hmerge.notMem_free hnext hprev hc
      · have hfree : (!isPageFree s (page ^^^ 2 ^ level)) = true := by
          simp [isPageFree, hcount]
        rw [if_pos hfree, if_pos hcount, if_pos hfree]
        exact ⟨hlink, rfl, rfl⟩

end Loops

/-! ### Runs -/

/-- The allocator, the blocks that have been put on its lists and have neither been popped nor
merged away since, and the blocks that have been handed out. -/
structure TracedState extends BuddyState where
  free : ℕ → Finset ℕ
  out : Finset (ℕ × ℕ)

inductive TracedEvent
  | alloc (order : ℤ)
  | free (page order : ℕ)
  /-- The callers change the counts. -/
  | setCount (count : ℕ → BitVec 32)

def TracedStep (pages : ℕ) (s : TracedState) (e : TracedEvent) (s' : TracedState) : Prop :=
  match e with
  | .alloc order =>
    match buddyAlloc s.toBuddyState order pages with
    | (none, m) => s' = { s with toBuddyState := m }
    | (some p, m) => ∃ lv, order.toNat ≤ lv ∧
        (∀ l < lv, order.toNat ≤ l → listEmpty s.links (.freeLists l) = true) ∧
        listEmpty s.links (.freeLists lv) = false ∧
        s' = ⟨m, splitSets pages p order.toNat lv
          (Function.update s.free lv ((s.free lv).erase p)), insert (p, order.toNat) s.out⟩
  | .free p order => (p, order) ∈ s.out ∧
      s' = ⟨buddyFree s.toBuddyState p order pages,
        freeTrace s.toBuddyState pages (maxLevelIndex - order) s.links s.free p order,
        s.out.erase (p, order)⟩
  | .setCount count => s' = { s with count := count }

/-- The traced sets. -/
def TracedState.sets (s : TracedState) : SetState := ⟨s.free, s.count, s.out⟩

/-- The lists hold aligned blocks of the highest level, which cover `X`. -/
def TracedState.Start (pages : ℕ) (X : Set ℕ) (s : TracedState) : Prop :=
  Linked s.links s.free ∧ s.sets.Start pages X

/-- The lists are rings of the traced blocks, and no block that is handed out is on them. -/
def TracedState.WellFormed (s : TracedState) : Prop :=
  Linked s.links s.free ∧
    ∀ b ∈ s.out, ∀ l, ¬OnRing s.links (.freeLists l) (.page b.1)

/-- The buddies that `buddy_free` merges with are on the lists of their levels, and at the first
merge the page that is freed does not have neighbours on the lists that it must not be unlinked
from. -/
def CleanFree (pages : ℕ) (s : TracedState) (p order : ℕ) : Prop :=
  MergeAll (fun F b level => b ∈ F level) pages s.count (maxLevelIndex - order) s.free p order ∧
    ∀ b ∈ s.free order, b = p ^^^ 2 ^ order → maxLevelIndex - order ≠ 0 → s.count b = pgFree →
      Unhooked (listDelInit s.links (.page b)) s.free p

def Clean (pages : ℕ) (s : TracedState) (e : TracedEvent) : Prop :=
  match e with
  | .free p order => CleanFree pages s p order
  | _ => True

/-- The invariant of a run. -/
structure TracedInv (X : Set ℕ) (s : TracedState) : Prop where
  linked : Linked s.links s.free
  partition : Partition X s.sets

namespace TracedInv

variable {pages : ℕ} {X : Set ℕ} {s s' : TracedState} {p order : ℕ}

theorem wellFormed (h : TracedInv X s) : s.WellFormed := by
  refine ⟨h.linked, fun b hb l hring => ?_⟩
  have hmem : (b.1, l) ∈ freeBlocks s.free := h.linked.onRing_iff.1 hring
  have heq : (b.1, l) = b := h.partition.tiling.eq_of_mem (.inl hmem) (.inr hb)
    (mem_span_self (b.1, l)) (mem_span_self b)
  exact Set.disjoint_left.1 h.partition.apart hmem (heq ▸ hb)

theorem alloc (h : TracedInv X s) (hX : ∀ x ∈ X, x < pages) {order : ℤ}
    (hstep : TracedStep pages s (.alloc order) s') : TracedInv X s' := by
  obtain ⟨L, hL, hmem⟩ := h.linked
  have hempty : ∀ l, listEmpty s.links (.freeLists l) = true ↔ L l = [] := fun l => by
    rw [Rings.empty_iff hL, List.map_eq_nil_iff]
  unfold TracedStep at hstep
  dsimp only at hstep
  by_cases hadm : order < 0 ∨ order > maxLevelIndex
  · simp only [buddyAlloc, if_pos hadm] at hstep
    exact hstep ▸ h
  obtain ⟨n, rfl⟩ := Int.eq_ofNat_of_zero_le (a := order) (by omega)
  have hn : n < maxLevel := by
    simp only [maxLevelIndex, maxLevel] at hadm ⊢
    omega
  rcases buddyAlloc_cases hL hn pages with ⟨-, halloc⟩ | ⟨lv, p, t, ho, -, hbelow, hp, halloc⟩
  · rw [halloc] at hstep
    exact hstep ▸ h
  · rw [halloc] at hstep
    obtain ⟨lv', ho', hbelow', hne, rfl⟩ := hstep
    rw [Int.toNat_natCast] at *
    -- both are the lowest level whose list is not empty
    obtain rfl : lv' = lv := by
      rcases lt_trichotomy lv' lv with hlt | heq | hlt
      · rw [(hempty lv').2 (hbelow lv' ho' hlt)] at hne
        exact absurd hne (by decide)
      · exact heq
      · have hnil := (hempty lv).1 (hbelow' lv hlt ho)
        rw [hp] at hnil
        exact absurd hnil (List.cons_ne_nil p t)
    obtain ⟨hfree, hlink⟩ := Linked.pop hL hmem hp
    have hhand := h.partition.pop hfree
    exact ⟨hlink.splitLoop hhand hX ho, (hhand.splitSets hX ho).partition_out _⟩

theorem free (h : TracedInv X s) (hclean : CleanFree pages s p order)
    (hstep : TracedStep pages s (.free p order) s') : TracedInv X s' := by
  obtain ⟨hmem, rfl⟩ := hstep
  have hhand := h.partition.hand hmem
  obtain ⟨hlink, hpage, htrace⟩ := h.linked.freeLoop hhand hclean.1 hclean.2
  have hmerge := hhand.mergeSets hclean.1
  have hfree : buddyFree s.toBuddyState p order pages = { s.toBuddyState with
      links := listAddHead (buddyFreeLoop s.toBuddyState (maxLevelIndex - order) s.links p order
          pages).1
        (.page (buddyFreeLoop s.toBuddyState (maxLevelIndex - order) s.links p order pages).2.1)
        (.freeLists
          (buddyFreeLoop s.toBuddyState (maxLevelIndex - order) s.links p order pages).2.2) } := rfl
  rw [htrace, hfree, hpage]
  exact ⟨hlink.addHead hmerge.notMem_free, hmerge.partition_free _⟩

end TracedInv

/-- In a run in which `buddy_free` merges with members of the lists only, and unlinks the page that
is freed without touching a list, the lists are rings of the blocks that have been put on them, and
no block that is handed out is on a list. -/
theorem linked_of_reachable {pages : ℕ} {X : Set ℕ} {s : TracedState}
    (hs : Reachable (TracedState.Start pages X) (guarded (Clean pages) (TracedStep pages)) s) :
    s.WellFormed := by
  obtain ⟨-, hinv⟩ := hs.invariant (P := fun s => (∀ x ∈ X, x < pages) ∧ TracedInv X s)
    (fun s hs => ⟨hs.2.lt, hs.1, hs.2.setInv.partition⟩) (by
      rintro s e s' ⟨hlt, hinv⟩ ⟨hclean, hstep⟩
      refine ⟨hlt, ?_⟩
      cases e with
      | alloc order => exact hinv.alloc hlt hstep
      | free p order => exact hinv.free hclean hstep
      | setCount count =>
        obtain rfl := hstep
        exact ⟨hinv.linked, hinv.partition.tiling, hinv.partition.apart⟩)
  exact hinv.wellFormed

/-- One free block of the highest level. -/
def tracedOneBlock : TracedState :=
  ⟨oneBlock, setOneBlock.free, ∅⟩

theorem start_tracedOneBlock :
    tracedOneBlock.Start maxLevelCount (span (0, maxLevelIndex)) := by
  refine ⟨⟨_, freeLists_oneBlock, fun l i => ?_⟩, start_setOneBlock⟩
  by_cases hl : l = 10
  · subst hl
    simp [tracedOneBlock, setOneBlock, maxLevelIndex, maxLevel]
  · simp [tracedOneBlock, setOneBlock, maxLevelIndex, maxLevel, hl]

/-- The state after a page has been taken from the level `lv`. -/
def TracedState.allocPage (s : TracedState) (lv p : ℕ) : TracedState :=
  ⟨(buddyAlloc s.toBuddyState 0 maxLevelCount).2, splitSets maxLevelCount p 0 lv
    (Function.update s.free lv ((s.free lv).erase p)), insert (p, 0) s.out⟩

/-- The state after a page has been freed. -/
def TracedState.freePage (s : TracedState) (p : ℕ) : TracedState :=
  ⟨buddyFree s.toBuddyState p 0 maxLevelCount,
    freeTrace s.toBuddyState maxLevelCount maxLevelIndex s.links s.free p 0, s.out.erase (p, 0)⟩

theorem tracedStep_allocPage {s : TracedState} {lv p : ℕ}
    (hp : (buddyAlloc s.toBuddyState 0 maxLevelCount).1 = some p)
    (hbelow : ∀ l < lv, listEmpty s.links (.freeLists l) = true)
    (hlv : listEmpty s.links (.freeLists lv) = false) :
    TracedStep maxLevelCount s (.alloc 0) (s.allocPage lv p) := by
  have halloc : buddyAlloc s.toBuddyState 0 maxLevelCount =
      (some p, (buddyAlloc s.toBuddyState 0 maxLevelCount).2) := Prod.ext hp rfl
  unfold TracedStep
  dsimp only
  rw [halloc]
  exact ⟨lv, Nat.zero_le _, fun l hl _ => hbelow l hl, hlv, rfl⟩

/-- A page is handed out and handed back. -/
theorem linked_alloc_free : ((tracedOneBlock.allocPage 10 0).freePage 0).WellFormed := by
  have halloc : TracedStep maxLevelCount tracedOneBlock (.alloc 0)
      (tracedOneBlock.allocPage 10 0) :=
    tracedStep_allocPage (by decide) (by decide) (by decide)
  have hclean : CleanFree maxLevelCount (tracedOneBlock.allocPage 10 0) 0 0 := by
    refine ⟨by decide +kernel, fun b _ hb _ _ => ?_⟩
    subst hb
    exact ⟨fun _ => by decide +kernel, fun _ => by decide +kernel⟩
  have hfree : TracedStep maxLevelCount (tracedOneBlock.allocPage 10 0) (.free 0 0)
      ((tracedOneBlock.allocPage 10 0).freePage 0) := ⟨by decide +kernel, rfl⟩
  exact @linked_of_reachable maxLevelCount (span (0, maxLevelIndex)) _
    (.next (a := TracedEvent.free 0 0) (.next (a := TracedEvent.alloc 0)
      (.start start_tracedOneBlock) ⟨trivial, halloc⟩) ⟨hclean, hfree⟩)

/-- The pages 0 to 3 are handed out one by one. Then the pages 2, 0 and 1 are handed back, each with
its count set back before. Page 1 has been alone on its list when it was popped, so its neighbours
are the head of the list. The list is empty after the last call, and page 2 is lost. -/
theorem exists_lost_block : ∃ s : TracedState,
    Reachable (TracedState.Start maxLevelCount (span (0, maxLevelIndex)))
      (TracedStep maxLevelCount) s ∧ ¬s.WellFormed := by
  let used (P : Finset ℕ) (i : ℕ) : BitVec 32 := if i ∈ P then 0 else pgFree
  let s₁ := tracedOneBlock.allocPage 10 0
  let s₂ := s₁.allocPage 0 1
  let s₃ := s₂.allocPage 1 2
  let s₄ := s₃.allocPage 0 3
  let s₅ := ({ s₄ with count := used {0, 1, 3} } : TracedState).freePage 2
  let s₆ := ({ s₅ with count := used {1, 3} } : TracedState).freePage 0
  let s₇ := ({ s₆ with count := used {3} } : TracedState).freePage 1
  have h₁ : TracedStep maxLevelCount tracedOneBlock (.alloc 0) s₁ :=
    tracedStep_allocPage (by decide +kernel) (by decide +kernel) (by decide +kernel)
  have h₂ : TracedStep maxLevelCount s₁ (.alloc 0) s₂ :=
    tracedStep_allocPage (by decide +kernel) (by decide +kernel) (by decide +kernel)
  have h₃ : TracedStep maxLevelCount s₂ (.alloc 0) s₃ :=
    tracedStep_allocPage (by decide +kernel) (by decide +kernel) (by decide +kernel)
  have h₄ : TracedStep maxLevelCount s₃ (.alloc 0) s₄ :=
    tracedStep_allocPage (by decide +kernel) (by decide +kernel) (by decide +kernel)
  have hcount : ∀ (s : TracedState) c, TracedStep maxLevelCount s (.setCount c)
      { s with count := c } := fun _ _ => rfl
  have h₅ : TracedStep maxLevelCount { s₄ with count := used {0, 1, 3} } (.free 2 0) s₅ :=
    ⟨by decide +kernel, rfl⟩
  have h₆ : TracedStep maxLevelCount { s₅ with count := used {1, 3} } (.free 0 0) s₆ :=
    ⟨by decide +kernel, rfl⟩
  have h₇ : TracedStep maxLevelCount { s₆ with count := used {3} } (.free 1 0) s₇ :=
    ⟨by decide +kernel, rfl⟩
  refine ⟨s₇, .next (.next (.next (.next (.next (.next (.next (.next (.next (.next
    (.start start_tracedOneBlock) h₁) h₂) h₃) h₄) (hcount s₄ _)) h₅) (hcount s₅ _)) h₆)
    (hcount s₆ _)) h₇, fun hwell => ?_⟩
  have hempty : s₇.free 0 = ∅ := (hwell.1.empty_iff 0).1 (by decide +kernel)
  have hmem : 2 ∈ s₇.free 0 := by decide +kernel
  rw [hempty] at hmem
  exact Finset.notMem_empty 2 hmem

end RiscvLab.Mm
