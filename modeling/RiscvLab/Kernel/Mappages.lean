import RiscvLab.Kernel.Vm
import RiscvLab.Library.Except

/-!
# What `mappages` enters

`walk` links tables that are new and empty, so it changes no translation, and the tables stay a tree
(`Grown`). The entry that `mappages` then stores into is in a table at the lowest level. This
changes the translation of one page. By induction over the rounds, `mappages` changes the
translations of the pages of its range and of no others (`mappages_exact`).

If `walk` returns the null pointer, `mappages` returns without unlocking `mem_map.lock`. If it needs
a page and there is none, it does not return (`mappages_fails`).

## Main definitions

* `IsPageTable` : the tables are a tree.
* `Fresh` : the pages that `__alloc_page` is going to return are not in use.
* `Grown` : tables have been linked.
* `WalkFails` : `walk` finds no entry for a page of the range.

## Main results

* `mappages_exact`, `mappages_not_atomic`.

Source: `kernel/vm.c`, lines 38–124.
-/

namespace RiscvLab.Kernel

open Library Mm

/-! ### Translation -/

/-- The state with the list of the pages that `__alloc_page` is going to return. -/
abbrev ListVm := VmState (List (BitVec 64))

/-- The table that a path of indices leads to. -/
def tables (s : ListVm) (pagetable : BitVec 64) (p : List (BitVec 9)) : Option (BitVec 52) :=
  tableAt child (entries s.mem) (pageNumber pagetable) p

/-- The table is page-aligned, and different indices lead to different tables. -/
structure IsPageTable (s : ListVm) (pagetable : BitVec 64) : Prop where
  aligned : pagetable % 4096 = 0
  tree : TreeShaped child (entries s.mem) (pageNumber pagetable) 2

/-- The pages that `__alloc_page` is going to return are page-aligned, different, and no tables. -/
structure Fresh (s : ListVm) (pagetable : BitVec 64) : Prop where
  aligned : ∀ page ∈ s.pages, page % 4096 = 0
  nodup : s.pages.Nodup
  notMem : ∀ page ∈ s.pages, ∀ p, p.length ≤ 2 → tables s pagetable p ≠ some (pageNumber page)

/-- The indices of an address from a level down to level 1. -/
def indices (va : BitVec 64) : ℕ → List (BitVec 9)
  | 0 => []
  | level + 1 => index (level + 1) va :: indices va level

/-- An entry, if it is valid. -/
def validEntry (pte : BitVec 64) : Option (BitVec 64) := if pteValid pte then some pte else none

theorem walkLoop_false (va : BitVec 64) (level : ℕ) (s : ListVm) (t : BitVec 52) :
    walkLoop va false level s (pageAddr t) =
      .ok ((tableAt child (entries s.mem) t (indices va level)).map pageAddr, s) := by
  induction level generalizing t with
  | zero => rfl
  | succ level ih =>
    rw [walkLoop, px_eq]
    change (if pteValid (entries s.mem t (index (level + 1) va)) then
      walkLoop va false level s (pte2pa (entries s.mem t (index (level + 1) va))) else _) = _
    by_cases hv : pteValid (entries s.mem t (index (level + 1) va)) = true
    · rw [if_pos hv, ← pageAddr_pageNumber_pte2pa, ih, indices, tableAt, child, if_pos hv]
      rfl
    · rw [if_neg hv, indices, tableAt, child, if_neg hv]
      rfl

/-- The translation of an address in terms of the tables. -/
theorem translate_eq {s : ListVm} {pagetable : BitVec 64} (h : pagetable % 4096 = 0)
    (va : BitVec 64) : translate s pagetable va = if va ≥ maxVa then none else
      (tables s pagetable (indices va 2)).bind fun t =>
        validEntry (entries s.mem t (index 0 va)) := by
  rw [translate, walk]
  split_ifs with hva
  · rfl
  · rw [← pageAddr_pageNumber h, walkLoop_false, tables, pageNumber_pageAddr]
    cases tableAt child (entries s.mem) (pageNumber pagetable) (indices va 2) with
    | none => rfl
    | some t =>
      dsimp only [Option.map_some]
      rw [px_eq]
      rfl

theorem translate_mem {s t : ListVm} {pagetable : BitVec 64} (h : pagetable % 4096 = 0)
    (hmem : t.mem = s.mem) (va : BitVec 64) :
    translate t pagetable va = translate s pagetable va := by
  rw [translate_eq h, translate_eq h, tables, tables, hmem]

/-! ### Linking tables -/

/-- Tables have been linked. -/
structure Grown (pagetable : BitVec 64) (s s' : ListVm) : Prop where
  isPageTable : IsPageTable s' pagetable
  fresh : Fresh s' pagetable
  translate_eq : ∀ va, translate s' pagetable va = translate s pagetable va

variable {s s' : ListVm} {pagetable va a pa : BitVec 64}

theorem Grown.refl (htree : IsPageTable s pagetable) (hfresh : Fresh s pagetable) :
    Grown pagetable s s :=
  ⟨htree, hfresh, fun _ => rfl⟩

theorem Grown.trans {s'' : ListVm} (h : Grown pagetable s s') (h' : Grown pagetable s' s'') :
    Grown pagetable s s'' :=
  ⟨h'.isPageTable, h'.fresh, fun va => (h'.translate_eq va).trans (h.translate_eq va)⟩

theorem Grown.drop {page : BitVec 64} {pages : List (BitVec 64)} (htree : IsPageTable s pagetable)
    (hfresh : Fresh s pagetable) (hpages : s.pages = page :: pages) :
    Grown pagetable s { s with pages := pages } := by
  have hmem : ∀ q ∈ pages, q ∈ s.pages := fun q hq => hpages ▸ List.mem_cons_of_mem _ hq
  refine ⟨⟨htree.aligned, htree.tree⟩, ⟨fun q hq => hfresh.aligned q (hmem q hq), ?_,
    fun q hq => hfresh.notMem q (hmem q hq)⟩, translate_mem htree.aligned rfl⟩
  exact (hpages ▸ hfresh.nodup).of_cons

/-- The page is cleared and entered at the address `pte`. -/
def linkPage (s : ListVm) (pte page : BitVec 64) (pages : List (BitVec 64)) : ListVm :=
  { s with mem := Function.update (clearPage s.mem page) pte (pa2pte page ||| pteV),
           pages := pages }

theorem grown_link {p : List (BitVec 9)} {t : BitVec 52} {i : BitVec 9} {page : BitVec 64}
    {pages : List (BitVec 64)} (htree : IsPageTable s pagetable) (hfresh : Fresh s pagetable)
    (hp : p.length < 2) (hpt : tables s pagetable p = some t)
    (hinv : pteValid (entries s.mem t i) = false) (hpages : s.pages = page :: pages) :
    Grown pagetable s (linkPage s (pteAddr (pageAddr t) (i.setWidth 64)) page pages) ∧
      tables (linkPage s (pteAddr (pageAddr t) (i.setWidth 64)) page pages) pagetable (p ++ [i]) =
        some (pageNumber page) := by
  generalize hs' : linkPage s (pteAddr (pageAddr t) (i.setWidth 64)) page pages = s'
  have hmem : page ∈ s.pages := hpages ▸ List.mem_cons_self
  have hpage := hfresh.aligned page hmem
  have hnot := hfresh.notMem page hmem
  have hne : t ≠ pageNumber page := by
    rintro rfl
    exact hnot p (by omega) hpt
  have hnone : child (entries s.mem t i) = none := by
    rw [child, hinv]
    rfl
  have hentries : ∀ u j, entries s'.mem u j = if (u, j) = (t, i) then pa2pte page ||| pteV
      else if u = pageNumber page then 0 else entries s.mem u j := by
    intro u j
    have hclear := entries_clearPage s.mem (pageNumber page) u j
    rw [pageAddr_pageNumber hpage] at hclear
    rw [← hs', linkPage, entries_update, hclear]
  have hlink : Link child (entries s.mem) (entries s'.mem) t i (pageNumber page) := by
    refine ⟨?_, fun j => ?_, fun u j hu hj => ?_⟩
    · rw [hentries, if_pos rfl, child, pteValid_or, if_pos rfl, pte2pa_pte hpage (by decide)]
    · have hj : (pageNumber page, j) ≠ (t, i) := fun h => hne (Prod.ext_iff.1 h).1.symm
      rw [hentries, if_neg hj, if_pos rfl]
      decide
    · rw [hentries, if_neg hj, if_neg hu]
  have htables := hlink.tableAt_eq htree.tree hp hpt hnone hnot
  have htree' := hlink.treeShaped htree.tree hp hpt hnone hnot
  have hpages' : s'.pages = pages := by rw [← hs', linkPage]
  refine ⟨⟨⟨htree.aligned, htree'⟩, ⟨hpages' ▸ fun q hq => ?_, hpages' ▸ ?_,
    hpages' ▸ fun q hq r hr => ?_⟩, fun va => ?_⟩, ?_⟩
  · exact hfresh.aligned q (hpages ▸ List.mem_cons_of_mem _ hq)
  · have hnd := hfresh.nodup
    rw [hpages] at hnd
    exact hnd.of_cons
  · have hq' : q ∈ s.pages := hpages ▸ List.mem_cons_of_mem _ hq
    rw [tables, htables r hr]
    split_ifs
    · intro heq
      have hnd := hfresh.nodup
      rw [hpages, List.nodup_cons] at hnd
      have heq' := congrArg pageAddr (Option.some_inj.1 heq)
      rw [pageAddr_pageNumber hpage, pageAddr_pageNumber (hfresh.aligned q hq')] at heq'
      exact hnd.1 (heq' ▸ hq)
    · exact hfresh.notMem q hq' r hr
  · have hlen : (indices va 2).length = 2 := rfl
    rw [Kernel.translate_eq htree.aligned, Kernel.translate_eq htree.aligned, tables,
      htables _ hlen.le]
    by_cases hq : indices va 2 = p ++ [i]
    · -- the new table is empty, and there was none before
      have hbefore : tables s pagetable (indices va 2) = none := by
        have hpt' : tableAt child (entries s.mem) (pageNumber pagetable) p = some t := hpt
        rw [hq, tables, tableAt_concat, hpt', Option.bind_some, hnone]
      have hzero : entries s'.mem (pageNumber page) (index 0 va) = 0 := by
        have hne' : (pageNumber page, index 0 va) ≠ (t, i) := fun h =>
          hne (Prod.ext_iff.1 h).1.symm
        rw [hentries, if_neg hne', if_pos rfl]
      rw [if_pos hq, hbefore, Option.bind_some, hzero]
      rfl
    · rw [if_neg hq]
      change (if va ≥ maxVa then none else (tables s pagetable (indices va 2)).bind _) = _
      cases hq' : tables s pagetable (indices va 2) with
      | none => rfl
      | some u =>
        have hut : t ≠ u := htree.tree.leaf_ne hlen hq' hp hpt
        have hne' : (u, index 0 va) ≠ (t, i) := fun h => hut (Prod.ext_iff.1 h).1.symm
        have hpage' : u ≠ pageNumber page := by
          rintro rfl
          exact hnot _ hlen.le hq'
        rw [Option.bind_some, Option.bind_some, hentries, if_neg hne', if_neg hpage']
  · rw [tables, htables _ (by simpa using hp), if_pos rfl]

/-- The loop of `walk` leads to the table of the address. -/
theorem walkLoop_true {level : ℕ} {p : List (BitVec 9)} {t : BitVec 52}
    (htree : IsPageTable s pagetable) (hfresh : Fresh s pagetable) (hp : p.length + level = 2)
    (hpt : tables s pagetable p = some t) {r : Option (BitVec 64)}
    (hwalk : walkLoop va true level s (pageAddr t) = .ok (r, s')) :
    Grown pagetable s s' ∧ ∀ b, r = some b → ∃ u, b = pageAddr u ∧
      tables s' pagetable (p ++ indices va level) = some u := by
  induction level generalizing s p t with
  | zero =>
    obtain ⟨rfl, rfl⟩ := ok_prod_inj hwalk
    refine ⟨.refl htree hfresh, ?_⟩
    rintro b ⟨⟩
    exact ⟨t, rfl, by simpa [indices] using hpt⟩
  | succ level ih =>
    rw [walkLoop, px_eq] at hwalk
    change (if pteValid (entries s.mem t (index (level + 1) va)) then
      walkLoop va true level s (pte2pa (entries s.mem t (index (level + 1) va))) else _) = _
      at hwalk
    have hlen : (p ++ [index (level + 1) va]).length + level = 2 := by
      rw [List.length_append, List.length_singleton]
      omega
    have happ : p ++ indices va (level + 1) =
        p ++ [index (level + 1) va] ++ indices va level := by
      rw [indices, List.append_assoc, List.singleton_append]
    rw [happ]
    by_cases hv : pteValid (entries s.mem t (index (level + 1) va)) = true
    · rw [if_pos hv, ← pageAddr_pageNumber_pte2pa] at hwalk
      refine ih htree hfresh hlen ?_ hwalk
      have hpt' : tableAt child (entries s.mem) (pageNumber pagetable) p = some t := hpt
      rw [tables, tableAt_concat, hpt', Option.bind_some, child, if_pos hv]
    · rw [if_neg hv, if_neg (by simp)] at hwalk
      cases hpages : s.pages with
      | nil =>
        rw [hpages] at hwalk
        cases hwalk
      | cons page pages =>
        rw [hpages] at hwalk
        dsimp only [PageSource.allocPageAddr, nextPage] at hwalk
        split_ifs at hwalk with hzero
        · obtain ⟨rfl, rfl⟩ := ok_prod_inj hwalk
          exact ⟨.drop htree hfresh hpages, fun b hb => by cases hb⟩
        change walkLoop va true level (linkPage s _ page pages) page = _ at hwalk
        obtain ⟨hgrown, hpage⟩ := grown_link htree hfresh (i := index (level + 1) va)
          (by omega) hpt (Bool.eq_false_iff.2 hv) hpages
        have hpage' := hfresh.aligned page (hpages ▸ List.mem_cons_self)
        generalize linkPage s (pteAddr (pageAddr t) ((index (level + 1) va).setWidth 64)) page
          pages = s₁ at hwalk hgrown hpage
        rw [← pageAddr_pageNumber hpage'] at hwalk
        obtain ⟨hgrown', htable⟩ := ih hgrown.isPageTable hgrown.fresh hlen hpage hwalk
        exact ⟨hgrown.trans hgrown', htable⟩

theorem walk_true (htree : IsPageTable s pagetable) (hfresh : Fresh s pagetable)
    {r : Option (BitVec 64)} (hwalk : walk s pagetable va true = .ok (r, s')) :
    Grown pagetable s s' ∧ ∀ b, r = some b → va < maxVa ∧
      ∃ t, b = pteAddr (pageAddr t) ((index 0 va).setWidth 64) ∧
        tables s' pagetable (indices va 2) = some t := by
  unfold walk at hwalk
  split_ifs at hwalk with hva
  · obtain ⟨rfl, rfl⟩ := ok_prod_inj hwalk
    exact ⟨.refl htree hfresh, fun b hb => by cases hb⟩
  · rcases hloop : walkLoop va true 2 s pagetable with e | ⟨r', s''⟩
    · rw [hloop] at hwalk
      cases hwalk
    have hroot : tables s pagetable [] = some (pageNumber pagetable) := rfl
    rw [hloop] at hwalk
    rw [← pageAddr_pageNumber htree.aligned] at hloop
    obtain ⟨hgrown, htable⟩ := walkLoop_true htree hfresh rfl hroot hloop
    cases r' with
    | none =>
      obtain ⟨rfl, rfl⟩ := ok_prod_inj hwalk
      exact ⟨hgrown, fun b hb => by cases hb⟩
    | some c =>
      obtain ⟨rfl, rfl⟩ := ok_prod_inj hwalk
      obtain ⟨u, rfl, hu⟩ := htable c rfl
      refine ⟨hgrown, ?_⟩
      rintro b ⟨⟩
      exact ⟨BitVec.not_le.1 hva, u, by rw [px_eq], hu⟩

/-! ### Entering a page -/

theorem lt_maxVa_iff : va < maxVa ↔ va.toNat < 2 ^ 38 := Iff.rfl

theorem toNat_index (level : ℕ) (va : BitVec 64) :
    (index level va).toNat = va.toNat / 2 ^ (12 + 9 * level) % 512 := by
  rw [index, BitVec.extractLsb'_toNat, Nat.shiftRight_eq_div_pow]

/-- The indices tell the pages below `MAXVA` apart. -/
theorem indices_eq_iff (hva : va < maxVa) (ha : a < maxVa) :
    indices va 2 = indices a 2 ∧ index 0 va = index 0 a ↔ va >>> 12 = a >>> 12 := by
  rw [lt_maxVa_iff] at hva ha
  simp only [indices, List.cons.injEq, ← BitVec.toNat_inj, toNat_index, BitVec.toNat_ushiftRight,
    Nat.shiftRight_eq_div_pow, Nat.reduceAdd, Nat.reduceMul, Nat.reducePow, and_true] at hva ha ⊢
  constructor
  · rintro ⟨⟨h₂, h₁⟩, h₀⟩
    omega
  · intro h
    omega

/-- The entry that `mappages` stores. -/
def newPte (pa : BitVec 64) (perm : BitVec 32) : BitVec 64 :=
  pa2pte pa ||| perm.signExtend 64 ||| pteV

/-- A word is stored. -/
def storePte (s : ListVm) (pte v : BitVec 64) : ListVm :=
  { s with mem := Function.update s.mem pte v }

theorem translate_storePte {t : BitVec 52} {v : BitVec 64} (htree : IsPageTable s pagetable)
    (hfresh : Fresh s pagetable) (ha : a < maxVa) (ht : tables s pagetable (indices a 2) = some t)
    (hv : pteValid v = true)
    (hs' : s' = storePte s (pteAddr (pageAddr t) ((index 0 a).setWidth 64)) v) :
    IsPageTable s' pagetable ∧ Fresh s' pagetable ∧ ∀ va, translate s' pagetable va =
      if va >>> 12 = a >>> 12 then some v else translate s pagetable va := by
  have hlen : ∀ va, (indices va 2).length = 2 := fun _ => rfl
  have hentries : ∀ u j, entries s'.mem u j =
      if (u, j) = (t, index 0 a) then v else entries s.mem u j := by
    intro u j
    rw [hs', storePte, entries_update]
  have htables : ∀ q, q.length ≤ 2 → tables s' pagetable q = tables s pagetable q := by
    refine tableAt_congr fun q u j hq hqu => ?_
    have hne : (u, j) ≠ (t, index 0 a) := fun h =>
      htree.tree.leaf_ne (hlen a) ht hq hqu (Prod.ext_iff.1 h).1
    rw [hentries, if_neg hne]
  have hpages : s'.pages = s.pages := by rw [hs', storePte]
  refine ⟨⟨htree.aligned, htree.tree.congr htables⟩, ⟨hpages ▸ hfresh.aligned,
    hpages ▸ hfresh.nodup, hpages ▸ fun page hpage q hq => ?_⟩, fun va => ?_⟩
  · rw [htables q hq]
    exact hfresh.notMem page hpage q hq
  · rw [translate_eq htree.aligned, translate_eq htree.aligned, htables _ (hlen va).le]
    by_cases hva : va ≥ maxVa
    · have hne : va >>> 12 ≠ a >>> 12 := by
        intro h
        have h := congrArg BitVec.toNat h
        rw [lt_maxVa_iff] at ha
        have hva : 2 ^ 38 ≤ va.toNat := hva
        rw [BitVec.toNat_ushiftRight, BitVec.toNat_ushiftRight, Nat.shiftRight_eq_div_pow,
          Nat.shiftRight_eq_div_pow] at h
        omega
      rw [if_pos hva, if_pos hva, if_neg hne]
    · rw [if_neg hva, if_neg hva]
      have hiff := indices_eq_iff (BitVec.not_le.1 hva) ha
      cases hq : tables s pagetable (indices va 2) with
      | none =>
        have hne : va >>> 12 ≠ a >>> 12 := by
          intro h
          rw [(hiff.2 h).1, ht] at hq
          cases hq
        rw [if_neg hne]
        rfl
      | some u =>
        rw [Option.bind_some, Option.bind_some, hentries]
        by_cases hsame : va >>> 12 = a >>> 12
        · obtain ⟨h₂, h₀⟩ := hiff.2 hsame
          obtain rfl : u = t := Option.some_inj.1 (hq.symm.trans (h₂ ▸ ht))
          rw [if_pos hsame, if_pos (by rw [h₀]), validEntry, if_pos hv]
        · have hne : (u, index 0 va) ≠ (t, index 0 a) := by
            intro h
            obtain ⟨hu, h₀⟩ := Prod.ext_iff.1 h
            dsimp only at hu
            subst hu
            exact hsame (hiff.1 ⟨htree.tree _ _ _ (hlen va).le (hlen a).le hq ht, h₀⟩)
          rw [if_neg hsame, if_neg hne]

/-- One round changes the translation of one page. -/
theorem mapPage_true {perm : BitVec 32} (htree : IsPageTable s pagetable)
    (hfresh : Fresh s pagetable) (hmap : mapPage s pagetable a pa perm = .ok (true, s')) :
    a < maxVa ∧ IsPageTable s' pagetable ∧ Fresh s' pagetable ∧ ∀ va,
      translate s' pagetable va =
        if va >>> 12 = a >>> 12 then some (newPte pa perm) else translate s pagetable va := by
  unfold mapPage at hmap
  rcases hwalk : walk s pagetable a true with e | ⟨r, s₁⟩
  · rw [hwalk] at hmap
    cases hmap
  rw [hwalk] at hmap
  obtain ⟨hgrown, hentry⟩ := walk_true htree hfresh hwalk
  cases r with
  | none => cases hmap
  | some b =>
    dsimp only at hmap
    split_ifs at hmap with hvalid
    obtain ⟨-, hs'⟩ := ok_prod_inj hmap
    obtain ⟨ha, t, rfl, ht⟩ := hentry b rfl
    obtain ⟨htree', hfresh', htrans⟩ := translate_storePte hgrown.isPageTable hgrown.fresh ha ht
      (v := newPte pa perm) (pteValid_or _) hs'.symm
    refine ⟨ha, htree', hfresh', fun va => ?_⟩
    rw [htrans, hgrown.translate_eq]

/-- The address of a page behind `a`. -/
def nthPage (a : BitVec 64) (k : ℕ) : BitVec 64 := a + BitVec.ofNat 64 (4096 * k)

theorem nthPage_zero (a : BitVec 64) : nthPage a 0 = a := BitVec.add_zero a

theorem nthPage_succ (a : BitVec 64) (k : ℕ) : nthPage (a + 4096) k = nthPage a (k + 1) := by
  rw [nthPage, nthPage, Nat.mul_succ, Nat.add_comm, BitVec.ofNat_add, ← BitVec.add_assoc]
  rfl

theorem ne_nthPage {n : ℕ} (hn : n + 1 < 2 ^ 52) : a ≠ nthPage a (n + 1) := by
  intro h
  have h := congrArg BitVec.toNat h
  rw [nthPage, BitVec.toNat_add, BitVec.toNat_ofNat] at h
  have := a.isLt
  omega

theorem nthPage_aligned (h : a % 4096 = 0) (k : ℕ) : nthPage a k % 4096 = 0 := by
  have h' : a.toNat % 4096 = 0 := congrArg BitVec.toNat h
  apply BitVec.eq_of_toNat_eq
  rw [nthPage, BitVec.toNat_umod, BitVec.toNat_add, BitVec.toNat_ofNat]
  change _ % 4096 = 0
  omega

theorem exists_last {size : BitVec 64} (va : BitVec 64) (hsize : size % 4096 = 0)
    (hzero : size ≠ 0) :
    ∃ n, size.toNat / 4096 = n + 1 ∧ va + size - 4096 = nthPage va n ∧ n < 2 ^ 52 := by
  have hsize' : size.toNat % 4096 = 0 := congrArg BitVec.toNat hsize
  have hpos : size.toNat ≠ 0 := fun h => hzero (BitVec.eq_of_toNat_eq h)
  have hlt := size.isLt
  obtain ⟨n, hn⟩ : ∃ n, size.toNat / 4096 = n + 1 :=
    Nat.exists_eq_succ_of_ne_zero (by omega)
  refine ⟨n, hn, ?_, by omega⟩
  have := va.isLt
  apply BitVec.eq_of_toNat_eq
  rw [nthPage, BitVec.toNat_sub, BitVec.toNat_add, BitVec.toNat_add, BitVec.toNat_ofNat]
  change (2 ^ 64 - 4096 + _) % _ = _
  omega

/-- The later pages of a range are different from the first one. -/
theorem shift_ne_nthPage {k : ℕ} (h : a.toNat + 4096 * (k + 1) < 2 ^ 38) :
    a >>> 12 ≠ nthPage a (k + 1) >>> 12 := by
  intro heq
  have heq := congrArg BitVec.toNat heq
  rw [BitVec.toNat_ushiftRight, BitVec.toNat_ushiftRight, Nat.shiftRight_eq_div_pow,
    Nat.shiftRight_eq_div_pow, nthPage, BitVec.toNat_add, BitVec.toNat_ofNat] at heq
  omega

/-- A round of `mappages` that returns 0 has mapped its page, and is the last one or goes on. -/
theorem mapLoop_ok {perm : BitVec 32} {last : BitVec 64} {n : ℕ}
    (hmap : mapLoop pagetable last perm (n + 1) s a pa = some (.ok (0, s'))) :
    ∃ s₁, mapPage s pagetable a pa perm = .ok (true, s₁) ∧
      (a = last → s' = { s₁ with locked := false }) ∧
      (a ≠ last →
        mapLoop pagetable last perm n s₁ (a + 4096) (pa + 4096) = some (.ok (0, s'))) := by
  unfold mapLoop at hmap
  rcases hpage : mapPage s pagetable a pa perm with e | ⟨_ | _, s₁⟩ <;> rw [hpage] at hmap <;>
    dsimp only at hmap
  · cases hmap
  · cases hmap
  · refine ⟨s₁, rfl, fun hlast => ?_, fun hlast => ?_⟩
    · rw [if_pos hlast] at hmap
      exact (ok_prod_inj (Option.some_inj.1 hmap)).2.symm
    · rwa [if_neg hlast] at hmap

theorem mapLoop_exact {perm : BitVec 32} {last : BitVec 64} {n : ℕ} (hn : n < 2 ^ 52)
    (htree : IsPageTable s pagetable) (hfresh : Fresh s pagetable)
    (hlast : last = nthPage a n)
    (hmap : mapLoop pagetable last perm (n + 1) s a pa = some (.ok (0, s'))) :
    a.toNat + 4096 * n < 2 ^ 38 ∧ IsPageTable s' pagetable ∧
      (∀ k ≤ n, translate s' pagetable (nthPage a k) = some (newPte (nthPage pa k) perm)) ∧
      ∀ va : BitVec 64, (∀ k ≤ n, va >>> 12 ≠ nthPage a k >>> 12) →
        translate s' pagetable va = translate s pagetable va := by
  induction n generalizing s a pa with
  | zero =>
    rw [nthPage_zero] at hlast
    obtain ⟨s₁, hpage, hend, -⟩ := mapLoop_ok hmap
    obtain ⟨ha, htree', -, htrans⟩ := mapPage_true htree hfresh hpage
    obtain rfl := hend hlast.symm
    have hlocked := translate_mem (s := s₁) (t := { s₁ with locked := false }) htree.aligned rfl
    rw [lt_maxVa_iff] at ha
    refine ⟨by omega, ⟨htree'.aligned, htree'.tree⟩, fun k hk => ?_, fun va hva => ?_⟩
    · obtain rfl : k = 0 := by omega
      rw [nthPage_zero, nthPage_zero, hlocked, htrans, if_pos rfl]
    · have hne := hva 0 le_rfl
      rw [nthPage_zero] at hne
      rw [hlocked, htrans, if_neg hne]
  | succ n ih =>
    obtain ⟨s₁, hpage, -, hnext⟩ := mapLoop_ok hmap
    obtain ⟨ha, htree', hfresh', htrans⟩ := mapPage_true htree hfresh hpage
    obtain ⟨hlt, htree'', hin, hout⟩ := ih (by omega) htree' hfresh'
      (hlast.trans (nthPage_succ a n).symm) (hnext (hlast ▸ ne_nthPage hn))
    simp only [nthPage_succ] at hin hout
    rw [lt_maxVa_iff] at ha
    have hlt' : a.toNat + 4096 * (n + 1) < 2 ^ 38 := by
      rw [BitVec.toNat_add] at hlt
      change (_ + 4096) % _ + _ < _ at hlt
      omega
    refine ⟨hlt', htree'', fun k hk => ?_, fun va hva => ?_⟩
    · cases k with
      | zero =>
        -- the later rounds do not come back to this page
        rw [nthPage_zero, nthPage_zero, hout, htrans, if_pos rfl]
        intro k hk
        have hle : 4096 * (k + 1) ≤ 4096 * (n + 1) := Nat.mul_le_mul_left _ (Nat.succ_le_succ hk)
        exact shift_ne_nthPage (lt_of_le_of_lt (Nat.add_le_add_left hle _) hlt')
      | succ k => exact hin k (by omega)
    · have hne' := hva 0 (Nat.zero_le _)
      rw [nthPage_zero] at hne'
      rw [hout va fun k hk => hva (k + 1) (by omega), htrans, if_neg hne']

theorem newPte_eq (pa : BitVec 64) {perm : BitVec 32} (hperm : perm.toNat < 1024) :
    ∃ flags : BitVec 64, flags = perm.setWidth 64 ||| pteV ∧ flags.toNat < 1024 ∧
      newPte pa perm = pa2pte pa ||| flags := by
  have hmsb : perm.msb = false := by
    rw [BitVec.msb_eq_false_iff_two_mul_lt]
    omega
  refine ⟨_, rfl, ?_, ?_⟩
  · rw [BitVec.toNat_or]
    refine Nat.or_lt_two_pow (n := 10) ?_ (by decide)
    rw [BitVec.toNat_setWidth]
    omega
  · rw [newPte, BitVec.signExtend_eq_setWidth_of_msb_false hmsb, BitVec.or_assoc]

/-- After `mappages` has returned 0, the pages of the range are mapped to the requested ones with
the requested flags, all other translations are as before, and the tables are a tree. -/
theorem mappages_exact {size : BitVec 64} {perm : BitVec 32} (htree : IsPageTable s pagetable)
    (hfresh : Fresh s pagetable) (hpa : pa % 4096 = 0) (hperm : perm.toNat < 1024)
    (hmap : mappages s pagetable va pa size perm = some (.ok (0, s'))) :
    (∀ k < size.toNat / 4096, ∃ pte, translate s' pagetable (nthPage va k) = some pte ∧
      pte2pa pte = nthPage pa k ∧ pteFlags pte = perm.setWidth 64 ||| pteV) ∧
    (∀ v : BitVec 64, (∀ k < size.toNat / 4096, v >>> 12 ≠ nthPage va k >>> 12) →
      translate s' pagetable v = translate s pagetable v) ∧
    IsPageTable s' pagetable := by
  unfold mappages at hmap
  split_ifs at hmap with hva hsize hzero
  · cases hmap
  · cases hmap
  · cases hmap
  obtain ⟨n, hn, hlast, hlt⟩ := exists_last va (not_not.1 hsize) hzero
  have hdiv : (size / 4096).toNat = size.toNat / 4096 := BitVec.toNat_udiv
  rw [hdiv, hn] at hmap
  have htree₁ : IsPageTable { s with locked := true } pagetable := ⟨htree.aligned, htree.tree⟩
  have hfresh₁ : Fresh { s with locked := true } pagetable :=
    ⟨hfresh.aligned, hfresh.nodup, hfresh.notMem⟩
  obtain ⟨-, htree', hin, hout⟩ := mapLoop_exact hlt htree₁ hfresh₁ hlast hmap
  rw [hn]
  refine ⟨fun k hk => ⟨_, hin k (Nat.le_of_lt_succ hk), ?_⟩, fun v hv => ?_, htree'⟩
  · obtain ⟨flags, rfl, hflags, hpte⟩ := newPte_eq (nthPage pa k) hperm
    rw [hpte]
    exact ⟨pte2pa_pte (nthPage_aligned hpa k) hflags, pteFlags_pte hflags⟩
  · rw [hout v fun k hk => hv k (Nat.lt_succ_of_le hk)]
    exact translate_mem (s := s) (t := { s with locked := true }) htree.aligned rfl v

/-- An empty table with two pages to come. -/
def emptyTable : ListVm := ⟨fun _ => 0, [0x80001000, 0x80002000], false⟩

theorem tables_emptyTable {p : List (BitVec 9)} {t : BitVec 52}
    (h : tables emptyTable 0x80000000 p = some t) : p = [] ∧ t = 0x80000 := by
  cases p with
  | nil => exact ⟨rfl, (Option.some_inj.1 h).symm⟩
  | cons i p =>
    have hnone : child (entries emptyTable.mem (pageNumber 0x80000000) i) = none := by
      change child 0 = none
      decide
    rw [tables, tableAt, hnone] at h
    cases h

theorem isPageTable_emptyTable : IsPageTable emptyTable 0x80000000 := by
  refine ⟨by decide, fun p q t _ _ hp hq => ?_⟩
  rw [(tables_emptyTable hp).1, (tables_emptyTable hq).1]

theorem fresh_emptyTable : Fresh emptyTable 0x80000000 := by
  have hmem : ∀ page ∈ emptyTable.pages, page = 0x80001000 ∨ page = 0x80002000 := by
    simp [emptyTable]
  refine ⟨fun page hpage => ?_, by simp [emptyTable], fun page hpage p _ h => ?_⟩
  · rcases hmem page hpage with rfl | rfl <;> rfl
  · have heq := congrArg BitVec.toNat (tables_emptyTable h).2
    rw [toNat_pageNumber] at heq
    rcases hmem page hpage with rfl | rfl <;> cases heq

/-- Two pages are mapped. -/
theorem mappages_two_pages : ∃ s',
    mappages emptyTable 0x80000000 0x1000 0x5000 0x2000 2 = some (.ok (0, s')) ∧
      (∀ k < 2, ∃ pte, translate s' 0x80000000 (nthPage 0x1000 k) = some pte ∧
        pte2pa pte = nthPage 0x5000 k ∧ pteFlags pte = 3) ∧
      (∀ v : BitVec 64, (∀ k < 2, v >>> 12 ≠ nthPage 0x1000 k >>> 12) →
        translate s' 0x80000000 v = translate emptyTable 0x80000000 v) ∧
      IsPageTable s' 0x80000000 := by
  have hret : ∃ s', mappages emptyTable 0x80000000 0x1000 0x5000 0x2000 2 = some (.ok (0, s')) :=
    ⟨_, rfl⟩
  obtain ⟨s', hs'⟩ := hret
  exact ⟨s', hs', mappages_exact isPageTable_emptyTable fresh_emptyTable (by decide) (by decide)
    hs'⟩

/-! ### Failure -/

section Failure

variable {σ : Type} [PageSource σ] {s s' : VmState σ} {perm : BitVec 32} {size : BitVec 64}

theorem walkLoop_locked {alloc : Bool} {level : ℕ} {r : Option (BitVec 64)}
    (h : walkLoop va alloc level s pagetable = .ok (r, s')) : s'.locked = s.locked := by
  induction level generalizing s pagetable with
  | zero =>
    obtain ⟨-, rfl⟩ := ok_prod_inj h
    rfl
  | succ level ih =>
    rw [walkLoop] at h
    split_ifs at h
    · exact ih h
    · obtain ⟨-, rfl⟩ := ok_prod_inj h
      rfl
    · rcases hpage : PageSource.allocPageAddr s.pages with e | ⟨page, pages⟩
      · rw [hpage] at h
        cases h
      · rw [hpage] at h
        dsimp only at h
        split_ifs at h
        · obtain ⟨-, rfl⟩ := ok_prod_inj h
          rfl
        · exact (ih h :)

theorem walk_locked {alloc : Bool} {r : Option (BitVec 64)}
    (h : walk s pagetable va alloc = .ok (r, s')) : s'.locked = s.locked := by
  unfold walk at h
  split_ifs at h
  · obtain ⟨-, rfl⟩ := ok_prod_inj h
    rfl
  · rcases hloop : walkLoop va alloc 2 s pagetable with e | ⟨_ | t, s₁⟩ <;> rw [hloop] at h
    · cases h
    all_goals
      obtain ⟨-, rfl⟩ := ok_prod_inj h
      exact walkLoop_locked hloop

theorem mapPage_locked {b : Bool} (hmap : mapPage s pagetable a pa perm = .ok (b, s')) :
    s'.locked = s.locked := by
  unfold mapPage at hmap
  rcases hwalk : walk s pagetable a true with e | ⟨_ | pte, s₁⟩ <;> rw [hwalk] at hmap
  · cases hmap
  · obtain ⟨-, rfl⟩ := ok_prod_inj hmap
    exact walk_locked hwalk
  · dsimp only at hmap
    split_ifs at hmap
    obtain ⟨-, rfl⟩ := ok_prod_inj hmap
    exact (walk_locked hwalk : s₁.locked = _)

/-- The state after the first pages of a range have been entered. -/
def mapFirst (pagetable : BitVec 64) (perm : BitVec 32) :
    ℕ → VmState σ → BitVec 64 → BitVec 64 → Option (VmState σ)
  | 0, s, _, _ => some s
  | k + 1, s, a, pa =>
    match mapPage s pagetable a pa perm with
    | .ok (true, s') => mapFirst pagetable perm k s' (a + 4096) (pa + 4096)
    | _ => none

/-- `walk` finds no entry for a page of the range, after the pages before have been entered: the
address is out of range, or there is no page for a table. -/
def WalkFails (s : VmState σ) (pagetable va pa size : BitVec 64) (perm : BitVec 32) : Prop :=
  ∃ k < size.toNat / 4096, ∃ s₁,
    mapFirst pagetable perm k { s with locked := true } va pa = some s₁ ∧
      ¬∃ pte s₂, walk s₁ pagetable (nthPage va k) true = .ok (some pte, s₂)

theorem mapLoop_fails {last : BitVec 64} {n k : ℕ} {s₁ : VmState σ} (hn : n < 2 ^ 52)
    (hlast : last = nthPage a n) (hk : k ≤ n)
    (hfirst : mapFirst pagetable perm k s a pa = some s₁)
    (hwalk : ¬∃ pte s₂, walk s₁ pagetable (nthPage a k) true = .ok (some pte, s₂)) :
    (∃ s', mapLoop pagetable last perm (n + 1) s a pa = some (.ok (-1, s')) ∧
      s'.locked = s.locked) ∨
        ∃ e, mapLoop pagetable last perm (n + 1) s a pa = some (.error e) := by
  induction k generalizing n s a pa with
  | zero =>
    obtain rfl : s = s₁ := Option.some_inj.1 hfirst
    rw [nthPage_zero] at hwalk
    rw [mapLoop, mapPage]
    rcases hw : walk s pagetable a true with e | ⟨_ | pte, s'⟩
    · exact .inr ⟨e, rfl⟩
    · exact .inl ⟨s', rfl, walk_locked hw⟩
    · exact absurd ⟨pte, s', hw⟩ hwalk
  | succ k ih =>
    obtain ⟨n, rfl⟩ : ∃ m, n = m + 1 := Nat.exists_eq_succ_of_ne_zero (by omega)
    unfold mapFirst at hfirst
    rcases hpage : mapPage s pagetable a pa perm with e | ⟨_ | _, s₂⟩ <;> rw [hpage] at hfirst
    · cases hfirst
    · cases hfirst
    · rw [← nthPage_succ] at hwalk hlast
      have hne : a ≠ last := by
        rw [hlast, nthPage_succ]
        exact ne_nthPage hn
      rw [mapLoop, hpage]
      dsimp only
      rw [if_neg hne, ← mapPage_locked hpage]
      exact ih (Nat.lt_of_succ_lt hn) hlast (Nat.le_of_succ_le_succ hk) hfirst hwalk

/-- If `walk` fails on a page, `mappages` returns `ERR` and keeps the lock, or it does not return
because the allocator has no page. -/
theorem mappages_fails (hva : va % 4096 = 0) (hsize : size % 4096 = 0)
    (hfails : WalkFails s pagetable va pa size perm) :
    (∃ s', mappages s pagetable va pa size perm = some (.ok (-1, s')) ∧ s'.locked = true) ∨
      ∃ e, mappages s pagetable va pa size perm = some (.error e) := by
  obtain ⟨k, hk, s₁, hfirst, hwalk⟩ := hfails
  have hzero : size ≠ 0 := by
    rintro rfl
    exact Nat.not_lt_zero k hk
  obtain ⟨n, hn, hlast, hlt⟩ := exists_last va hsize hzero
  rw [hn] at hk
  have hdiv : (size / 4096).toNat = size.toNat / 4096 := BitVec.toNat_udiv
  rw [mappages, if_neg (not_not.2 hva), if_neg (not_not.2 hsize), if_neg hzero, hdiv, hn]
  exact mapLoop_fails hlt hlast (Nat.le_of_lt_succ hk) hfirst hwalk

/-- Whenever `walk` fails on a page of the range, `mappages` does not fail cleanly: it keeps the
lock, or it does not return at all. This holds for every page allocator. -/
theorem mappages_not_atomic (hva : va % 4096 = 0) (hsize : size % 4096 = 0)
    (hfails : WalkFails s pagetable va pa size perm) :
    ¬∃ s', mappages s pagetable va pa size perm = some (.ok (-1, s')) ∧
      (∀ v, translate s' pagetable v = translate s pagetable v) ∧ s'.locked = false := by
  rintro ⟨s', hret, -, hfree⟩
  rcases mappages_fails hva hsize hfails with ⟨s'', hret', hheld⟩ | ⟨e, htrap⟩
  · obtain ⟨-, rfl⟩ := ok_prod_inj (Option.some_inj.1 (hret.symm.trans hret'))
    rw [hfree] at hheld
    cases hheld
  · rw [htrap] at hret
    cases hret

end Failure

/-- The last page below `MAXVA` and the one behind it. -/
theorem walkFails_maxVa : WalkFails emptyTable 0x80000000 0x3FFFFFF000 0x5000 0x2000 2 := by
  refine ⟨1, by decide, _, rfl, ?_⟩
  rintro ⟨pte, s₂, h⟩
  cases h

/-- A range that crosses `MAXVA`. -/
theorem mappages_not_atomic_maxVa :
    ¬∃ s', mappages emptyTable 0x80000000 0x3FFFFFF000 0x5000 0x2000 2 = some (.ok (-1, s')) ∧
      (∀ v, translate s' 0x80000000 v = translate emptyTable 0x80000000 v) ∧
      s'.locked = false :=
  mappages_not_atomic (by decide) (by decide) walkFails_maxVa

/-- The range crosses `MAXVA`, and there are pages for the tables of its first page. The first page
is mapped, the second one is not, `ERR` is returned, and the lock is held. -/
theorem exists_partial_mapping : ∃ s',
    WalkFails emptyTable 0x80000000 0x3FFFFFF000 0x5000 0x2000 2 ∧
      mappages emptyTable 0x80000000 0x3FFFFFF000 0x5000 0x2000 2 = some (.ok (-1, s')) ∧
      translate s' 0x80000000 0x3FFFFFF000 ≠ translate emptyTable 0x80000000 0x3FFFFFF000 ∧
      s'.locked = true := by
  refine ⟨_, walkFails_maxVa, rfl, ?_, rfl⟩
  decide +kernel

end RiscvLab.Kernel
