import RiscvLab.Mm.BuddySafety

/-!
# When a counted block goes back to the free lists

A block from `alloc_pages` carries one reference; `page_push` and `set_cow_page` add one each, and
`free_pages` drops one. The count of the first page is the number of references minus one, modulo
`2^32`. `free_pages` hands the block to `buddy_free` when `atomic_dec_and_test` answers that the new
value is zero, that is, when two references were left before the call (`Counted.givesBack_iff`), and
not when the last one is dropped. `release_lawful_iff` says for which histories of references and
frees the block nevertheless goes back exactly with its last reference: those in which no
`free_pages` call finds one or two references.

Source: `include/lib/atomic.h`, lines 47–60; `mm/mm.c`, lines 150–204; `mm/page.c`, lines 28–76;
`kernel/vm.c`, lines 218–224; `include/riscv.h`, lines 384–396.
-/

namespace RiscvLab.Mm

open Library

/-! ### References through page table entries -/

/-- `PTE2PA`. -/
def pte2pa (pte : BitVec 64) : BitVec 64 := (pte >>> 10) <<< 12

/-- `page_to_index`, the index that `get_page_struct` looks up; `KERNBASE` is `0x80000000`. -/
def pageToIndex (pa : BitVec 64) : ℕ := ((pa - 0x80000000) >>> 12).toNat

/-- `set_cow_page`: clear `PTE_W`, set `PTE_COW`, and count a reference of the page. -/
def setCowPage (s : BuddyState) (pte : BitVec 64) : BitVec 64 × BuddyState :=
  let pte := pte &&& ~~~4#64
  let pte := pte ||| 256#64
  (pte, pagePush s (pageToIndex (pte2pa pte)))

/-- The flag bits of an entry do not take part in its address. -/
theorem pte2pa_setCowPage (s : BuddyState) (pte : BitVec 64) :
    pte2pa (setCowPage s pte).1 = pte2pa pte := by
  apply BitVec.eq_of_getLsbD_eq
  intro i _
  simp only [setCowPage, pte2pa, BitVec.getLsbD_shiftLeft, BitVec.getLsbD_ushiftRight,
    BitVec.getLsbD_or, BitVec.getLsbD_and, BitVec.getLsbD_not, BitVec.getLsbD_ofNat]
  by_cases h : i < 12
  · simp [h]
  · have h4 : Nat.testBit 4 (10 + (i - 12)) = false := by
      rw [show (4 : ℕ) = 2 ^ 2 from rfl, Nat.testBit_two_pow, decide_eq_false_iff_not]
      omega
    have h256 : Nat.testBit 256 (10 + (i - 12)) = false := by
      rw [show (256 : ℕ) = 2 ^ 8 from rfl, Nat.testBit_two_pow, decide_eq_false_iff_not]
      omega
    by_cases hlt : 10 + (i - 12) < 64
    · simp [h4, h256, hlt]
    · simp [BitVec.getLsbD_of_ge pte _ (Nat.le_of_not_lt hlt), hlt]

theorem setCowPage_eq (s : BuddyState) (pte : BitVec 64) :
    (setCowPage s pte).2 = pagePush s (pageToIndex (pte2pa pte)) := by
  rw [← pte2pa_setCowPage s pte]
  rfl

/-! ### Counts -/

theorem buddyAllocLoop_count (order : ℕ) (s : BuddyState) (n i : ℕ) :
    (buddyAllocLoop order s n i).2.count = s.count := by
  induction n generalizing i with
  | zero => rfl
  | succ n ih =>
    unfold buddyAllocLoop
    split_ifs
    · exact ih _
    · split <;> rfl

theorem buddyAlloc_count (s : BuddyState) (order : ℤ) : (buddyAlloc s order).2.count = s.count := by
  unfold buddyAlloc
  split_ifs
  · rfl
  · exact buddyAllocLoop_count ..

@[simp]
theorem buddyFree_count (s : BuddyState) (p order : ℕ) : (buddyFree s p order).count = s.count :=
  rfl

theorem pagePush_count_self (s : BuddyState) (p : ℕ) :
    (pagePush s p).count p = s.count p + 1 :=
  Function.update_self ..

/-- Whether `free_pages` of this page calls `buddy_free`. -/
def givesBack (s : BuddyState) (p : ℕ) : Bool := (pagePopTest s p).1

theorem freePages_count (s : BuddyState) (p order : ℕ) :
    (freePages s p order).count = Function.update s.count p (s.count p + (-1)) := by
  unfold freePages
  split
  · rename_i s' h
    rw [buddyFree_count, show s' = (pagePopTest s p).2 by rw [h]]
    rfl
  · rename_i s' h
    rw [show s' = (pagePopTest s p).2 by rw [h]]
    rfl

/-! ### Histories of a block -/

/-- The uses of one block: two ways to refer to it, and one to drop a reference. -/
inductive BlockOp
  | pagePush
  | setCowPage (pte : BitVec 64)
  | freePages
  deriving DecidableEq

namespace BlockOp

/-- The effect of a use of the block of the given order at `p`. -/
def run (p order : ℕ) (s : BuddyState) : BlockOp → BuddyState
  | pagePush => Mm.pagePush s p
  | setCowPage pte => (Mm.setCowPage s pte).2
  | freePages => Mm.freePages s p order

/-- The number of references after a use that finds `r`. -/
def refs (r : ℕ) : BlockOp → ℕ
  | pagePush => r + 1
  | setCowPage _ => r + 1
  | freePages => r - 1

/-- The use is one of a block at `p` that somebody refers to. -/
def Admissible (p r : ℕ) (op : BlockOp) : Prop :=
  0 < r ∧ ∀ pte, op = setCowPage pte → pageToIndex (pte2pa pte) = p

/-- The block at `p` goes back exactly with its last reference, and is then marked free. -/
def Lawful (p order r : ℕ) (s : BuddyState) (op : BlockOp) : Prop :=
  op = freePages → (givesBack s p = true ↔ r = 1) ∧
    (r = 1 → (Mm.freePages s p order).count p = pgFree)

end BlockOp

/-- A property of every use in a history, each taken with the references and the state that it
finds. -/
def Along (p order : ℕ) (P : ℕ → BuddyState → BlockOp → Prop) :
    ℕ → BuddyState → List BlockOp → Prop
  | _, _, [] => True
  | r, s, op :: ops => P r s op ∧ Along p order P (op.refs r) (op.run p order s) ops

/-- The count of the first page while `r` references are held. -/
def Counted (p r : ℕ) (s : BuddyState) : Prop := s.count p = BitVec.ofNat 32 r - 1

theorem Counted.givesBack_iff {p r : ℕ} {s : BuddyState} (hc : Counted p r s) :
    givesBack s p = true ↔ r % 2 ^ 32 = 2 := by
  rw [givesBack, pagePopTest, hc, beq_iff_eq, BitVec.sub_eq_iff_eq_add, BitVec.sub_eq_iff_eq_add,
    ← BitVec.toNat_inj, BitVec.toNat_ofNat]
  rfl

theorem Counted.freePages {p r : ℕ} {s : BuddyState} (hc : Counted p r s) (hr : 0 < r)
    (order : ℕ) : Counted p (r - 1) (freePages s p order) := by
  obtain ⟨r, rfl⟩ := Nat.exists_eq_succ_of_ne_zero hr.ne'
  rw [Counted, freePages_count, Function.update_self, hc]
  simp only [Nat.succ_eq_add_one, BitVec.ofNat_add, Nat.add_sub_cancel]
  bv_omega

theorem Counted.pagePush {p r : ℕ} {s : BuddyState} (hc : Counted p r s) :
    Counted p (r + 1) (pagePush s p) := by
  rw [Counted, pagePush_count_self, hc, BitVec.ofNat_add]
  bv_omega

theorem Counted.run {p order r : ℕ} {s : BuddyState} {op : BlockOp} (hc : Counted p r s)
    (hop : op.Admissible p r) : Counted p (op.refs r) (op.run p order s) := by
  cases op with
  | pagePush => exact hc.pagePush
  | setCowPage pte =>
    rw [BlockOp.run, setCowPage_eq, hop.2 pte rfl]
    exact hc.pagePush
  | freePages => exact hc.freePages hop.1 order

theorem Counted.lawful_iff {p order r : ℕ} {s : BuddyState} {op : BlockOp} (hc : Counted p r s)
    (hr : 0 < r) :
    op.Lawful p order r s ↔ (op = .freePages → r ≠ 1 ∧ r % 2 ^ 32 ≠ 2) := by
  refine imp_congr_right fun _ => ?_
  have hpg : r = 1 → (Mm.freePages s p order).count p = pgFree := by
    rintro rfl
    exact hc.freePages hr order
  rw [hc.givesBack_iff]
  constructor
  · rintro ⟨hiff, -⟩
    have h1 : r ≠ 1 := by
      rintro rfl
      exact absurd (hiff.mpr rfl) (by decide)
    exact ⟨h1, fun h2 => h1 (hiff.mp h2)⟩
  · rintro ⟨h1, h2⟩
    exact ⟨iff_of_false h2 h1, hpg⟩

/-- A block from `alloc_pages` starts with one reference. -/
theorem counted_allocPages {s₀ s : BuddyState} {order : ℤ} {p : ℕ}
    (ha : allocPages s₀ order = .ok (p, s)) (hfree : s₀.count p = pgFree) : Counted p 1 s := by
  obtain ⟨n, -, rfl, s₁, hs₁, rfl⟩ := allocPages_ok ha
  have hcount : s₁.count = s₀.count := by
    rw [show s₁ = (buddyAlloc s₀ n).2 by rw [hs₁], buddyAlloc_count]
  rw [Counted, pagePush_count_self, hcount, hfree]
  decide

private theorem along_lawful_iff {p order : ℕ} (ops : List BlockOp) {r : ℕ} {s : BuddyState}
    (hc : Counted p r s) (hops : Along p order (fun r _ op => op.Admissible p r) r s ops) :
    Along p order (BlockOp.Lawful p order) r s ops ↔
      Along p order (fun r _ op => op = .freePages → r ≠ 1 ∧ r % 2 ^ 32 ≠ 2) r s ops := by
  induction ops generalizing r s with
  | nil => exact Iff.rfl
  | cons op ops ih =>
    obtain ⟨hop, hops⟩ := hops
    exact and_congr (hc.lawful_iff hop.1) (ih (hc.run hop) hops)

/-- For a block from `alloc_pages` and any history of references and frees of it: the block goes
back to the free lists exactly by the calls that drop its last reference, each leaving the count
`PG_FREE`, if and only if no `free_pages` call of the history finds a single reference, or two of
them modulo `2^32`. In particular a history that drops the last reference breaks the law. -/
theorem release_lawful_iff {s₀ s : BuddyState} {order p : ℕ}
    (ha : allocPages s₀ order = .ok (p, s)) (hfree : s₀.count p = pgFree) (ops : List BlockOp)
    (hops : Along p order (fun r _ op => op.Admissible p r) 1 s ops) :
    Along p order (BlockOp.Lawful p order) 1 s ops ↔
      Along p order (fun r _ op => op = .freePages → r ≠ 1 ∧ r % 2 ^ 32 ≠ 2) 1 s ops :=
  along_lawful_iff ops (counted_allocPages ha hfree) hops

/-- The first page that is handed out above a kernel that ends in page 1023. -/
theorem allocPages_memInit_1023 :
    ∃ s, allocPages (memInit 1023) ((0 : ℕ) : ℤ) = .ok (30720, s) ∧
      (memInit 1023).count 30720 = pgFree := by
  have hL := memInit_freeLists (show 1023 < allPfn by decide)
  have hblocks : initBlocks 1023 = 29 + 1 := by decide
  rw [hblocks, initList_succ] at hL
  obtain ⟨h, ha, -⟩ := allocPages_zero hL (by decide) fun q hq => by
    obtain ⟨m, -, rfl⟩ := mem_initList.mp hq
    rw [Nat.add_mul_mod_self_left, Nat.add_mul_mod_self_left]
  exact ⟨_, ha, memInit_count (by decide) _⟩

/-- Two more references and one free keep the law. -/
theorem release_lawful_three : ∃ s, allocPages (memInit 1023) ((0 : ℕ) : ℤ) = .ok (30720, s) ∧
    Along 30720 0 (BlockOp.Lawful 30720 0) 1 s [.pagePush, .pagePush, .freePages] := by
  obtain ⟨s, ha, hfree⟩ := allocPages_memInit_1023
  refine ⟨s, ha, (release_lawful_iff ha hfree _ ?_).mpr ?_⟩
  · simp [Along, BlockOp.Admissible, BlockOp.refs]
  · simp [Along, BlockOp.refs]

/-- A block that is allocated and freed once does not go back to the free lists. -/
theorem not_release_lawful_single :
    ∃ s, allocPages (memInit 1023) ((0 : ℕ) : ℤ) = .ok (30720, s) ∧
      (memInit 1023).count 30720 = pgFree ∧
      Along 30720 0 (fun r _ op => op.Admissible 30720 r) 1 s [.freePages] ∧
      givesBack s 30720 = false ∧
      ¬ Along 30720 0 (BlockOp.Lawful 30720 0) 1 s [.freePages] := by
  obtain ⟨s, ha, hfree⟩ := allocPages_memInit_1023
  have hc := counted_allocPages ha hfree
  have hno : givesBack s 30720 = false := by
    rw [← Bool.not_eq_true, hc.givesBack_iff]
    decide
  refine ⟨s, ha, hfree, by simp [Along, BlockOp.Admissible], hno, fun hl => ?_⟩
  exact absurd ((hl.1 rfl).1.mpr rfl) (by simp [hno])

end RiscvLab.Mm
