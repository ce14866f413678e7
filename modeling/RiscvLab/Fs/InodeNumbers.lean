import Mathlib.Data.Finset.Card
import Mathlib.Order.Interval.Finset.Nat
import RiscvLab.Fs.Mounted
import RiscvLab.Library.Reachable
import RiscvLab.Library.Int32

/-!
# Inode numbers

`mkfs` counts the inodes from 1 on: with `inode_count` places in the inode area, the superblock says
`inode_count - 1`, and that is the size of the inode bitmap in the kernel. The last inode number is
equal to this size. `bitmap_alloc` hands it out, since it compares by `res > size`, unless the size
is a multiple of 64 and the words of the bitmap end there; but `efs_imap_free` panics on it. So the
last of the free inodes is lost in one way or the other.

## Main definitions

* `ImapRun`, `ImapStep` : runs of `efs_imap_alloc` and `efs_imap_free` on a mounted disk.
* `ImapConsistent` : what is expected of the states of a run.
* `LeavesLast` : the allocations that leave the last number alone.

## Main results

* `imapConsistent_iff_of_reachable` : while the last number is left alone, the states of a run are
  consistent, and the next step leads to a consistent state exactly if it leaves it alone too.
* `exists_imapFree_panic` : a number is allocated that cannot be freed.

Source: `tools/mkfs.c`, lines 72–89; `fs/easyfs/super.c`, lines 16–25 and 183–201; `lib/bitmap.c`,
lines 22–111.
-/

namespace RiscvLab.Fs

open Library

/-- The superblock, and the inode numbers that are allocated and not freed. -/
structure ImapRun where
  sb : Super
  out : List ℤ

inductive ImapEvent
  | alloc
  | free (no : ℤ)

/-- A call that does not panic. -/
def ImapStep (r : ImapRun) : ImapEvent → ImapRun → Prop
  | .alloc, r' => ∃ no sb, efsImapAlloc r.sb = .ok (no, sb) ∧ r' = ⟨sb, no :: r.out⟩
  | .free no, r' => no ∈ r.out ∧ ∃ sb, efsImapFree r.sb no = .ok sb ∧ r' = ⟨sb, r.out.erase no⟩

/-- A freshly formatted disk has been mounted, with bitmaps that fit into their pages. -/
def ImapRun.Mounted (disk : Disk) (diskSize : ℕ) (ipages bpages : ℕ → BitVec 64) (r : ImapRun) :
    Prop :=
  (∃ disk', mkfs disk diskSize = some disk' ∧ MapsFit disk' ∧
    efsSbInit disk' ipages bpages = .ok r.sb) ∧ r.out = []

/-- Some number of calls of `efs_imap_alloc` hands out the number. -/
def Allocatable (sb : Super) (no : ℤ) : Prop :=
  ∃ n nos sb', allocMany efsImapAlloc n sb = .ok (nos, sb') ∧ no ∈ nos

/-- What is expected of the inode numbers: `efs_imap_alloc` succeeds as often as `inode_free` says;
the numbers handed out are different, are neither 0 nor 1, and have their place in the inode area;
each can be freed, which restores `inode_free` and makes it allocatable again. -/
structure ImapConsistent (diskSize : ℕ) (r : ImapRun) : Prop where
  count : r.sb.ds.inodeFree.toInt + r.out.length = (inodeCount diskSize : ℤ) - 2
  allocs : (∃ no sb, efsImapAlloc r.sb = .ok (no, sb)) ↔ 0 < r.sb.ds.inodeFree.toInt
  nodup : r.out.Nodup
  range : ∀ no ∈ r.out, 2 ≤ no ∧ (no + 1) * inodeSize ≤ inodeAreaBlocks diskSize * blockSize
  frees : ∀ no ∈ r.out, ∃ sb, efsImapFree r.sb no = .ok sb ∧
    sb.ds.inodeFree = r.sb.ds.inodeFree + 1 ∧ Allocatable sb no

/-- An allocation leaves the last inode alone, and does not leave `inode_free` at 1 if the bitmap
ends with the word. -/
def LeavesLast (r : ImapRun) : ImapEvent → Prop
  | .alloc => 3 ≤ r.sb.ds.inodeFree.toInt ∨
      r.sb.ds.inodeFree.toInt = 2 ∧ r.sb.ds.inodeCount.toInt % 64 ≠ 0
  | .free _ => True

/-! ### The bitmap -/

/-- The clear bits from 2 on, below the size. -/
def clearInodes (b : Bitmap) (N : ℕ) : Finset ℕ :=
  (Finset.Ico 2 N).filter fun k => b.test k = false

/-- The state of the inode bitmap, of the size `N`: the hint is not above a clear bit, and one more
bit counts as unused than is clear. -/
structure ImapBits (b : Bitmap) (N : ℕ) : Prop where
  size : b.size = N
  pos : 1 ≤ b.allocation
  hint : ∀ k, 1 ≤ k → k < b.allocation → b.test k = true
  root : b.test 1 = true
  unused : b.unused = (clearInodes b N).card + 1

section Bits

variable {b : Bitmap} {N k : ℕ}

/-- Only the bit of the root is set, and the hint is behind it. -/
theorem ImapBits.fresh (hN : 2 ≤ N) (hsize : b.size = N) (halloc : b.allocation = 2)
    (hunused : b.unused = (N - 1 : ℕ)) (htest : ∀ k, k < 64 * b.words → b.test k = decide (k = 1)) :
    ImapBits b N := by
  have hroot : b.test 1 = true := by
    rw [htest 1 (Bitmap.lt_words (by rw [hsize]; omega))]
    rfl
  refine ⟨hsize, by omega, fun k h₁ h₂ => ?_, hroot, ?_⟩
  · obtain rfl : k = 1 := by omega
    exact hroot
  · have hall : clearInodes b N = Finset.Ico 2 N := by
      refine Finset.filter_true_of_mem fun k hk => ?_
      rw [Finset.mem_Ico] at hk
      rw [htest k (Bitmap.lt_words (by rw [hsize]; omega)), decide_eq_false (by omega)]
    rw [hall, Nat.card_Ico, hunused]
    omega

theorem ImapBits.unused_ne_zero (h : ImapBits b N) : b.unused ≠ 0 := by
  have := h.unused
  omega

/-- A clear bit up to the size is allocated, or one before it. -/
theorem ImapBits.exists_alloc (h : ImapBits b N) (hk₂ : 2 ≤ k) (hkN : k ≤ N)
    (hkw : k < 64 * b.words) (hk : b.test k = false) :
    ∃ j, 2 ≤ j ∧ j ≤ k ∧ b.FirstClear b.allocation (64 * b.words) j ∧
      bitmapAlloc b = ((j : ℤ), b.grab j) := by
  have hle : b.allocation ≤ k := by
    by_contra hlt
    have := h.hint k (by omega) (by omega)
    simp [hk] at this
  obtain ⟨j, hjk, hj⟩ := Bitmap.exists_firstClear hle hkw hk
  have hne : j ≠ 1 := by
    rintro rfl
    have := hj.clear
    simp [h.root] at this
  have hpos := h.pos
  have hlo := hj.le
  refine ⟨j, by omega, hjk, hj, bitmapAlloc_of_firstClear h.unused_ne_zero hj ?_⟩
  rw [h.size]
  omega

theorem ImapBits.grab (h : ImapBits b N) (hj : b.FirstClear b.allocation (64 * b.words) k)
    (hk₂ : 2 ≤ k) (hkN : k < N) : ImapBits (b.grab k) N := by
  refine ⟨h.size, by simp, fun j h₁ h₂ => ?_, by simp [h.root], ?_⟩
  · rw [Bitmap.grab_allocation] at h₂
    rw [Bitmap.test_grab]
    by_cases hjk : j = k
    · simp [hjk]
    · by_cases hlt : j < b.allocation
      · simp [h.hint j h₁ hlt]
      · simp [hj.first j (by omega) (by omega)]
  · have herase : clearInodes (b.grab k) N = (clearInodes b N).erase k := by
      ext j
      simp only [clearInodes, Finset.mem_filter, Finset.mem_erase, Bitmap.test_grab,
        Bool.or_eq_false_iff, decide_eq_false_iff_not]
      tauto
    have hmem : k ∈ clearInodes b N := by
      simp [clearInodes, hk₂, hkN, hj.clear]
    have hpos := Finset.card_pos.2 ⟨k, hmem⟩
    rw [Bitmap.grab_unused, h.unused, herase, Finset.card_erase_of_mem hmem]
    omega

theorem ImapBits.drop (h : ImapBits b N) (hk : b.test k = true) (hk₂ : 2 ≤ k) (hkN : k < N) :
    ImapBits (b.drop k) N := by
  have hpos := h.pos
  refine ⟨h.size, by simp only [Bitmap.drop_allocation]; omega, fun j h₁ h₂ => ?_, ?_, ?_⟩
  · rw [Bitmap.drop_allocation] at h₂
    rw [Bitmap.test_drop, decide_eq_false (by omega), h.hint j h₁ (by omega)]
    rfl
  · rw [Bitmap.test_drop, decide_eq_false (by omega), h.root]
    rfl
  · have hinsert : clearInodes (b.drop k) N = insert k (clearInodes b N) := by
      ext j
      simp only [clearInodes, Finset.mem_filter, Finset.mem_insert, Finset.mem_Ico,
        Bitmap.test_drop, Bool.and_eq_false_iff, Bool.not_eq_false', decide_eq_true_eq]
      constructor
      · tauto
      · rintro (rfl | hj)
        · exact ⟨⟨hk₂, hkN⟩, .inl rfl⟩
        · exact ⟨hj.1, .inr hj.2⟩
    have hnot : k ∉ clearInodes b N := by simp [clearInodes, hk]
    rw [Bitmap.drop_unused, h.unused, hinsert, Finset.card_insert_of_notMem hnot]
    push_cast
    rfl

/-- Once no bit below the size is clear, the next one to be allocated is at the size. -/
theorem ImapBits.eq_size (h : ImapBits b N) (hfull : clearInodes b N = ∅)
    (hk : b.FirstClear b.allocation (64 * b.words) k) (hkN : k ≤ N) : k = N := by
  by_contra hne
  have hpos := h.pos
  have hlo := hk.le
  have hclear := hk.clear
  rcases Nat.lt_or_ge k 2 with hlt | hge
  · obtain rfl : k = 1 := by omega
    simp [h.root] at hclear
  · have hmem : k ∈ clearInodes b N := by
      simp only [clearInodes, Finset.mem_filter, Finset.mem_Ico]
      exact ⟨⟨hge, by omega⟩, hclear⟩
    simp [hfull] at hmem

end Bits

/-! ### The superblock -/

/-- The superblock after `efs_imap_alloc`. -/
private def taken (sb : Super) (b : Bitmap) : Super :=
  { sb with ds := { sb.ds with inodeFree := sb.ds.inodeFree - 1 }, imap := b, dirty := true }

/-- The superblock after `efs_imap_free`. -/
private def released (sb : Super) (b : Bitmap) : Super :=
  { sb with ds := { sb.ds with inodeFree := sb.ds.inodeFree + 1 }, imap := b, dirty := true }

section Sb

variable {sb : Super} {N k : ℕ}

private theorem efsImapAlloc_of_eq {b : Bitmap} (h : bitmapAlloc sb.imap = ((k : ℤ), b)) :
    efsImapAlloc sb = .ok ((k : ℤ), taken sb b) := by
  simp only [efsImapAlloc, h]
  rw [if_neg (by omega)]
  rfl

private theorem efsImapAlloc_of_fail (h : bitmapAlloc sb.imap = (-1, sb.imap)) :
    efsImapAlloc sb = .error .imapAlloc := by
  simp [efsImapAlloc, h]

private theorem efsImapFree_of_test (hk : (k : ℤ) < sb.imap.size) (ht : sb.imap.test k = true) :
    efsImapFree sb k = .ok (released sb (sb.imap.drop k)) := by
  rw [efsImapFree, if_neg (not_not.2 (bitmapIsFree_eq_zero_iff.2 ⟨hk, ht⟩)),
    bitmapFree_of_test hk ht]
  rfl

private theorem efsImapFree_of_ge (hk : sb.imap.size ≤ (k : ℤ)) :
    efsImapFree sb k = .error .imapFree := by
  rw [efsImapFree, if_pos]
  rw [Ne, bitmapIsFree_eq_zero_iff]
  omega

/-- Every clear bit below the size is handed out sooner or later. -/
private theorem allocatable_of_clear (h : ImapBits sb.imap N) (hk₂ : 2 ≤ k) (hkN : k < N)
    (hk : sb.imap.test k = false) : Allocatable sb k := by
  obtain ⟨d, hd⟩ : ∃ d, k - sb.imap.allocation = d := ⟨_, rfl⟩
  -- the hint comes closer with every allocation
  induction d using Nat.strong_induction_on generalizing sb with
  | _ d ih =>
    have hkw : k < 64 * sb.imap.words := Bitmap.lt_words (by rw [h.size]; omega)
    obtain ⟨j, hj₂, hjk, hj, halloc⟩ := h.exists_alloc hk₂ hkN.le hkw hk
    have hok := efsImapAlloc_of_eq halloc
    rcases Nat.eq_or_lt_of_le hjk with rfl | hlt
    · exact ⟨1, [(j : ℤ)], _, allocMany_succ hok rfl, by simp⟩
    · have hlo := hj.le
      obtain ⟨n, nos, sb', hmany, hmem⟩ := ih (k - (j + 1)) (by omega)
        (show ImapBits (taken sb (sb.imap.grab j)).imap N from h.grab hj hj₂ (by omega))
        (show (sb.imap.grab j).test k = false by simp [hk, Nat.ne_of_gt hlt]) rfl
      exact ⟨n + 1, _, sb', allocMany_succ hok hmany, List.mem_cons_of_mem _ hmem⟩

end Sb

/-! ### Runs -/

/-- The invariant of the runs that leave the last number alone. -/
private structure ImapInv (N : ℕ) (r : ImapRun) : Prop where
  bits : ImapBits r.sb.imap N
  size : r.sb.ds.inodeCount.toInt = N
  free : r.sb.ds.inodeFree.toInt = r.sb.imap.unused
  count : r.sb.imap.unused + r.out.length = N - 1
  out : ∀ k : ℕ, 2 ≤ k → k < 64 * r.sb.imap.words → (r.sb.imap.test k = true ↔ (k : ℤ) ∈ r.out)
  mem : ∀ no ∈ r.out, 2 ≤ no ∧ no < N
  nodup : r.out.Nodup
  last : 2 ≤ r.sb.imap.unused ∨ N % 64 ≠ 0

section Runs

variable {diskSize N : ℕ} {r r' : ImapRun}

variable (h : ImapInv N r)

include h

private theorem ImapInv.exists_alloc (hN : 3 ≤ N) :
    ∃ j, 2 ≤ j ∧ j ≤ N ∧ r.sb.imap.FirstClear r.sb.imap.allocation (64 * r.sb.imap.words) j ∧
      bitmapAlloc r.sb.imap = ((j : ℤ), r.sb.imap.grab j) := by
  by_cases hne : (clearInodes r.sb.imap N).Nonempty
  · obtain ⟨k, hk⟩ := hne
    simp only [clearInodes, Finset.mem_filter, Finset.mem_Ico] at hk
    obtain ⟨j, h₁, h₂, h₃, h₄⟩ := h.bits.exists_alloc hk.1.1 hk.1.2.le
      (Bitmap.lt_words (by rw [h.bits.size]; omega)) hk.2
    exact ⟨j, h₁, by omega, h₃, h₄⟩
  · -- all bits below the size are set, and the bit at the size is in the last word
    have hunused := h.bits.unused
    rw [Finset.not_nonempty_iff_eq_empty.1 hne, Finset.card_empty] at hunused
    have hmod : N % 64 ≠ 0 := h.last.resolve_left (by omega)
    have hw : N < 64 * r.sb.imap.words := (Bitmap.lt_words_iff h.bits.size.symm).2 hmod
    have hclear : r.sb.imap.test N = false := by
      rw [← Bool.not_eq_true, h.out N (by omega) hw]
      intro hmem
      exact absurd (h.mem _ hmem).2 (by omega)
    exact h.bits.exists_alloc (by omega) le_rfl hw hclear

/-- The number handed out is below the size, if two are left. -/
private theorem ImapInv.lt_size (hu : 2 ≤ r.sb.imap.unused) {j : ℕ}
    (hj : r.sb.imap.FirstClear r.sb.imap.allocation (64 * r.sb.imap.words) j) : j < N := by
  have hunused := h.bits.unused
  obtain ⟨k, hk⟩ := Finset.card_pos.1 (show 0 < (clearInodes r.sb.imap N).card by omega)
  simp only [clearInodes, Finset.mem_filter, Finset.mem_Ico] at hk
  by_contra hge
  have hle : r.sb.imap.allocation ≤ k := by
    by_contra hlt
    have := h.bits.hint k (by omega) (by omega)
    simp [hk.2] at this
  have := hj.first k hle (by omega)
  simp [hk.2] at this

/-- An allocation that leaves two numbers, or one that `bitmap_alloc` will find. -/
private theorem ImapInv.alloc {j : ℕ} (hj₂ : 2 ≤ j)
    (hj : r.sb.imap.FirstClear r.sb.imap.allocation (64 * r.sb.imap.words) j)
    (hleft : 3 ≤ r.sb.imap.unused ∨ r.sb.imap.unused = 2 ∧ N % 64 ≠ 0) :
    ImapInv N ⟨taken r.sb (r.sb.imap.grab j), (j : ℤ) :: r.out⟩ := by
  have hjN : j < N := h.lt_size (by omega) hj
  have hfree := h.free
  have hcount := h.count
  have hnot : (j : ℤ) ∉ r.out := by
    rw [← h.out j hj₂ hj.lt, hj.clear]
    decide
  refine ⟨h.bits.grab hj hj₂ hjN, h.size, ?_, ?_, fun k hk₂ hkw => ?_, ?_, ?_, ?_⟩
  · rw [taken, Bitmap.grab_unused, toInt_sub_one (by omega), hfree]
  · simp only [taken, Bitmap.grab_unused, List.length_cons]
    push_cast
    omega
  · rw [taken, Bitmap.test_grab, Bool.or_eq_true, decide_eq_true_eq, h.out k hk₂ hkw, List.mem_cons,
      Nat.cast_inj]
  · intro no hno
    rcases List.mem_cons.1 hno with rfl | hno
    · omega
    · exact h.mem no hno
  · exact List.nodup_cons.2 ⟨hnot, h.nodup⟩
  · simp only [taken, Bitmap.grab_unused]
    omega

/-- Any number that is out can be freed. -/
private theorem ImapInv.release {k : ℕ} (hk : (k : ℤ) ∈ r.out) :
    r.sb.imap.test k = true ∧ 2 ≤ k ∧ k < N ∧
      efsImapFree r.sb k = .ok (released r.sb (r.sb.imap.drop k)) := by
  have hmem := h.mem _ hk
  have hsize := h.bits.size
  have hw : k < 64 * r.sb.imap.words := Bitmap.lt_words (by omega)
  have ht := (h.out k (by omega) hw).2 hk
  exact ⟨ht, by omega, by omega, efsImapFree_of_test (by omega) ht⟩

private theorem ImapInv.dealloc (hN : N < 2 ^ 31) {k : ℕ} (hk : (k : ℤ) ∈ r.out) :
    ImapInv N ⟨released r.sb (r.sb.imap.drop k), r.out.erase k⟩ := by
  obtain ⟨ht, hk₂, hkN, -⟩ := h.release hk
  have hfree := h.free
  have hcount := h.count
  have hlen := List.length_erase_of_mem hk
  have hpos := List.length_pos_of_mem hk
  refine ⟨h.bits.drop ht hk₂ hkN, h.size, ?_, ?_, fun j hj₂ hjw => ?_, fun no hno => ?_, ?_, ?_⟩
  · rw [released, Bitmap.drop_unused, toInt_add_one (by omega), hfree]
  · simp only [released, Bitmap.drop_unused, hlen]
    omega
  · rw [released, Bitmap.test_drop, Bool.and_eq_true, Bool.not_eq_true', decide_eq_false_iff_not,
      h.out j hj₂ hjw, h.nodup.mem_erase_iff, Ne, Nat.cast_inj]
  · exact h.mem no (List.mem_of_mem_erase hno)
  · exact h.nodup.erase _
  · have := h.bits.unused
    simp only [released, Bitmap.drop_unused]
    omega

private theorem ImapInv.step {a : ImapEvent} (h₃ : 3 ≤ N) (hN : N < 2 ^ 31) (hl : LeavesLast r a)
    (hs : ImapStep r a r') : ImapInv N r' := by
  cases a with
  | alloc =>
    obtain ⟨no, sb, hok, rfl⟩ := hs
    obtain ⟨j, hj₂, -, hj, halloc⟩ := h.exists_alloc h₃
    obtain ⟨rfl, rfl⟩ := Prod.mk.inj (Except.ok.inj (hok.symm.trans (efsImapAlloc_of_eq halloc)))
    rw [LeavesLast, h.free, h.size] at hl
    exact h.alloc hj₂ hj (by omega)
  | free no =>
    obtain ⟨hno, sb, hok, rfl⟩ := hs
    obtain ⟨k, rfl⟩ := Int.eq_ofNat_of_zero_le (show 0 ≤ no by have := h.mem no hno; omega)
    obtain rfl := Except.ok.inj (hok.symm.trans (h.release hno).2.2.2)
    exact h.dealloc hN hno

/-- A consistent state, where the numbers below the size have their place in the inode area. -/
private theorem ImapInv.consistent (hN : 3 ≤ N) (hcount : inodeCount diskSize = N + 1)
    (harea : (N + 1) * inodeSize ≤ inodeAreaBlocks diskSize * blockSize) :
    ImapConsistent diskSize r := by
  have hfree := h.free
  have hunused := h.bits.unused
  refine ⟨?_, ⟨fun _ => by omega, fun _ => ?_⟩, h.nodup, fun no hno => ?_, fun no hno => ?_⟩
  · have := h.count
    omega
  · obtain ⟨j, -, -, -, halloc⟩ := h.exists_alloc hN
    exact ⟨_, _, efsImapAlloc_of_eq halloc⟩
  · have hmem := h.mem no hno
    refine ⟨hmem.1, ?_⟩
    simp only [inodeSize] at harea ⊢
    omega
  · obtain ⟨k, rfl⟩ := Int.eq_ofNat_of_zero_le (show 0 ≤ no by have := h.mem no hno; omega)
    obtain ⟨ht, hk₂, hkN, hok⟩ := h.release hno
    refine ⟨_, hok, rfl, allocatable_of_clear (N := N) ?_ hk₂ hkN ?_⟩
    · exact h.bits.drop ht hk₂ hkN
    · rw [released, Bitmap.test_drop, decide_eq_true rfl]
      rfl

/-- A step that does not leave the last number alone leads to a state that is not consistent. -/
private theorem ImapInv.not_consistent {a : ImapEvent} (hN : 3 ≤ N) (hs : ImapStep r a r')
    (hlast : ¬ LeavesLast r a) : ¬ ImapConsistent diskSize r' := by
  cases a with
  | free no => exact absurd trivial hlast
  | alloc =>
    obtain ⟨no, sb, hok, rfl⟩ := hs
    obtain ⟨j, hj₂, hjN, hj, halloc⟩ := h.exists_alloc hN
    obtain ⟨rfl, rfl⟩ := Prod.mk.inj (Except.ok.inj (hok.symm.trans (efsImapAlloc_of_eq halloc)))
    rw [LeavesLast, h.free, h.size] at hlast
    have hunused := h.bits.unused
    have hlast' := h.last
    have hcases : r.sb.imap.unused = 1 ∨ r.sb.imap.unused = 2 ∧ N % 64 = 0 := by omega
    rcases hcases with hu | ⟨hu, hmod⟩
    · -- the number at the size has been handed out, and cannot be freed
      have hfull : clearInodes r.sb.imap N = ∅ := Finset.card_eq_zero.1 (by omega)
      obtain rfl := h.bits.eq_size hfull hj hjN
      intro hc
      obtain ⟨sb, hsb, -⟩ := hc.frees j (by simp)
      rw [efsImapFree_of_ge (show (taken r.sb (r.sb.imap.grab j)).imap.size ≤ j from
        h.bits.size.le)] at hsb
      cases hsb
    · -- `inode_free` says one, but the words of the bitmap are full
      have hlt : j < N := h.lt_size (by omega) hj
      have hbits := h.bits.grab hj hj₂ hlt
      have hfull : clearInodes (r.sb.imap.grab j) N = ∅ := by
        have := hbits.unused
        rw [Bitmap.grab_unused] at this
        exact Finset.card_eq_zero.1 (by omega)
      have hfail : bitmapAlloc (r.sb.imap.grab j) = (-1, r.sb.imap.grab j) := by
        refine bitmapAlloc_eq_neg_one (.inr fun k hlo hw hk => ?_)
        by_contra hclear
        rw [hbits.size] at hk
        obtain ⟨i, hik, hi⟩ := Bitmap.exists_firstClear hlo hw (Bool.not_eq_true _ ▸ hclear)
        obtain rfl := hbits.eq_size hfull hi (by omega)
        exact (Bitmap.lt_words_iff hbits.size.symm).1 hi.lt hmod
      intro hc
      obtain ⟨no, sb, hsb⟩ := hc.allocs.2 (by
        rw [taken, toInt_sub_one (by rw [h.free]; omega), h.free]
        omega)
      rw [efsImapAlloc_of_fail hfail] at hsb
      cases hsb

end Runs

section Formatted

variable {disk : Disk} {diskSize : ℕ} {ipages bpages : ℕ → BitVec 64} {r : ImapRun}

/-- A formatted disk can be mounted if the bitmaps fit. -/
private theorem mounted_iff : ImapRun.Mounted disk diskSize ipages bpages r ↔
    Fits diskSize ∧ r = ⟨mounted disk ipages bpages diskSize, []⟩ := by
  have hbs : blockSize = 4096 := rfl
  constructor
  · rintro ⟨⟨disk', hmkfs, hfits, hsb⟩, hout⟩
    rw [mkfs] at hmkfs
    split at hmkfs
    · cases hmkfs
    · obtain rfl := Option.some.inj hmkfs
      rw [efsSbInit_formatted (by omega)] at hsb
      refine ⟨(mapsFit_formatted (by omega)).1 hfits, ?_⟩
      rw [Except.ok.inj hsb, ← hout]
  · rintro ⟨hfits, rfl⟩
    have hle := blockAreaStart_le hfits
    exact ⟨⟨formatted disk diskSize, if_neg (by omega), (mapsFit_formatted (by omega)).2 hfits,
      efsSbInit_formatted (by omega)⟩, rfl⟩

private theorem toInt_inode (h : Fits diskSize) (h₃ : 3 ≤ inodeCount diskSize) :
    (easySb diskSize).inodeCount.toInt = (inodeCount diskSize - 1 : ℕ) ∧
      (easySb diskSize).inodeFree.toInt = (inodeCount diskSize - 2 : ℕ) := by
  have hle := h.1
  have hn : (BitVec.ofNat 32 (inodeCount diskSize)).toNat = inodeCount diskSize := by
    rw [BitVec.toNat_ofNat, Nat.mod_eq_of_lt (by omega)]
  have htwo : (2 : BitVec 32).toNat = 2 := rfl
  have h₂ : (BitVec.ofNat 32 (inodeCount diskSize) - 2).toNat = inodeCount diskSize - 2 := by
    rw [BitVec.toNat_sub_of_le (BitVec.le_def.2 (by rw [hn, htwo]; omega)), hn, htwo]
  refine ⟨toInt_inodeCount_of_fits h (by omega), ?_⟩
  simp only [easySb]
  rw [BitVec.toInt_eq_toNat_of_lt (by omega), h₂]

/-- The bitmap as it is read: the first clear bit is that of inode 2. -/
private theorem rawImap_spec (h : Fits diskSize) (h₃ : 3 ≤ inodeCount diskSize) :
    (rawImap disk ipages diskSize).size = (inodeCount diskSize - 1 : ℕ) ∧
    (rawImap disk ipages diskSize).unused ≠ 0 ∧
    (∀ k, k < 64 * (rawImap disk ipages diskSize).words →
      (rawImap disk ipages diskSize).test k = decide (k = 1)) ∧
    (rawImap disk ipages diskSize).FirstClear 1 (64 * (rawImap disk ipages diskSize).words) 2 := by
  have hle := h.1
  have hsize : (rawImap disk ipages diskSize).size = (inodeCount diskSize - 1 : ℕ) := by
    rw [rawImap_size, (toInt_inode h h₃).1]
  have hw : (rawImap disk ipages diskSize).words ≤ 512 := Bitmap.words_le (by omega) (by omega)
  have hone : 0 < 64 * (rawImap disk ipages diskSize).words := Bitmap.lt_words (by omega)
  have hmap : inodeMapBlocks diskSize = 1 := by
    have hi := (fits_iff.1 h).1
    have : inodeMapBlocks diskSize = (inodeCount diskSize + 32767) / 32768 := rfl
    omega
  have harea := blockAreaStart_le h
  have htest : ∀ k, k < 64 * (rawImap disk ipages diskSize).words →
      (rawImap disk ipages diskSize).test k = decide (k = 1) := fun k hk =>
    test_rawImap (by omega) hmap (by omega)
  refine ⟨hsize, ?_, htest, by decide, by omega, ?_, fun j h₁ h₂ => ?_⟩
  · rw [rawImap_unused, (toInt_inode h h₃).1]
    omega
  · rw [htest 2 (by omega)]
    rfl
  · obtain rfl : j = 1 := by omega
    rw [htest 1 (by omega)]
    rfl

private theorem imapInv_mounted (h : Fits diskSize) (h₄ : 4 ≤ inodeCount diskSize) :
    ImapInv (inodeCount diskSize - 1) ⟨mounted disk ipages bpages diskSize, []⟩ := by
  have h₃ : 3 ≤ inodeCount diskSize := by omega
  obtain ⟨hsize, hu, htest, hfirst⟩ := @rawImap_spec disk diskSize ipages h h₃
  obtain ⟨hs, hal, htest'⟩ := bitmapResetAllo_of_lt hu hfirst (by rw [hsize]; omega)
  have hw : (bitmapResetUnused (bitmapResetAllo (rawImap disk ipages diskSize) 1)
      (easySb diskSize).inodeFree.toInt).words = (rawImap disk ipages diskSize).words := by
    rw [Bitmap.words, bitmapResetUnused_size, hs, Bitmap.words]
  have hunused : (bitmapResetUnused (bitmapResetAllo (rawImap disk ipages diskSize) 1)
      (easySb diskSize).inodeFree.toInt).unused = (inodeCount diskSize - 1 - 1 : ℕ) := by
    rw [bitmapResetUnused_unused, (toInt_inode h h₃).2, Nat.sub_sub]
  have hbits : ImapBits (bitmapResetUnused (bitmapResetAllo (rawImap disk ipages diskSize) 1)
      (easySb diskSize).inodeFree.toInt) (inodeCount diskSize - 1) := by
    refine .fresh (by omega) (by rw [bitmapResetUnused_size, hs, hsize])
      (by rw [bitmapResetUnused_allocation, hal]) hunused fun k hk => ?_
    rw [hw] at hk
    rw [test_bitmapResetUnused, htest' k, htest k hk]
  refine ⟨?_, ?_, ?_, ?_, fun k hk₂ hkw => ?_, by simp, List.nodup_nil, ?_⟩
  · rw [mounted_imap]
    exact hbits
  · rw [mounted_ds, (toInt_inode h h₃).1]
  · rw [mounted_ds, mounted_imap, bitmapResetUnused_unused]
  · rw [mounted_imap, hunused, List.length_nil]
    omega
  · simp only [mounted_imap, hw, List.not_mem_nil, iff_false, Bool.not_eq_true] at hkw ⊢
    rw [test_bitmapResetUnused, htest' k, htest k hkw, decide_eq_false (by omega)]
  · rw [mounted_imap, hunused]
    omega

/-- With three inodes, the last one is taken when the hint is put in place. -/
private theorem not_consistent_three (h : Fits diskSize) (h₃ : inodeCount diskSize = 3) :
    ¬ ImapConsistent diskSize ⟨mounted disk ipages bpages diskSize, []⟩ := by
  obtain ⟨hsize, hu, -, hfirst⟩ := @rawImap_spec disk diskSize ipages h (by omega)
  have hreset := bitmapResetAllo_of_eq hu hfirst (by rw [hsize, h₃])
  have hfail : efsImapAlloc (mounted disk ipages bpages diskSize) = .error .imapAlloc := by
    refine efsImapAlloc_of_fail (bitmapAlloc_eq_neg_one (.inr fun j h₁ _ h₂ => ?_))
    rw [mounted_imap, bitmapResetUnused_allocation, hreset, Bitmap.grab_allocation] at h₁
    rw [mounted_imap, bitmapResetUnused_size, hreset, Bitmap.grab_size, hsize] at h₂
    omega
  intro hc
  obtain ⟨no, sb, hsb⟩ := hc.allocs.2 (by
    rw [mounted_ds, (toInt_inode h (by omega)).2, h₃]
    decide)
  rw [hfail] at hsb
  cases hsb

private theorem inodeArea_le (h : Fits diskSize) (h₁ : 1 ≤ inodeCount diskSize) :
    (inodeCount diskSize - 1 + 1) * inodeSize ≤ inodeAreaBlocks diskSize * blockSize := by
  have hle := h.1
  have harea : inodeAreaBlocks diskSize = (inodeCount diskSize * 128 % 2 ^ 32 + 4095) / 4096 := rfl
  simp only [inodeSize, blockSize]
  omega

private theorem fits_of_reachable
    (h : Reachable (ImapRun.Mounted disk diskSize ipages bpages) (guarded LeavesLast ImapStep) r) :
    Fits diskSize := by
  induction h with
  | start h => exact (mounted_iff.1 h).1
  | next _ _ ih => exact ih

private theorem imapInv_of_reachable (h₄ : 4 ≤ inodeCount diskSize)
    (h : Reachable (ImapRun.Mounted disk diskSize ipages bpages) (guarded LeavesLast ImapStep) r) :
    ImapInv (inodeCount diskSize - 1) r := by
  have hle := (fits_of_reachable h).1
  refine h.invariant (fun r hr => ?_) fun _ _ _ hI hs => hI.step (by omega) (by omega) hs.1 hs.2
  obtain ⟨hfits, rfl⟩ := mounted_iff.1 hr
  exact imapInv_mounted hfits h₄

/-- With three inodes there is nothing to be allocated but the last. -/
private theorem eq_mounted_of_reachable (h₃ : inodeCount diskSize = 3)
    (h : Reachable (ImapRun.Mounted disk diskSize ipages bpages) (guarded LeavesLast ImapStep) r) :
    Fits diskSize ∧ r = ⟨mounted disk ipages bpages diskSize, []⟩ := by
  refine h.invariant (fun r hr => mounted_iff.1 hr) ?_
  rintro _ a r' ⟨hfits, rfl⟩ ⟨hl, hs⟩
  cases a with
  | alloc =>
    rw [LeavesLast, mounted_ds, (toInt_inode hfits (by omega)).2, h₃] at hl
    omega
  | free no => simp [ImapStep] at hs

/-- Freshly formatted disks with at least three inodes can be mounted exactly if the bitmaps fit
into their pages. A run on such a disk that leaves the last inode number alone has consistent states
only, unless there are just three inodes; and one more step leads to a consistent state exactly if
it leaves the last number alone too. -/
theorem imapConsistent_iff_of_reachable (h₃ : 3 ≤ inodeCount diskSize) :
    ((∃ r, ImapRun.Mounted disk diskSize ipages bpages r) ↔ Fits diskSize) ∧
      ∀ r, Reachable (ImapRun.Mounted disk diskSize ipages bpages) (guarded LeavesLast ImapStep) r →
        (ImapConsistent diskSize r ↔ inodeCount diskSize ≠ 3) ∧
        (inodeCount diskSize ≠ 3 →
          ∀ a r', ImapStep r a r' → (ImapConsistent diskSize r' ↔ LeavesLast r a)) := by
  refine ⟨⟨fun ⟨r, hr⟩ => (mounted_iff.1 hr).1, fun hfits => ⟨_, mounted_iff.2 ⟨hfits, rfl⟩⟩⟩,
    fun r h => ?_⟩
  by_cases heq : inodeCount diskSize = 3
  · obtain ⟨hfits, rfl⟩ := eq_mounted_of_reachable heq h
    exact ⟨by simp [heq, not_consistent_three hfits heq], fun hne => absurd heq hne⟩
  · have hfits := fits_of_reachable h
    have hle := hfits.1
    have hI := imapInv_of_reachable (by omega) h
    have hconsistent : ∀ r, ImapInv (inodeCount diskSize - 1) r → ImapConsistent diskSize r :=
      fun r hI => hI.consistent (by omega) (by omega) (inodeArea_le hfits (by omega))
    refine ⟨⟨fun _ => heq, fun _ => hconsistent r hI⟩,
      fun _ a r' hs => ⟨fun hc => ?_, fun hl => ?_⟩⟩
    · by_contra hl
      exact hI.not_consistent (by omega) hs hl hc
    · exact hconsistent r' (hI.step (by omega) (by omega) hl hs)

/-- The runs on a disk of zeros with four inodes. -/
private def fourInodes : ImapRun → Prop :=
  ImapRun.Mounted (fun _ => 0) (400 * 4096) (fun _ => 0) (fun _ => 0)

private theorem imapInv_four (h : Reachable fourInodes (guarded LeavesLast ImapStep) r) :
    ImapInv 3 r := by
  have hcount : inodeCount (400 * 4096) = 4 := by decide
  have := imapInv_of_reachable (by decide) h
  rwa [hcount] at this

/-- The first number that is handed out is 2. -/
private theorem exists_alloc_two (h : ImapInv 3 r) (hout : r.out = []) :
    ∃ r', guarded LeavesLast ImapStep r .alloc r' ∧ r'.out = [2] := by
  have hu : r.sb.imap.unused = 2 := by simpa [hout] using h.count
  obtain ⟨j, hj₂, -, hj, halloc⟩ := h.exists_alloc le_rfl
  have hlt := h.lt_size hu.ge hj
  obtain rfl : j = 2 := by omega
  refine ⟨_, ⟨?_, _, _, efsImapAlloc_of_eq halloc, rfl⟩, by rw [hout]; rfl⟩
  rw [LeavesLast, h.free, h.size, hu]
  decide

private theorem exists_two_out :
    ∃ r, Reachable fourInodes (guarded LeavesLast ImapStep) r ∧ r.out = [2] := by
  have h₀ : Reachable fourInodes (guarded LeavesLast ImapStep) _ :=
    .start (mounted_iff.2 ⟨⟨by decide, by decide⟩, rfl⟩)
  obtain ⟨r, hs, hout⟩ := exists_alloc_two (imapInv_four h₀) rfl
  exact ⟨r, h₀.next hs, hout⟩

/-- A number is allocated, freed, and allocated again. -/
theorem imapConsistent_alloc_free_alloc : ∃ r₁ r₂ r₃,
    Reachable (ImapRun.Mounted (fun _ => 0) (400 * 4096) (fun _ => 0) (fun _ => 0))
      (guarded LeavesLast ImapStep) r₁ ∧
      r₁.out = [2] ∧ ImapStep r₁ (.free 2) r₂ ∧ ImapStep r₂ .alloc r₃ ∧ r₃.out = [2] ∧
      ImapConsistent (400 * 4096) r₃ := by
  obtain ⟨r₁, h₁, hout₁⟩ := exists_two_out
  have hfree := ((imapInv_four h₁).release (k := 2) (by simp [hout₁])).2.2.2
  have hs₁ : ImapStep r₁ (.free 2) _ := ⟨by simp [hout₁], _, hfree, rfl⟩
  have h₂ := h₁.next (a := ImapEvent.free 2) ⟨trivial, hs₁⟩
  obtain ⟨r₃, hs₂, hout₃⟩ := exists_alloc_two (imapInv_four h₂) (by simp [hout₁])
  exact ⟨r₁, _, r₃, h₁, hout₁, hs₁, hs₂.2, hout₃,
    ((imapConsistent_iff_of_reachable (by decide)).2 r₃ (h₂.next hs₂)).1.2 (by decide)⟩

/-- With four inodes the second allocation hands out number 3, which cannot be freed: `bitmap_alloc`
admits the size of the bitmap as an index, and `bitmap_is_free` does not. -/
theorem exists_imapFree_panic :
    ∃ r, Reachable (ImapRun.Mounted (fun _ => 0) (400 * 4096) (fun _ => 0) (fun _ => 0))
      ImapStep r ∧
      3 ∈ r.out ∧ efsImapFree r.sb 3 = .error .imapFree := by
  obtain ⟨r, hreach, hout⟩ := exists_two_out
  have hI := imapInv_four hreach
  obtain ⟨j, -, hj₃, hj, halloc⟩ := hI.exists_alloc le_rfl
  have hunused := hI.bits.unused
  have hcount := hI.count
  rw [hout, List.length_singleton] at hcount
  obtain rfl := hI.bits.eq_size (Finset.card_eq_zero.1 (by omega)) hj hj₃
  refine ⟨_, hreach.of_guarded.next (a := .alloc) ⟨_, _, efsImapAlloc_of_eq halloc, rfl⟩, by simp,
    efsImapFree_of_ge (k := 3) hI.bits.size.le⟩

end Formatted

end RiscvLab.Fs
