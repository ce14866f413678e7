import RiscvLab.Fs.FileWrite

/-!
# The blocks of the disk and their owners

A block of a file is referred to from a slot, which is an element of `i_addrs` or an entry of an
indirect block. If the blocks in the slots of some inodes are marked in the bitmap, a block that
`efs_bmap_alloc` returns is in none of them, so that every block keeps one owner. The blocks before
the block area are never returned, since they are marked; only the block 0 is not.

## Main definitions

* `Super.Guarded` : the bitmap keeps the blocks before the block area out of use.
* `Slot` : the places of an inode that hold the number of a block.
* `Owners` : the blocks in the slots of some inodes have one owner.

## Main results

* `Super.Guarded.alloc` : the block that `efs_bmap_alloc` returns.
* `Owners.take` : a block is taken for a slot.

Source: `fs/easyfs/inode.c`, lines 119–172; `fs/easyfs/super.c`, lines 204–212.
-/

namespace RiscvLab.Fs

open Library

/-! ### The blocks that `efs_bmap_alloc` returns -/

theorem efsBmapAlloc_ok {sb sb' : Super} {no : ℤ} (h : efsBmapAlloc sb = .ok (no, sb')) :
    ∃ k : ℕ, no = k ∧ sb.bmap.test k = false ∧ (k : ℤ) ≤ sb.bmap.size ∧
      sb'.bmap = sb.bmap.grab k ∧ sb.bmap.allocation ≤ k ∧
        sb'.ds = { sb.ds with blockFree := sb'.ds.blockFree } := by
  rw [efsBmapAlloc] at h
  rcases hb : bitmapAlloc sb.bmap with ⟨no', b⟩
  rw [hb] at h
  dsimp only at h
  split at h
  · cases h
  · next hno =>
    obtain ⟨rfl, rfl⟩ := ok_prod_inj h
    obtain ⟨k, hk, hclear, hle, hgrab, hhint⟩ := bitmapAlloc_ok hb hno
    exact ⟨k, hk, hclear, hle, hgrab, hhint, rfl⟩

/-- The bitmap keeps the blocks before the block area out of use. They are marked, except for the
block 0: `mkfs` clears its bit, but the search starts at the hint and does not come to it. -/
structure Super.Guarded (sb : Super) : Prop where
  reserved : ∀ k : ℕ, 0 < k → k < sb.ds.blockAreaStart.toNat → (k : ℤ) ≤ sb.bmap.size →
    sb.bmap.test k = true
  hint : 0 < sb.bmap.allocation
  bits : sb.bmap.size < 2 ^ 32

theorem Super.Guarded.congr {sb sb' : Super} (h : sb.Guarded) (hbmap : sb'.bmap = sb.bmap)
    (hds : sb'.ds.blockAreaStart = sb.ds.blockAreaStart) : sb'.Guarded := by
  refine ⟨?_, ?_, ?_⟩ <;> rw [hbmap]
  · rw [hds]
    exact h.reserved
  · exact h.hint
  · exact h.bits

/-- The block that `efs_bmap_alloc` takes was not marked and lies in the block area, since the
blocks before it are marked and the search starts behind the block 0. -/
theorem Super.Guarded.alloc {sb sb' : Super} {no : ℤ} (h : sb.Guarded)
    (halloc : efsBmapAlloc sb = .ok (no, sb')) :
    sb.bmap.test (BitVec.ofInt 32 no).toNat = false ∧
      sb.ds.blockAreaStart.toNat ≤ (BitVec.ofInt 32 no).toNat ∧ BitVec.ofInt 32 no ≠ 0 ∧
        sb'.bmap = sb.bmap.grab (BitVec.ofInt 32 no).toNat ∧
          sb'.ds.blockAreaStart = sb.ds.blockAreaStart := by
  obtain ⟨k, rfl, hclear, hle, hgrab, hhint, hds⟩ := efsBmapAlloc_ok halloc
  have hbits := h.bits
  have hpos := h.hint
  have hk : (BitVec.ofInt 32 (k : ℤ)).toNat = k := by
    rw [BitVec.ofInt_natCast, BitVec.toNat_ofNat, Nat.mod_eq_of_lt (by omega)]
  rw [hk]
  refine ⟨hclear, Nat.not_lt.1 fun hlt => ?_, fun hzero => ?_, hgrab, by rw [hds]⟩
  · have := h.reserved k (by omega) hlt hle
    rw [hclear] at this
    cases this
  · rw [hzero] at hk
    have : (0 : BitVec 32).toNat = 0 := rfl
    omega

theorem Super.Guarded.next {sb sb' : Super} {no : ℤ} (h : sb.Guarded)
    (halloc : efsBmapAlloc sb = .ok (no, sb')) : sb'.Guarded := by
  obtain ⟨-, -, -, hgrab, hds⟩ := h.alloc halloc
  refine ⟨fun k hk hlt hle => ?_, ?_, ?_⟩
  · rw [hds] at hlt
    rw [hgrab, Bitmap.grab_size] at hle
    rw [hgrab, Bitmap.test_grab, h.reserved k hk hlt hle, Bool.or_true]
  · rw [hgrab, Bitmap.grab_allocation]
    exact Nat.succ_pos _
  · rw [hgrab, Bitmap.grab_size]
    exact h.bits

/-! ### Slots -/

/-- The places that hold the number of a block: `i_addrs`, with the address of the indirect block as
its last element, and the entries of the indirect block. -/
inductive Slot
  | addr (k : Fin (nDirect + 1))
  | entry (k : Fin nIndirect)
  deriving DecidableEq

/-! ### Owners -/

/-- The blocks in the slots of the inodes `L` are marked, lie in the block area, and are in one slot
each. -/
structure Owners (L : ℕ → Prop) (slot : ℕ → Slot → BitVec 32) (sb : Super) : Prop where
  marked : ∀ i s, L i → slot i s ≠ 0 → sb.bmap.test (slot i s).toNat = true
  area : ∀ i s, L i → slot i s ≠ 0 → sb.ds.blockAreaStart.toNat ≤ (slot i s).toNat
  unique : ∀ i j s t, L i → L j → slot i s ≠ 0 → slot i s = slot j t → i = j ∧ s = t
  guarded : sb.Guarded

namespace Owners

variable {L L' : ℕ → Prop} {slot slot' : ℕ → Slot → BitVec 32} {sb sb' : Super}

theorem congr (h : Owners L slot sb)
    (hslot : ∀ j t, L' j → slot' j t ≠ 0 → L j ∧ slot' j t = slot j t)
    (hbmap : sb'.bmap = sb.bmap) (hds : sb'.ds.blockAreaStart = sb.ds.blockAreaStart) :
    Owners L' slot' sb' := by
  refine ⟨fun j t hj hne => ?_, fun j t hj hne => ?_, fun i j s t hi hj hne heq => ?_,
    h.guarded.congr hbmap hds⟩
  · obtain ⟨hj', hs⟩ := hslot j t hj hne
    rw [hs] at hne ⊢
    rw [hbmap]
    exact h.marked j t hj' hne
  · obtain ⟨hj', hs⟩ := hslot j t hj hne
    rw [hs] at hne ⊢
    rw [hds]
    exact h.area j t hj' hne
  · obtain ⟨hi', hs⟩ := hslot i s hi hne
    obtain ⟨hj', ht⟩ := hslot j t hj (heq ▸ hne)
    rw [hs] at hne heq
    rw [ht] at heq
    exact h.unique i j s t hi' hj' hne heq

/-- A block is taken for the slot `s` of the inode `i`. The blocks in the slots are marked, so that
the new one is none of them and every block keeps one owner. -/
theorem take {i : ℕ} {s : Slot} {no : ℤ} (h : Owners L slot sb)
    (halloc : efsBmapAlloc sb = .ok (no, sb')) (hself : slot' i s = BitVec.ofInt 32 no)
    (hother : ∀ j t, L j → (j ≠ i ∨ t ≠ s) → slot' j t = slot j t) : Owners L slot' sb' := by
  obtain ⟨hclear, harea, hne, hgrab, hds⟩ := h.guarded.alloc halloc
  have hcases (j : ℕ) (t : Slot) (hj : L j) (hjt : slot' j t ≠ 0) :
      j = i ∧ t = s ∧ slot' j t = BitVec.ofInt 32 no ∨ slot' j t = slot j t ∧ slot j t ≠ 0 := by
    by_cases hjs : j ≠ i ∨ t ≠ s
    · have heq := hother j t hj hjs
      exact .inr ⟨heq, heq ▸ hjt⟩
    · obtain ⟨rfl, rfl⟩ : j = i ∧ t = s := by tauto
      exact .inl ⟨rfl, rfl, hself⟩
  -- the old blocks are marked, so that the new one is none of them
  have hold (j : ℕ) (t : Slot) (hj : L j) (hjt : slot j t ≠ 0) :
      slot j t ≠ BitVec.ofInt 32 no := by
    intro heq
    have := h.marked j t hj hjt
    rw [heq, hclear] at this
    cases this
  refine ⟨fun j t hj hjt => ?_, fun j t hj hjt => ?_, fun j j' t t' hj hj' hjt heq => ?_,
    h.guarded.next halloc⟩
  · rw [hgrab, Bitmap.test_grab]
    rcases hcases j t hj hjt with ⟨-, -, hnew⟩ | ⟨hslot, hne'⟩
    · rw [hnew, decide_eq_true rfl, Bool.true_or]
    · rw [hslot, h.marked j t hj hne', Bool.or_true]
  · rw [hds]
    rcases hcases j t hj hjt with ⟨-, -, hnew⟩ | ⟨hslot, hne'⟩
    · rwa [hnew]
    · rw [hslot]
      exact h.area j t hj hne'
  · rcases hcases j t hj hjt with ⟨rfl, rfl, hnew⟩ | ⟨hslot, hne₁⟩ <;>
      rcases hcases j' t' hj' (heq ▸ hjt) with ⟨rfl, rfl, hnew'⟩ | ⟨hslot', hne₂⟩
    · exact ⟨rfl, rfl⟩
    · exact absurd (hslot'.symm.trans (heq.symm.trans hnew)) (hold j' t' hj' hne₂)
    · exact absurd (hslot.symm.trans (heq.trans hnew')) (hold j t hj hne₁)
    · rw [hslot, hslot'] at heq
      exact h.unique j j' t t' hj hj' hne₁ heq

end Owners

end RiscvLab.Fs
