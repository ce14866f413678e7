import Mathlib.Data.Set.Card
import RiscvLab.Fs.BlockMap
import RiscvLab.Fs.Frames

/-!
# The blocks of a deleted file

`efs_i_data_free` frees the blocks that the inode lists, up to the first that is zero, the indirect
block among them, and then those that the indirect block lists. It takes the latter from the page in
memory. If the indirect block has not been loaded, as after a mount, there is no page, and the
blocks in it stay marked in the bitmap for good (`exists_leaked_block`). This is the only way in
which blocks are lost (`reclaims_iff_loaded`).

## Main definitions

* `IntactFile` : the blocks of a file are those for its size, and are marked in the bitmap.
* `Reclaims` : `efs_i_unlink` frees the blocks of the file, and no others.
* `listedBlocks` : the blocks that a loop of `efs_i_data_free` frees.

## Main results

* `efsIFreeAddrs_freed` : what a loop frees.
* `IntactFile.efsIUnlink_ok` : what `efs_i_unlink` frees.
* `reclaims_iff_loaded`

Source: `fs/easyfs/inode.c`, lines 289–327 and 362–398; `fs/easyfs/super.c`, lines 193–222.
-/

namespace RiscvLab.Fs

open Library

variable {st st' : Efs} {i l : ℕ} {b : BitVec 32} {bs bs' : List (BitVec 32)}

/-! ### Freeing blocks -/

/-- The blocks `bs` have been freed. -/
structure Freed (sb sb' : Super) (bs : List (BitVec 32)) : Prop where
  imap : sb'.imap = sb.imap
  size : sb'.bmap.size = sb.bmap.size
  test : ∀ k, sb'.bmap.test k = true ↔ sb.bmap.test k = true ∧ ∀ b ∈ bs, b.toNat ≠ k
  blockFree : sb'.ds.blockFree = sb.ds.blockFree + BitVec.ofNat 32 bs.length

/-- The block is inside the bitmap and marked in it. -/
def InUse (sb : Super) (b : BitVec 32) : Prop :=
  0 < b.toInt ∧ b.toInt < sb.bmap.size ∧ sb.bmap.test b.toNat = true

section Freed

variable {sb sb₁ sb' : Super}

theorem Freed.nil : Freed sb sb [] := ⟨rfl, rfl, by simp, by simp⟩

theorem Freed.append (h : Freed sb sb₁ bs) (h' : Freed sb₁ sb' bs') : Freed sb sb' (bs ++ bs') := by
  refine ⟨h'.imap.trans h.imap, h'.size.trans h.size, fun k => ?_, ?_⟩
  · rw [h'.test, h.test, List.forall_mem_append, and_assoc]
  · rw [h'.blockFree, h.blockFree, List.length_append, BitVec.ofNat_add, BitVec.add_assoc]

/-- A block that has not been freed is still in use. -/
theorem Freed.inUse (h : Freed sb sb' bs) (hb : InUse sb b) (hbs : b ∉ bs) : InUse sb' b := by
  refine ⟨hb.1, h.size ▸ hb.2.1, (h.test _).2 ⟨hb.2.2, fun b' hb' heq => ?_⟩⟩
  exact hbs (BitVec.eq_of_toNat_eq heq ▸ hb')

theorem toInt_eq_toNat_of_pos (h : 0 < b.toInt) : b.toInt = b.toNat := by
  rw [BitVec.toInt_eq_toNat_cond] at h ⊢
  split at h <;> omega

theorem efsBmapFree_freed (h : InUse sb b) :
    ∃ sb', efsBmapFree sb b.toInt = .ok sb' ∧ Freed sb sb' [b] := by
  obtain ⟨hpos, hlt, htest⟩ := h
  rw [toInt_eq_toNat_of_pos hpos] at hlt
  rw [efsBmapFree, toInt_eq_toNat_of_pos hpos,
    if_neg (not_not.2 (bitmapIsFree_eq_zero_iff.2 ⟨hlt, htest⟩)), bitmapFree_of_test hlt htest]
  refine ⟨_, rfl, rfl, rfl, fun k => ?_, rfl⟩
  rw [Bitmap.test_drop, Bool.and_eq_true, Bool.not_eq_true', decide_eq_false_iff_not,
    List.forall_mem_singleton, and_comm, ne_comm]

end Freed

/-- The blocks `addr k`, `addr (k + 1)`, … up to the first that is zero, `n` at most. -/
def listedBlocks (addr : ℕ → BitVec 32) : ℕ → ℕ → List (BitVec 32)
  | 0, _ => []
  | n + 1, k => if addr k = 0 then [] else addr k :: listedBlocks addr n (k + 1)

/-- A loop of `efs_i_data_free` frees the blocks that are listed, and passes over zeros. No
assertion fails, since the blocks are different ones and in use. -/
theorem efsIFreeAddrs_freed {addr : ℕ → BitVec 32} {n k : ℕ} {sb : Super}
    (hnodup : (listedBlocks addr n k).Nodup) (huse : ∀ b ∈ listedBlocks addr n k, InUse sb b) :
    ∃ sb', efsIFreeAddrs addr n k sb = .ok sb' ∧ Freed sb sb' (listedBlocks addr n k) := by
  induction n generalizing k sb with
  | zero => exact ⟨sb, rfl, .nil⟩
  | succ n ih =>
    rw [listedBlocks] at hnodup huse ⊢
    rw [efsIFreeAddrs]
    by_cases h : addr k = 0
    · rw [if_pos h, if_pos h]
      exact ⟨sb, rfl, .nil⟩
    · rw [if_neg h] at hnodup huse
      rw [if_neg h, if_neg h]
      obtain ⟨hk, hnodup⟩ := List.nodup_cons.1 hnodup
      obtain ⟨sb₁, hfree, h₁⟩ := efsBmapFree_freed (huse _ List.mem_cons_self)
      have huse' : ∀ b ∈ listedBlocks addr n (k + 1), InUse sb₁ b := by
        intro b hb
        refine h₁.inUse (huse b (List.mem_cons_of_mem _ hb)) fun hmem => ?_
        exact hk (List.mem_singleton.1 hmem ▸ hb)
      obtain ⟨sb', hrest, h'⟩ := ih hnodup huse'
      refine ⟨sb', ?_, h₁.append h'⟩
      rw [hfree]
      exact hrest

section listedBlocks

variable {addr : ℕ → BitVec 32} {n k : ℕ}

theorem mem_listedBlocks (hdown : ∀ j j', j ≤ j' → j' < k + n → addr j' ≠ 0 → addr j ≠ 0) :
    b ∈ listedBlocks addr n k ↔ b ≠ 0 ∧ ∃ j, k ≤ j ∧ j < k + n ∧ b = addr j := by
  induction n generalizing k with
  | zero =>
    refine iff_of_false List.not_mem_nil ?_
    rintro ⟨-, j, h₁, h₂, -⟩
    omega
  | succ n ih =>
    rw [listedBlocks]
    by_cases h : addr k = 0
    · rw [if_pos h]
      refine iff_of_false List.not_mem_nil ?_
      rintro ⟨hne, j, h₁, h₂, rfl⟩
      exact hdown k j h₁ h₂ hne h
    · rw [if_neg h, List.mem_cons, ih fun j j' hle hlt => hdown j j' hle (by omega)]
      constructor
      · rintro (rfl | ⟨hne, j, h₁, h₂, hj⟩)
        · exact ⟨h, k, le_rfl, by omega, rfl⟩
        · exact ⟨hne, j, by omega, by omega, hj⟩
      · rintro ⟨hne, j, h₁, h₂, hj⟩
        rcases Nat.eq_or_lt_of_le h₁ with rfl | h₁
        · exact .inl hj
        · exact .inr ⟨hne, j, h₁, by omega, hj⟩

theorem nodup_listedBlocks (hdown : ∀ j j', j ≤ j' → j' < k + n → addr j' ≠ 0 → addr j ≠ 0)
    (hinj : ∀ j j', j < k + n → j' < k + n → addr j ≠ 0 → addr j = addr j' → j = j') :
    (listedBlocks addr n k).Nodup := by
  induction n generalizing k with
  | zero => exact List.nodup_nil
  | succ n ih =>
    have hdown' : ∀ j j', j ≤ j' → j' < k + 1 + n → addr j' ≠ 0 → addr j ≠ 0 :=
      fun j j' hle hlt => hdown j j' hle (by omega)
    rw [listedBlocks]
    by_cases h : addr k = 0
    · rw [if_pos h]
      exact List.nodup_nil
    · rw [if_neg h]
      refine List.nodup_cons.2 ⟨fun hmem => ?_, ih hdown' fun j j' hj hj' =>
        hinj j j' (by omega) (by omega)⟩
      obtain ⟨-, j, h₁, h₂, hj⟩ := (mem_listedBlocks hdown').1 hmem
      have := hinj k j (by omega) (by omega) h hj
      omega

end listedBlocks

/-! ### The blocks that a deletion frees -/

/-- The blocks that `efs_i_data_free` frees. -/
def MInode.freedBlocks (x : MInode) : List (BitVec 32) :=
  listedBlocks x.di.addrs (nDirect + 1) 0 ++
    match x.indir with
    | some blk => listedBlocks blk nIndirect 0
    | none => []

theorem efsIDataFree_freed (hnodup : (st.inode i).freedBlocks.Nodup)
    (huse : ∀ b ∈ (st.inode i).freedBlocks, InUse st.sb b) :
    ∃ sb, efsIDataFree st i = .ok { st with sb := sb } ∧
      Freed st.sb sb (st.inode i).freedBlocks := by
  obtain ⟨hnodup₁, hnodup₂, hdisj⟩ := List.nodup_append.1 hnodup
  obtain ⟨huse₁, huse₂⟩ := List.forall_mem_append.1 huse
  obtain ⟨sb₁, heq₁, h₁⟩ := efsIFreeAddrs_freed hnodup₁ huse₁
  rw [efsIDataFree, heq₁, MInode.freedBlocks]
  cases hindir : (st.inode i).indir with
  | none =>
    refine ⟨sb₁, rfl, ?_⟩
    rw [List.append_nil]
    exact h₁
  | some blk =>
    rw [hindir] at hnodup₂ huse₂ hdisj
    obtain ⟨sb₂, heq₂, h₂⟩ := efsIFreeAddrs_freed hnodup₂ fun b hb =>
      h₁.inUse (huse₂ b hb) fun hb₁ => hdisj b hb₁ b hb rfl
    refine ⟨sb₂, ?_, h₁.append h₂⟩
    simp only [bind, Except.bind, efsIFreeIndir, heq₂]

theorem efsITrunc_freed (hnodup : (st.inode i).freedBlocks.Nodup)
    (huse : ∀ b ∈ (st.inode i).freedBlocks, InUse st.sb b) :
    ∃ st', efsITrunc st i = .ok st' ∧ Freed st.sb st'.sb (st.inode i).freedBlocks ∧
      (st'.inode i).di.no = (st.inode i).di.no := by
  obtain ⟨sb, hfree, hfreed⟩ := efsIDataFree_freed hnodup huse
  rw [efsITrunc, hfree]
  refine ⟨_, rfl, ?_, ?_⟩
  · rw [efsISdirty]
    split <;> exact hfreed
  · rw [di_efsISdirty, Efs.modDi, Efs.modInode_inode_self]

theorem efsImapFree_ok {sb : Super} {no : BitVec 32} (hpos : 0 < no.toInt)
    (hlt : no.toInt < sb.imap.size) (htest : sb.imap.test no.toNat = true) :
    ∃ sb', efsImapFree sb no.toInt = .ok sb' ∧ sb'.bmap = sb.bmap ∧
      sb'.ds.blockFree = sb.ds.blockFree := by
  have hfree : bitmapIsFree sb.imap no.toInt = 0 := by
    rw [toInt_eq_toNat_of_pos hpos] at hlt ⊢
    exact bitmapIsFree_eq_zero_iff.2 ⟨hlt, htest⟩
  rw [efsImapFree, if_neg (not_not.2 hfree)]
  exact ⟨_, rfl, rfl, rfl⟩

/-- A well-formed file whose blocks have been allocated in order, and are marked in the bitmap. The
size of a bitmap is an `int`. The number of the inode is not the last one, with the index `size`:
`efs_imap_alloc` returns that one too, but `efs_imap_free` panics on it. -/
structure IntactFile (st : Efs) (i : ℕ) : Prop extends WellFormed st i where
  bits : st.sb.bmap.size < 2 ^ 31
  marked : ∀ b, (st.inode i).Uses st.disk b →
    (b.toNat : ℤ) < st.sb.bmap.size ∧ st.sb.bmap.test b.toNat = true
  noGaps : ∀ l l', l ≤ l' → st.block i l' ≠ 0 → st.block i l ≠ 0
  direct : (st.inode i).di.addrs nDirect ≠ 0 → ∀ l < nDirect, st.block i l ≠ 0
  number : 1 < (st.inode i).di.no.toInt
  numbered : (st.inode i).di.no.toInt < st.sb.imap.size ∧
    st.sb.imap.test (st.inode i).di.no.toNat = true

/-- The space of the file has been reclaimed. -/
structure Reclaimed (st st' : Efs) (i : ℕ) : Prop where
  clear : ∀ b, (st.inode i).Uses st.disk b → st'.sb.bmap.test b.toNat = false
  others : ∀ k, (∀ b, (st.inode i).Uses st.disk b → b.toNat ≠ k) →
    st'.sb.bmap.test k = st.sb.bmap.test k
  blockFree : st'.sb.ds.blockFree =
    st.sb.ds.blockFree + BitVec.ofNat 32 {b | (st.inode i).Uses st.disk b}.ncard

/-- `efs_i_unlink` reclaims the space of the file. -/
def Reclaims (st : Efs) (i : ℕ) : Prop :=
  ∃ st', efsIUnlink st i = .ok (0, st') ∧ Reclaimed st st' i

namespace IntactFile

private theorem block_direct (st : Efs) (i : ℕ) (hl : l < nDirect) :
    st.block i l = (st.inode i).di.addrs l :=
  if_pos hl

private theorem block_add (h : (st.inode i).di.addrs nDirect ≠ 0) (hl : l < nIndirect) :
    st.block i (nDirect + l) = (st.inode i).page st.disk l := by
  rw [Efs.block, MInode.block, if_neg (by omega), if_pos ⟨by omega, h⟩, Nat.add_sub_cancel_left]

/-- If the indirect block is in memory, it is the page. -/
theorem freedBlocks_of_isSome (hindir : (st.inode i).indir.isSome) :
    (st.inode i).freedBlocks = listedBlocks (st.inode i).di.addrs (nDirect + 1) 0 ++
      listedBlocks ((st.inode i).page st.disk) nIndirect 0 := by
  obtain ⟨blk, hblk⟩ := Option.isSome_iff_exists.1 hindir
  have hpage : (st.inode i).page st.disk = blk := by
    funext k
    rw [MInode.page, hblk]
  rw [MInode.freedBlocks, hblk, hpage]

theorem freedBlocks_of_not_isSome (hindir : ¬(st.inode i).indir.isSome) :
    (st.inode i).freedBlocks = listedBlocks (st.inode i).di.addrs (nDirect + 1) 0 := by
  rw [MInode.freedBlocks, Option.not_isSome_iff_eq_none.1 hindir, List.append_nil]

variable (h : IntactFile st i)

include h

theorem inUse (hb : (st.inode i).Uses st.disk b) : InUse st.sb b := by
  obtain ⟨hlt, htest⟩ := h.marked b hb
  have hbits := h.bits
  have hne : b.toNat ≠ 0 := fun h0 => hb.1 (BitVec.eq_of_toNat_eq h0)
  have heq : b.toInt = b.toNat := BitVec.toInt_eq_toNat_of_lt (by omega)
  exact ⟨by omega, by omega, htest⟩

private theorem addrs_down (j j' : ℕ) (hle : j ≤ j') (hlt : j' < 0 + (nDirect + 1))
    (hne : (st.inode i).di.addrs j' ≠ 0) : (st.inode i).di.addrs j ≠ 0 := by
  rcases Nat.lt_or_ge j' nDirect with hj' | hj'
  · rw [← block_direct st i hj'] at hne
    rw [← block_direct st i (by omega)]
    exact h.noGaps j j' hle hne
  · obtain rfl : j' = nDirect := by omega
    rcases Nat.lt_or_ge j nDirect with hj | hj
    · rw [← block_direct st i hj]
      exact h.direct hne j hj
    · obtain rfl : j = nDirect := by omega
      exact hne

private theorem page_down (ha : (st.inode i).di.addrs nDirect ≠ 0) (j j' : ℕ) (hle : j ≤ j')
    (hlt : j' < 0 + nIndirect) (hne : (st.inode i).page st.disk j' ≠ 0) :
    (st.inode i).page st.disk j ≠ 0 := by
  rw [← block_add ha (by omega)] at hne ⊢
  exact h.noGaps _ _ (by omega) hne

private theorem addrs_inj (j j' : ℕ) (hj : j < 0 + (nDirect + 1)) (hj' : j' < 0 + (nDirect + 1))
    (hne : (st.inode i).di.addrs j ≠ 0) (heq : (st.inode i).di.addrs j = (st.inode i).di.addrs j') :
    j = j' := by
  -- the indirect block is not one of the direct blocks
  rcases Nat.lt_or_ge j nDirect with hd | hd <;> rcases Nat.lt_or_ge j' nDirect with hd' | hd'
  · rw [← block_direct st i hd] at hne heq
    rw [← block_direct st i hd'] at heq
    exact h.distinct j j' hne heq
  · obtain rfl : j' = nDirect := by omega
    rw [← block_direct st i hd] at hne heq
    exact absurd heq (h.indirect j hne)
  · obtain rfl : j = nDirect := by omega
    rw [heq, ← block_direct st i hd'] at hne
    rw [← block_direct st i hd'] at heq
    exact absurd heq.symm (h.indirect j' hne)
  · omega

private theorem page_inj (ha : (st.inode i).di.addrs nDirect ≠ 0) (j j' : ℕ)
    (hj : j < 0 + nIndirect) (hj' : j' < 0 + nIndirect) (hne : (st.inode i).page st.disk j ≠ 0)
    (heq : (st.inode i).page st.disk j = (st.inode i).page st.disk j') : j = j' := by
  rw [← block_add ha (by omega)] at hne heq
  rw [← block_add ha (by omega)] at heq
  have := h.distinct _ _ hne heq
  omega

theorem mem_direct :
    b ∈ listedBlocks (st.inode i).di.addrs (nDirect + 1) 0 ↔
      b ≠ 0 ∧ (b = (st.inode i).di.addrs nDirect ∨ ∃ l < nDirect, b = st.block i l) := by
  rw [mem_listedBlocks h.addrs_down]
  refine and_congr_right fun _ => ⟨?_, ?_⟩
  · rintro ⟨j, -, hj, rfl⟩
    rcases Nat.lt_or_ge j nDirect with hd | hd
    · exact .inr ⟨j, hd, (block_direct st i hd).symm⟩
    · obtain rfl : j = nDirect := by omega
      exact .inl rfl
  · rintro (rfl | ⟨l, hl, rfl⟩)
    · exact ⟨nDirect, by omega, by omega, rfl⟩
    · exact ⟨l, by omega, by omega, block_direct st i hl⟩

theorem mem_page (ha : (st.inode i).di.addrs nDirect ≠ 0) :
    b ∈ listedBlocks ((st.inode i).page st.disk) nIndirect 0 ↔
      b ≠ 0 ∧ ∃ l, nDirect ≤ l ∧ b = st.block i l := by
  rw [mem_listedBlocks (h.page_down ha)]
  refine and_congr_right fun hne => ⟨?_, ?_⟩
  · rintro ⟨j, -, hj, rfl⟩
    exact ⟨nDirect + j, by omega, (block_add ha (by omega)).symm⟩
  · rintro ⟨l, hl, rfl⟩
    obtain ⟨j, rfl⟩ := Nat.exists_eq_add_of_le hl
    have hj : j < nIndirect := by
      by_contra hj
      refine hne ?_
      rw [Efs.block, MInode.block, if_neg (by omega), if_neg (by omega)]
    exact ⟨j, by omega, by omega, block_add ha hj⟩

/-- A block in the indirect block is not listed in the inode. -/
theorem notMem_direct (hl : nDirect ≤ l) (hne : st.block i l ≠ 0) :
    st.block i l ∉ listedBlocks (st.inode i).di.addrs (nDirect + 1) 0 := by
  rw [h.mem_direct]
  rintro ⟨-, heq | ⟨l', hl', heq⟩⟩
  · exact h.indirect l hne heq
  · have := h.distinct l l' hne heq
    omega

theorem nodup_freedBlocks : (st.inode i).freedBlocks.Nodup := by
  have hdirect := nodup_listedBlocks h.addrs_down h.addrs_inj
  by_cases hindir : (st.inode i).indir.isSome
  · have ha := h.indir hindir
    rw [freedBlocks_of_isSome hindir]
    refine List.nodup_append.2 ⟨hdirect, nodup_listedBlocks (h.page_down ha) (h.page_inj ha), ?_⟩
    rintro b hb _ hb' rfl
    obtain ⟨hne, l, hl, rfl⟩ := (h.mem_page ha).1 hb'
    exact h.notMem_direct hl hne hb
  · rw [freedBlocks_of_not_isSome hindir]
    exact hdirect

/-- The blocks that are freed are blocks of the file. -/
theorem uses_of_mem_freedBlocks (hb : b ∈ (st.inode i).freedBlocks) :
    (st.inode i).Uses st.disk b := by
  have hdirect (hb : b ∈ listedBlocks (st.inode i).di.addrs (nDirect + 1) 0) :
      (st.inode i).Uses st.disk b := by
    obtain ⟨hne, ha | ⟨l, -, hl⟩⟩ := h.mem_direct.1 hb
    · exact ⟨hne, .inl ha⟩
    · exact ⟨hne, .inr ⟨l, hl⟩⟩
  by_cases hindir : (st.inode i).indir.isSome
  · rw [freedBlocks_of_isSome hindir] at hb
    rcases List.mem_append.1 hb with hb | hb
    · exact hdirect hb
    · obtain ⟨hne, l, -, hl⟩ := (h.mem_page (h.indir hindir)).1 hb
      exact ⟨hne, .inr ⟨l, hl⟩⟩
  · rw [freedBlocks_of_not_isSome hindir] at hb
    exact hdirect hb

/-- All blocks of the file are freed if the indirect block is in memory. -/
theorem mem_freedBlocks_of_uses (hload : st.block i nDirect ≠ 0 → (st.inode i).indir.isSome)
    (hb : (st.inode i).Uses st.disk b) : b ∈ (st.inode i).freedBlocks := by
  obtain ⟨hne, ha | ⟨l, hl⟩⟩ := hb
  · exact List.mem_append_left _ (h.mem_direct.2 ⟨hne, .inl ha⟩)
  rcases Nat.lt_or_ge l nDirect with hd | hd
  · exact List.mem_append_left _ (h.mem_direct.2 ⟨hne, .inr ⟨l, hd, hl⟩⟩)
  · have hindir := hload (h.noGaps nDirect l hd fun h0 => hne (hl.trans h0))
    rw [freedBlocks_of_isSome hindir]
    exact List.mem_append_right _ ((h.mem_page (h.indir hindir)).2 ⟨hne, l, hd, hl⟩)

/-- What `efs_i_unlink` frees when the last link goes and nobody refers to the inode: all blocks of
the file, with its indirect block. -/
theorem efsIUnlink_ok (hlink : (st.inode i).di.nlink = 1) (href : (st.inode i).refcnt = 0) :
    ∃ sb st', efsIUnlink st i = .ok (0, st') ∧
      Freed st.sb sb (st.inode i).freedBlocks ∧ st'.sb.bmap = sb.bmap ∧
        st'.sb.ds.blockFree = sb.ds.blockFree := by
  have hpos : 0 < (st.inode i).di.no.toInt := lt_trans zero_lt_one h.number
  have hno : ¬(st.inode i).di.no.toNat ≤ 1 := by
    have := h.number
    rw [toInt_eq_toNat_of_pos hpos] at this
    omega
  rw [efsIUnlink, if_neg hno]
  have hinode : (st.modDi i fun x => { x with nlink := x.nlink - 1 }).inode i =
      { st.inode i with di := { (st.inode i).di with nlink := 0 } } := by
    rw [Efs.modDi, Efs.modInode_inode_self, hlink]
    rfl
  have hsb : (st.modDi i fun x => { x with nlink := x.nlink - 1 }).sb = st.sb := rfl
  generalize (st.modDi i fun x => { x with nlink := x.nlink - 1 }) = st₁ at hinode hsb ⊢
  have hblocks : (st₁.inode i).freedBlocks = (st.inode i).freedBlocks := by
    rw [hinode]
    rfl
  obtain ⟨st₂, htrunc, hfreed, hno₂⟩ := @efsITrunc_freed st₁ i (hblocks ▸ h.nodup_freedBlocks)
    fun b hb => hsb ▸ h.inUse (h.uses_of_mem_freedBlocks (hblocks ▸ hb))
  rw [hblocks, hsb] at hfreed
  rw [hinode] at hno₂
  obtain ⟨sb, hfree, hbmap, hcount⟩ := @efsImapFree_ok st₂.sb (st.inode i).di.no hpos
    (hfreed.imap ▸ h.numbered.1) (hfreed.imap ▸ h.numbered.2)
  have hlink₁ : (st₁.inode i).di.nlink = 0 := by rw [hinode]
  have href₁ : ¬0 < (st₁.inode i).refcnt.toInt := by
    rw [hinode, href]
    decide
  refine ⟨st₂.sb, { st₂ with sb := sb }, ?_, hfreed, hbmap, hcount⟩
  simp only [if_pos hlink₁, if_neg href₁, htrunc, bind, Except.bind, hno₂, hfree]

theorem ncard_uses (hload : st.block i nDirect ≠ 0 → (st.inode i).indir.isSome) :
    {b | (st.inode i).Uses st.disk b}.ncard = (st.inode i).freedBlocks.length := by
  have hset : {b | (st.inode i).Uses st.disk b} = ↑(st.inode i).freedBlocks.toFinset := by
    ext b
    rw [List.coe_toFinset]
    exact ⟨h.mem_freedBlocks_of_uses hload, h.uses_of_mem_freedBlocks⟩
  rw [hset, Set.ncard_coe_finset, List.toFinset_card_of_nodup h.nodup_freedBlocks]

end IntactFile

/-- A file that is deleted loses the blocks in its indirect block unless that is in memory. -/
theorem IntactFile.block_leaked (h : IntactFile st i) (hlink : (st.inode i).di.nlink = 1)
    (href : (st.inode i).refcnt = 0) (hne : st.block i nDirect ≠ 0)
    (hindir : ¬(st.inode i).indir.isSome) : ∃ st', efsIUnlink st i = .ok (0, st') ∧
      st'.sb.bmap.test (st.block i nDirect).toNat = true := by
  obtain ⟨sb, st', heq, hfreed, hbmap, -⟩ := h.efsIUnlink_ok hlink href
  refine ⟨st', heq, ?_⟩
  have hnot : st.block i nDirect ∉ (st.inode i).freedBlocks := by
    rw [freedBlocks_of_not_isSome hindir]
    exact h.notMem_direct le_rfl hne
  rw [hbmap]
  exact (hfreed.inUse (h.inUse (MInode.uses_block hne)) hnot).2.2

theorem IntactFile.not_reclaims (h : IntactFile st i) (hlink : (st.inode i).di.nlink = 1)
    (href : (st.inode i).refcnt = 0) (hne : st.block i nDirect ≠ 0)
    (hindir : ¬(st.inode i).indir.isSome) : ¬Reclaims st i := by
  rintro ⟨st', heq, hreclaimed⟩
  obtain ⟨st'', heq', htest⟩ := h.block_leaked hlink href hne hindir
  obtain ⟨-, rfl⟩ := ok_prod_inj (heq.symm.trans heq')
  have hclear := hreclaimed.clear _ (MInode.uses_block hne)
  exact Bool.false_ne_true (hclear.symm.trans htest)

/-- The space of a file is reclaimed if and only if the indirect block is in memory, or lists no
blocks. -/
theorem reclaims_iff_loaded (h : IntactFile st i) (hlink : (st.inode i).di.nlink = 1)
    (href : (st.inode i).refcnt = 0) :
    Reclaims st i ↔ (st.block i nDirect ≠ 0 → (st.inode i).indir.isSome) := by
  constructor
  · intro hreclaims hne
    by_contra hindir
    exact h.not_reclaims hlink href hne hindir hreclaims
  · intro hload
    obtain ⟨sb, st', heq, hfreed, hbmap, hfree⟩ := h.efsIUnlink_ok hlink href
    refine ⟨st', heq, fun b hb => ?_, fun k hk => ?_, ?_⟩
    · rw [hbmap, ← Bool.not_eq_true, hfreed.test]
      exact fun htest => htest.2 b (h.mem_freedBlocks_of_uses hload hb) rfl
    · rw [hbmap, Bool.eq_iff_iff, hfreed.test]
      exact and_iff_left fun b hb => hk b (h.uses_of_mem_freedBlocks hb)
    · rw [hfree, hfreed.blockFree, h.ncard_uses hload]

/-! ### A file of thirteen blocks -/

/-- The record of a file of thirteen blocks, of which the last is listed in the indirect block. -/
def thirteenBlocksRecord : DInode :=
  ⟨2, .fReg, 0, 12 * 4096 + 1, fun k => BitVec.ofNat 32 (20 + k), 1⟩

/-- The inode of this file. -/
def thirteenBlocks (indir : Option (ℕ → BitVec 32)) : MInode :=
  ⟨thirteenBlocksRecord, 0, false, true, indir⟩

/-- A superblock with all blocks marked. -/
def fullSuper : Super :=
  ⟨⟨64, 62, 128, 1, 2, 64, 0, 4096, 4, 5, easyfsMagic⟩, ⟨fun _ => 7, 64, 61, 3⟩,
    ⟨fun _ => BitVec.allOnes 64, 64, 0, 0⟩, false⟩

/-- A file system with this file, in which the block 50 is the last of the file. -/
def thirteenBlockFile (indir : Option (ℕ → BitVec 32)) : Efs where
  disk := fun a => if a = 32 * 4096 then 50 else 0
  sb := fullSuper
  dev := 0
  junk := fun _ _ => 0
  inode := fun _ => thirteenBlocks indir
  inodes := 1
  dentry := fun _ => ⟨⟨0, .fNone, fun _ => 0⟩, none, none, [], false, false⟩
  dentries := 0
  ihash := fun _ => []
  dhash := fun _ => []
  idirty := []
  ddirty := []

section thirteenBlockFile

variable {indir : Option (ℕ → BitVec 32)}
  (hpage : ∀ k, (thirteenBlocks indir).page (thirteenBlockFile indir).disk k =
    if k = 0 then 50 else 0)

include hpage

private theorem block_thirteenBlockFile (i l : ℕ) : (thirteenBlockFile indir).block i l =
    if l < nDirect then BitVec.ofNat 32 (20 + l) else if l = nDirect then 50 else 0 := by
  have haddr : thirteenBlocksRecord.addrs nDirect ≠ 0 := by decide
  change (thirteenBlocks indir).block _ l = _
  rw [MInode.block, hpage]
  by_cases hl : l < nDirect
  · rw [if_pos hl, if_pos hl]
    rfl
  · rw [if_neg hl, if_neg hl]
    by_cases hl' : l = nDirect
    · subst hl'
      rw [if_pos ⟨by decide, haddr⟩, if_pos (Nat.sub_self _), if_pos rfl]
    · rw [if_neg hl', if_neg (show ¬l - nDirect = 0 by omega), ite_self]

private theorem toNat_block_thirteenBlockFile (i l : ℕ) :
    ((thirteenBlockFile indir).block i l).toNat =
      if l < 12 then 20 + l else if l = 12 then 50 else 0 := by
  rw [block_thirteenBlockFile hpage]
  change _ = if l < nDirect then 20 + l else if l = nDirect then 50 else 0
  split_ifs with hl
  · rw [BitVec.toNat_ofNat, Nat.mod_eq_of_lt (by rw [nDirect] at hl; omega)]
  · rfl
  · rfl

private theorem toNat_of_uses {b : BitVec 32} (i : ℕ)
    (hb : ((thirteenBlockFile indir).inode i).Uses (thirteenBlockFile indir).disk b) :
    0 < b.toNat ∧ b.toNat < 64 := by
  obtain ⟨hne, rfl | ⟨l, rfl⟩⟩ := hb
  · have haddr : 0 < (thirteenBlocksRecord.addrs nDirect).toNat ∧
        (thirteenBlocksRecord.addrs nDirect).toNat < 64 := by decide
    exact haddr
  · have hpos : ((thirteenBlockFile indir).block i l).toNat ≠ 0 := fun h0 =>
      hne (BitVec.eq_of_toNat_eq h0)
    change 0 < ((thirteenBlockFile indir).block i l).toNat ∧
      ((thirteenBlockFile indir).block i l).toNat < 64
    rw [toNat_block_thirteenBlockFile hpage] at hpos ⊢
    split_ifs at hpos ⊢ <;> omega

private theorem block_ne_zero_iff (i l : ℕ) : (thirteenBlockFile indir).block i l ≠ 0 ↔ l ≤ 12 := by
  have hzero : (0 : BitVec 32).toNat = 0 := rfl
  rw [ne_eq, ← BitVec.toNat_inj, toNat_block_thirteenBlockFile hpage, hzero]
  split_ifs with h h'
  · omega
  · exact iff_of_true not_false h'.le
  · omega

private theorem intactFile_thirteenBlockFile : IntactFile (thirteenBlockFile indir) 0 where
  known := Nat.one_pos
  size := show thirteenBlocksRecord.size.toNat ≤ maxFileSize by decide
  noHoles := fun l hl => by
    rw [block_ne_zero_iff hpage]
    change l * 4096 < 12 * 4096 + 1 at hl
    omega
  indir := fun _ => show thirteenBlocksRecord.addrs nDirect ≠ 0 by decide
  distinct := fun l l' hne heq => by
    rw [block_ne_zero_iff hpage] at hne
    rw [← BitVec.toNat_inj, toNat_block_thirteenBlockFile hpage,
      toNat_block_thirteenBlockFile hpage] at heq
    split_ifs at heq <;> omega
  indirect := fun l hne heq => by
    rw [block_ne_zero_iff hpage] at hne
    rw [← BitVec.toNat_inj, toNat_block_thirteenBlockFile hpage] at heq
    change _ = 32 at heq
    split_ifs at heq <;> omega
  unshared := fun _ hj hne => absurd (Nat.lt_one_iff.1 hj) hne
  bits := show fullSuper.bmap.size < 2 ^ 31 by decide
  marked := fun b hb => by
    obtain ⟨-, hlt⟩ := toNat_of_uses hpage 0 hb
    refine ⟨by change (b.toNat : ℤ) < 64; omega, ?_⟩
    change (BitVec.allOnes 64).getLsbD (b.toNat % 64) = true
    rw [BitVec.getLsbD_allOnes, decide_eq_true_eq]
    omega
  noGaps := fun l l' hle hne => by
    rw [block_ne_zero_iff hpage] at hne ⊢
    omega
  direct := fun _ l hl => by
    rw [block_ne_zero_iff hpage]
    change l < 12 at hl
    omega
  number := show 1 < thirteenBlocksRecord.no.toInt by decide
  numbered := show thirteenBlocksRecord.no.toInt < fullSuper.imap.size ∧
    fullSuper.imap.test thirteenBlocksRecord.no.toNat = true by decide

end thirteenBlockFile

private theorem page_unloaded (k : ℕ) :
    (thirteenBlocks none).page (thirteenBlockFile none).disk k = if k = 0 then 50 else 0 := by
  have haddr : ((thirteenBlocks none).di.addrs nDirect).toNat * blockSize = 32 * 4096 := by decide
  change word32 (thirteenBlockFile none).disk _ = _
  rw [haddr]
  split_ifs with hk
  · subst hk
    decide
  · have hzero (j : ℕ) (hj : j < 4) :
        (thirteenBlockFile none).disk (32 * 4096 + 4 * k + j) = 0 := if_neg (by omega)
    rw [word32, hzero 3 (by omega), hzero 2 (by omega), hzero 1 (by omega)]
    rw [show (thirteenBlockFile none).disk (32 * 4096 + 4 * k) = 0 from hzero 0 (by omega)]
    decide

/-- If the indirect block is not in memory, a block of a deleted file stays marked. -/
theorem exists_leaked_block : ∃ st i, IntactFile st i ∧ (st.inode i).di.nlink = 1 ∧
    (st.inode i).refcnt = 0 ∧ ¬Reclaims st i ∧ (st.inode i).Uses st.disk 50 ∧
      ∃ st', efsIUnlink st i = .ok (0, st') ∧ st'.sb.bmap.test 50 = true := by
  have h := intactFile_thirteenBlockFile page_unloaded
  have hblock : (thirteenBlockFile none).block 0 nDirect = 50 :=
    block_thirteenBlockFile page_unloaded 0 12
  have hne : (thirteenBlockFile none).block 0 nDirect ≠ 0 := by
    rw [hblock]
    decide
  have hindir : ¬((thirteenBlockFile none).inode 0).indir.isSome := by decide
  obtain ⟨st', heq, htest⟩ := h.block_leaked rfl rfl hne hindir
  rw [hblock] at htest
  exact ⟨_, 0, h, rfl, rfl, h.not_reclaims rfl rfl hne hindir, hblock ▸ MInode.uses_block hne, st',
    heq, htest⟩

/-- With the indirect block in memory the thirteen blocks and the indirect block are reclaimed. -/
theorem reclaims_thirteen_blocks :
    Reclaims (thirteenBlockFile (some fun k => if k = 0 then 50 else 0)) 0 :=
  (reclaims_iff_loaded (intactFile_thirteenBlockFile fun _ => rfl) rfl rfl).2 fun _ => rfl

end RiscvLab.Fs
