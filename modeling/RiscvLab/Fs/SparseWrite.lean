import RiscvLab.Fs.FileWrite

/-!
# Writing to a file with holes

`efs_d_creat` grows the size of a directory before there is a block for the new entry, so that the
file may have a hole at its end until `efs_d_update` writes it. A write inside such a file takes the
blocks that are missing, and no others. The entries of a directory are written one after the other;
the blocks that this takes are those of one write of all of them.

## Main results

* `efsIWrite_mapped` : a write inside the file.
* `needed_add_le` : the number of blocks for two writes, one behind the other.

Source: `fs/easyfs/inode.c`, lines 119–172 and 258–286.
-/

namespace RiscvLab.Fs

open Library

variable {st st' st₁ st₁' : Efs} {i l : ℕ} {bs used : List (BitVec 32)} {offset : ℕ}
  {src : List (BitVec 8)}

theorem SameMap.supply (h : SameMap st st' i) (hs : Supply st bs) : Supply st' bs := by
  refine ⟨h.sb ▸ hs.alloc, hs.nodup, hs.ne_zero, fun b hb j hj => ?_, h.disk ▸ hs.zero⟩
  rw [h.uses]
  exact hs.unused b hb j (h.inodes ▸ hj)

/-- The data have been written in a state with the same blocks as well. -/
theorem SameMap.dataWritten (h : SameMap st₁ st' i) (hframe : MapFrame st₁ st' i)
    (hw : DataWritten st st₁ i offset src used) : DataWritten st st' i offset src used := by
  refine ⟨hw.toMapFrame.trans hframe, fun b => ?_, ?_, ?_, ?_, ?_, ?_⟩
  · rw [h.uses]
    exact hw.uses b
  · rw [h.block]
    exact hw.kept
  · rw [h.block]
    exact hw.mapped
  · rw [h.block, h.disk]
    exact hw.frame
  · rw [h.byte]
    exact hw.written
  · rw [h.byte]
    exact hw.unwritten

theorem sameMap_efsISdirty (st : Efs) (i : ℕ) :
    SameMap st (efsISdirty st i) i ∧ MapFrame st (efsISdirty st i) i := by
  have hsame : SameMap st (st.modInode i fun x => { x with dirty := true }) i :=
    .of_modInode rfl rfl
  have hframe : MapFrame st (st.modInode i fun x => { x with dirty := true }) i :=
    .modInode rfl rfl rfl fun _ _ => rfl
  rw [efsISdirty]
  split
  · exact ⟨hsame, hframe⟩
  · exact ⟨⟨hsame.disk, hsame.sb, hsame.inodes, hsame.other, hsame.addrs, hsame.indir⟩,
      ⟨hframe.inodes, hframe.other, hframe.size, hframe.no, hframe.refcnt, hframe.addrs,
        hframe.dentry, hframe.dentries, hframe.ihash⟩⟩

/-- A write inside the file, which may have holes. It takes one free block for each hole in the
range, and one for the indirect block if that is needed, and writes all bytes. -/
theorem efsIWrite_mapped {len : ℕ} (hwf : WellMapped st i) (hs : Supply st bs)
    (hn : st.needed i offset len ≤ bs.length)
    (hin : offset + len ≤ (st.inode i).di.size.toNat)
    (hmax : (st.inode i).di.size.toNat ≤ maxFileSize) (vaddr : ℕ → BitVec 8) :
    ∃ st' used rest, efsIWrite st i (BitVec.ofNat 32 offset) (BitVec.ofNat 32 len) vaddr =
        .ok (len, st') ∧ bs = used ++ rest ∧ used.length = st.needed i offset len ∧
      DataWritten st st' i offset (slice vaddr 0 len) used ∧ WellMapped st' i ∧
        Supply st' rest := by
  have hlt : maxFileSize < 2 ^ 32 := by decide
  have hoffset : (BitVec.ofNat 32 offset).toNat = offset := by
    rw [BitVec.toNat_ofNat, Nat.mod_eq_of_lt (by omega)]
  have hlen : (BitVec.ofNat 32 len).toNat = len := by
    rw [BitVec.toNat_ofNat, Nat.mod_eq_of_lt (by omega)]
  have hacc : ¬Rejected st i (BitVec.ofNat 32 offset) (BitVec.ofNat 32 len) := by
    rw [Rejected, hoffset, hlen]
    omega
  rw [rejected_iff, not_or] at hacc
  rw [efsIWrite, if_neg hacc.1, if_neg hacc.2, hoffset, hlen]
  have hslice : (slice vaddr 0 len).length = len := length_slice ..
  obtain ⟨st', used, rest, hrun, rfl, hused, hw, hwf', hs'⟩ :=
    @efsIWriteLoop_eq st i bs len offset (slice vaddr 0 len) hslice.le hwf (by omega) hs
      (by rwa [hslice])
  rw [hslice] at hrun hused
  have hsize : ¬(st'.inode i).di.size.toNat < offset + len := by
    rw [hw.size]
    omega
  obtain ⟨hsame, hframe⟩ := sameMap_efsISdirty st' i
  refine ⟨efsISdirty st' i, used, rest, ?_, rfl, hused, hsame.dataWritten hframe hw,
    hsame.wellMapped hwf', hsame.supply hs'⟩
  simp only [hrun, bind, Except.bind, if_neg hsize]
  push_cast
  rw [add_sub_cancel_left]

/-! ### Two writes -/

private theorem count_le (hkept : ∀ l, st.block i l ≠ 0 → st'.block i l = st.block i l)
    (ls : List ℕ) : (ls.filter fun l => st'.block i l = 0).length ≤
      (ls.filter fun l => st.block i l = 0).length := by
  refine (List.monotone_filter_right ls fun l hl => ?_).length_le
  rw [decide_eq_true_eq] at hl ⊢
  by_contra hne
  exact hne ((hkept l hne).symm.trans hl)

/-- The blocks for a range, taken apart at a byte inside it. -/
private theorem needed_split {m n first mid last : ℕ} (hm : m ≠ 0)
    (hfirst : offset / blockSize = first) (hmid : (offset + m - 1) / blockSize = mid)
    (hlast : (offset + (m + n) - 1) / blockSize = last) : st.needed i offset (m + n) =
      ((List.range' first (mid + 1 - first)).filter fun l => st.block i l = 0).length +
        ((List.range' (mid + 1) (last - mid)).filter fun l => st.block i l = 0).length +
          if (st.inode i).di.addrs nDirect = 0 ∧ nDirect ≤ last then 1 else 0 := by
  have hle : first ≤ mid := by
    rw [← hfirst, ← hmid]
    exact Nat.div_le_div_right (by omega)
  have hle' : mid ≤ last := by
    rw [← hmid, ← hlast]
    exact Nat.div_le_div_right (by omega)
  have hrange : List.range' first (last + 1 - first) =
      List.range' first (mid + 1 - first) ++ List.range' (mid + 1) (last - mid) := by
    rw [show last + 1 - first = mid + 1 - first + (last - mid) by omega, ← List.range'_append_1,
      show first + (mid + 1 - first) = mid + 1 by omega]
  rw [Efs.needed, if_neg (by omega)]
  simp only [hfirst, hlast, hrange, List.filter_append, List.length_append]

theorem needed_le_add {m n : ℕ} : st.needed i offset m ≤ st.needed i offset (m + n) := by
  by_cases hm : m = 0
  · rw [Efs.needed, if_pos hm]
    exact Nat.zero_le _
  have hle : (offset + m - 1) / blockSize ≤ (offset + (m + n) - 1) / blockSize :=
    Nat.div_le_div_right (by omega)
  have hbit : (if (st.inode i).di.addrs nDirect = 0 ∧ nDirect ≤ (offset + m - 1) / blockSize
      then 1 else 0) ≤ if (st.inode i).di.addrs nDirect = 0 ∧
        nDirect ≤ (offset + (m + n) - 1) / blockSize then 1 else 0 := by
    split_ifs with h h'
    · exact le_rfl
    · exact absurd ⟨h.1, h.2.trans hle⟩ h'
    · exact Nat.zero_le _
    · exact le_rfl
  rw [needed_split hm rfl rfl rfl, Efs.needed, if_neg hm]
  dsimp only
  omega

section Behind

variable {mid last : ℕ} (hw : DataWritten st st' i offset src used)
  (hmid : (offset + src.length - 1) / blockSize = mid) (hsrc : src ≠ [])

include hw hmid hsrc

private theorem block_mid_ne_zero : st'.block i mid ≠ 0 := by
  have hpos : src.length ≠ 0 := fun h => hsrc (List.length_eq_zero_iff.1 h)
  rw [← hmid]
  exact hw.mapped _ (by omega) (by omega)

/-- The second write needs no block for what the first has mapped. -/
private theorem count_behind_le (hle : mid ≤ last) :
    ((List.range' ((offset + src.length) / blockSize)
      (last + 1 - (offset + src.length) / blockSize)).filter fun l => st'.block i l = 0).length ≤
        ((List.range' (mid + 1) (last - mid)).filter fun l => st.block i l = 0).length := by
  refine le_trans ?_ (count_le hw.kept _)
  have hpos : src.length ≠ 0 := fun h => hsrc (List.length_eq_zero_iff.1 h)
  have hcase : (offset + src.length) / blockSize = mid ∨
      (offset + src.length) / blockSize = mid + 1 := by
    rw [← hmid]
    simp only [blockSize]
    omega
  rcases hcase with h | h
  · rw [h, show last + 1 - mid = last - mid + 1 by omega, List.range'_succ,
      List.filter_cons_of_neg (by simpa using block_mid_ne_zero hw hmid hsrc)]
  · rw [h, show last + 1 - (mid + 1) = last - mid by omega]

private theorem indirect_add_le (hle : mid ≤ last) :
    (if (st.inode i).di.addrs nDirect = 0 ∧ nDirect ≤ mid then 1 else 0) +
      (if (st'.inode i).di.addrs nDirect = 0 ∧ nDirect ≤ last then 1 else 0) ≤
        if (st.inode i).di.addrs nDirect = 0 ∧ nDirect ≤ last then 1 else 0 := by
  have hindirect : nDirect ≤ mid → (st'.inode i).di.addrs nDirect ≠ 0 := by
    intro hd ha
    refine block_mid_ne_zero hw hmid hsrc ?_
    rw [Efs.block, MInode.block, if_neg (by omega), if_neg fun h => h.2 ha]
  by_cases ha : (st.inode i).di.addrs nDirect = 0
  · by_cases hd : nDirect ≤ mid
    · rw [if_pos ⟨ha, hd⟩, if_neg fun h => hindirect hd h.1, if_pos ⟨ha, by omega⟩]
    · rw [if_neg fun h => hd h.2]
      by_cases hl : nDirect ≤ last
      · rw [if_pos (show _ ∧ _ from ⟨ha, hl⟩)]
        split <;> omega
      · rw [if_neg fun h => hl h.2]
        omega
  · rw [if_neg fun h => ha h.1, if_neg fun h => ha ((hw.addrs _ ha).symm.trans h.1)]
    omega

end Behind

/-- Two writes, one behind the other, take no more blocks than one: a block that both write to is
taken by the first, and so is the indirect block. -/
theorem needed_add_le {n : ℕ} (hw : DataWritten st st' i offset src used) (hsrc : src ≠ []) :
    st.needed i offset src.length + st'.needed i (offset + src.length) n ≤
      st.needed i offset (src.length + n) := by
  have hpos : src.length ≠ 0 := fun h => hsrc (List.length_eq_zero_iff.1 h)
  by_cases hn : n = 0
  · subst hn
    rw [Efs.needed, Efs.needed, Efs.needed, if_pos rfl]
    exact le_rfl
  have hle : (offset + src.length - 1) / blockSize ≤ (offset + (src.length + n) - 1) / blockSize :=
    Nat.div_le_div_right (by omega)
  have hcount := count_behind_le hw rfl hsrc hle
  have hindirect := indirect_add_le hw rfl hsrc hle
  rw [needed_split hpos rfl rfl rfl, Efs.needed, Efs.needed, if_neg hpos, if_neg hn]
  dsimp only
  rw [show offset + src.length + n - 1 = offset + (src.length + n) - 1 by omega]
  omega

end RiscvLab.Fs
