import RiscvLab.Fs.InodeRuns

/-!
# Sound file systems

In a sound file system every block that an inode in memory refers to is marked in the bitmap, lies
in the block area, and is referred to from one place only; the blocks of the block area that are not
marked hold zeros. The records of the inodes lie one behind the other before the block area. Files
may have holes, and an indirect block need not be in memory.

A call of `efs_i_write` that does not panic keeps the file system sound and touches neither the
record nor the indirect block of another inode. `efs_i_update` writes the record and the indirect
block of its inode.

## Main definitions

* `View.Sound` : the invariant.
* `View.Copied` : an inode is on the disk.

## Main results

* `View.Sound.writes`, `View.Sound.update`, `View.Sound.copied_updated`

Source: `fs/easyfs/inode.c`, lines 72–86, 119–172 and 258–286.
-/

namespace RiscvLab.Fs

open Library Relation

namespace View

variable {v v' : View} {i j k s e : ℕ} {pad : BitVec 16}

/-- The block in a slot. An indirect block that is not in memory is read from the disk. -/
def slotOn (v : View) (i : ℕ) : Slot → BitVec 32
  | .addr k => (v.di i).addrs k
  | .entry k =>
    if (v.di i).addrs nDirect = 0 then 0
    else (v.indir i).elim (v.diskPage ((v.di i).addrs nDirect) k) (· k)

/-- The blocks of the disk are used as the superblock and the bitmap say, and the inodes have
records of their own. -/
structure Sound (v : View) : Prop extends Owners (· < v.inodes) v.slotOn v.sb where
  indir : ∀ i < v.inodes, (v.indir i).isSome → (v.di i).addrs nDirect ≠ 0
  zero : ∀ b : BitVec 32, v.sb.ds.blockAreaStart.toNat ≤ b.toNat →
    v.sb.bmap.test b.toNat = false → ∀ k < blockSize, v.disk (b.toNat * blockSize + k) = 0
  arranged : v.Arranged
  number : ∀ i < v.inodes, v.IsNumber (v.di i).no
  distinct : ∀ i < v.inodes, ∀ j < v.inodes, (v.di i).no = (v.di j).no → i = j

/-- The record of the inode and its indirect block, if it is in memory, are on the disk. -/
structure Copied (v : View) (i : ℕ) : Prop where
  record : Recorded v.disk v.sb.ds (v.di i).no (v.di i)
  page : ∀ blk, v.indir i = some blk →
    diskWords v.disk (((v.di i).addrs nDirect).toNat * blockSize) nIndirect = pageWords blk

theorem Copied.congr (h : v.Copied j) (hdi : v'.di j = v.di j) (hindir : v'.indir j = v.indir j)
    (hds : v.sb.ds.SamePlaces v'.sb.ds)
    (hrecord : ∀ k < dInodeSize, v'.disk (inodeAddr v.sb.ds (v.di j).no + k) =
      v.disk (inodeAddr v.sb.ds (v.di j).no + k))
    (hpage : (v.indir j).isSome → ∀ k < blockSize,
      v'.disk (((v.di j).addrs nDirect).toNat * blockSize + k) =
        v.disk (((v.di j).addrs nDirect).toNat * blockSize + k)) : v'.Copied j := by
  refine ⟨?_, fun blk hblk => ?_⟩
  · rw [hdi]
    exact h.record.congr hds hrecord
  · rw [hindir] at hblk
    rw [hdi, ← h.page blk hblk]
    exact diskWords_congr (hpage (by rw [hblk]; rfl))

namespace Sound

theorem slotOn_congr {t : Slot} (hdi : v'.di j = v.di j) (hindir : v'.indir j = v.indir j)
    (hdisk : v'.disk = v.disk) : v'.slotOn j t = v.slotOn j t := by
  cases t with
  | addr m => rw [slotOn, slotOn, hdi]
  | entry m => rw [slotOn, slotOn, hdi, hindir, diskPage, diskPage, hdisk]

variable (h : v.Sound)

include h

theorem lt_area (hi : i < v.inodes) :
    inodeAddr v.sb.ds (v.di i).no + dInodeSize ≤ v.sb.ds.blockAreaStart.toNat * blockSize := by
  have hfits := h.arranged.fits _ (h.number i hi)
  rw [← h.arranged.addr _ (h.number i hi)] at hfits
  exact hfits.trans (Nat.mul_le_mul_right _ h.arranged.laid.barea)

theorem page_area (hi : i < v.inodes) (hsome : (v.indir i).isSome) :
    v.sb.ds.blockAreaStart.toNat ≤ ((v.di i).addrs nDirect).toNat :=
  h.area i pageSlot hi (h.indir i hi hsome)

/-! ### Writing to the disk -/

/-- Neither an indirect block that is not in memory nor a free block is written to. -/
theorem setDisk {disk : Disk}
    (hpage : ∀ j < v.inodes, (v.di j).addrs nDirect ≠ 0 → v.indir j = none → ∀ k < blockSize,
      disk (((v.di j).addrs nDirect).toNat * blockSize + k) =
        v.disk (((v.di j).addrs nDirect).toNat * blockSize + k))
    (hfree : ∀ b : BitVec 32, v.sb.ds.blockAreaStart.toNat ≤ b.toNat →
      v.sb.bmap.test b.toNat = false → ∀ k < blockSize,
        disk (b.toNat * blockSize + k) = v.disk (b.toNat * blockSize + k)) :
    { v with disk := disk }.Sound := by
  have hslot (j : ℕ) (t : Slot) (hj : j < v.inodes) :
      { v with disk := disk }.slotOn j t = v.slotOn j t := by
    cases t with
    | addr m => rfl
    | entry m =>
      rw [slotOn, slotOn]
      dsimp only
      split_ifs with hzero
      · rfl
      cases hindir : v.indir j with
      | some blk => rw [Option.elim_some, Option.elim_some]
      | none =>
        rw [Option.elim_none, Option.elim_none, diskPage, diskPage]
        refine word32_congr fun n hn => ?_
        have hlt : 4 * (m : ℕ) + n < blockSize := by
          have hm := m.isLt
          simp only [nIndirect, blockSize] at hm ⊢
          omega
        rw [Nat.add_assoc]
        exact hpage j hj hzero hindir _ hlt
  exact { h with
    toOwners := h.toOwners.congr (fun j t hj _ => ⟨hj, hslot j t hj⟩) rfl rfl
    zero := fun b hb hclear k hk => (hfree b hb hclear k hk).trans (h.zero b hb hclear k hk)
    arranged := h.arranged.congr .refl rfl }

/-- Bytes are written to a block that is in a slot of the inode `i`, but is no indirect block. -/
theorem patchSlot {t : Slot} {off : ℕ} {src : List (BitVec 8)} (hi : i < v.inodes)
    (ht : t ≠ pageSlot) (hne : v.slotOn i t ≠ 0) (hoff : off + src.length ≤ blockSize) :
    { v with
      disk := patch v.disk ((v.slotOn i t).toNat * blockSize + off) src }.Sound := by
  refine h.setDisk (fun j hj haddr _ k hk => patch_of_block_ne (fun heq => ?_) hoff hk)
    fun b _ hclear k hk => patch_of_block_ne ?_ hoff hk
  · exact ht (h.unique j i pageSlot t hj hi haddr heq).2.symm
  · rintro rfl
    have := h.marked i t hi hne
    rw [hclear] at this
    cases this

/-- `efs_i_update` keeps the file system sound: it writes to the inode area only, and to the record
of the one inode there. -/
theorem update (hi : i < v.inodes) : { v with disk := v.updatedDisk i pad }.Sound := by
  have hslot (hsome : (v.indir i).isSome) : v.slotOn i pageSlot ≠ 0 := h.indir i hi hsome
  refine h.setDisk (fun j hj haddr hnone k hk => ?_) fun b hb hclear k hk => ?_
  · refine h.arranged.updatedDisk_of_ne (h.number i hi) (h.area j pageSlot hj haddr)
      (fun hsome heq => ?_) hk
    obtain ⟨rfl, -⟩ := h.unique j i pageSlot pageSlot hj hi haddr heq
    rw [hnone] at hsome
    cases hsome
  · refine h.arranged.updatedDisk_of_ne (h.number i hi) hb (fun hsome heq => ?_) hk
    have := h.marked i pageSlot hi (hslot hsome)
    rw [show v.slotOn i pageSlot = b from heq.symm, hclear] at this
    cases this

/-- After `efs_i_update` the inode is on the disk, that is to say, its record there is the inode in
memory. -/
theorem copied_updated (hi : i < v.inodes) : { v with disk := v.updatedDisk i pad }.Copied i := by
  refine ⟨h.arranged.recorded_updated (h.number i hi) (h.page_area hi), fun blk hblk => ?_⟩
  have hblk' : v.indir i = some blk := hblk
  dsimp only
  rw [View.updatedDisk, hblk', ← length_pageWords blk]
  exact diskWords_patch ..

/-- The other inodes on the disk stay the same. -/
theorem copied_updated_of_ne (hi : i < v.inodes) (hj : j < v.inodes) (hji : j ≠ i)
    (hcopied : v.Copied j) : { v with disk := v.updatedDisk i pad }.Copied j := by
  refine hcopied.congr rfl rfl .refl (fun k => ?_) fun hsome k hk => ?_
  · exact h.arranged.updatedDisk_record (h.number i hi) (h.page_area hi) (h.number j hj)
      fun heq => hji (h.distinct j hj i hi heq)
  · refine h.arranged.updatedDisk_of_ne (h.number i hi) (h.page_area hj hsome)
      (fun _ heq => ?_) hk
    exact hji (h.unique j i pageSlot pageSlot hj hi (h.indir j hj hsome) heq).1

/-! ### Taking a block -/

/-- The inode is changed, but not where its file and its record are. -/
theorem setDi {f : DInode → DInode} (hno : (f (v.di i)).no = (v.di i).no)
    (haddrs : (f (v.di i)).addrs = (v.di i).addrs) : ((v.modDi i f).iSdirty i).Sound := by
  have hno' := modDi_congr (v := v) DInode.no hno
  have haddrs' := modDi_congr (v := v) DInode.addrs haddrs
  have hslot (j : ℕ) (t : Slot) : ((v.modDi i f).iSdirty i).slotOn j t = v.slotOn j t := by
    cases t with
    | addr m => exact congrFun (haddrs' j) m
    | entry m =>
      rw [slotOn, slotOn]
      simp only [View.iSdirty, diskPage, haddrs']
      rfl
  refine ⟨h.toOwners.congr (fun j t hj _ => ⟨hj, hslot j t⟩) rfl rfl, fun j hj => ?_, h.zero,
    h.arranged.congr .refl rfl, fun j hj => ?_, fun j hj j' hj' heq => ?_⟩
  · simp only [View.iSdirty, haddrs']
    exact h.indir j hj
  · simp only [View.iSdirty, hno']
    exact h.number j hj
  · simp only [View.iSdirty, hno'] at heq
    exact h.distinct j hj j' hj' heq

/-- A block is taken for the slot `t` of the inode `i`. -/
theorem take {t : Slot} {no : ℤ} (hframe : FileFrame i v v') (hdisk : v'.disk = v.disk)
    (halloc : efsBmapAlloc v.sb = .ok (no, v'.sb)) (hself : v'.slotOn i t = BitVec.ofInt 32 no)
    (hother : ∀ u ≠ t, v'.slotOn i u = v.slotOn i u)
    (hindir : (v'.indir i).isSome → (v'.di i).addrs nDirect ≠ 0) : v'.Sound := by
  obtain ⟨-, -, -, hgrab, hds⟩ := h.guarded.alloc halloc
  have howners : Owners (· < v.inodes) v'.slotOn v'.sb := by
    refine h.toOwners.take halloc hself fun j u _ hju => ?_
    by_cases hji : j = i
    · subst hji
      exact hother u (hju.resolve_left (by simp))
    · exact slotOn_congr (hframe.other j hji).1 (hframe.other j hji).2 hdisk
  rw [← hframe.inodes] at howners
  refine ⟨howners, fun j hj => ?_, fun b hb hclear k hk => ?_,
    h.arranged.congr hframe.samePlaces (by rw [hframe.imap]), fun j hj => ?_,
    fun j hj j' hj' hno => ?_⟩
  · by_cases hji : j = i
    · subst hji
      exact hindir
    · rw [(hframe.other j hji).1, (hframe.other j hji).2]
      exact h.indir j (hframe.inodes ▸ hj)
  · rw [hds] at hb
    rw [hgrab, Bitmap.test_grab, Bool.or_eq_false_iff] at hclear
    rw [hdisk]
    exact h.zero b hb hclear.2 k hk
  · rw [IsNumber, hframe.no, hframe.imap]
    exact h.number j (hframe.inodes ▸ hj)
  · rw [hframe.no, hframe.no] at hno
    exact h.distinct j (hframe.inodes ▸ hj) j' (hframe.inodes ▸ hj') hno

/-! ### A write -/

/-- A block of a file is in a slot, and is no indirect block. -/
theorem exists_slotOn_of_maps {b : BitVec 32} (hi : i < v.inodes) (hmaps : v.Maps i b) :
    ∃ t ≠ pageSlot, v.slotOn i t = b := by
  rcases hmaps with ⟨k, hk, rfl⟩ | ⟨blk, hblk, k, hk, rfl⟩
  · refine ⟨.addr ⟨k, Nat.lt_succ_of_lt hk⟩, ?_, rfl⟩
    simp [pageSlot, hk.ne]
  · refine ⟨.entry ⟨k, hk⟩, by simp [pageSlot], ?_⟩
    rw [slotOn, if_neg (h.indir i hi (by rw [hblk]; rfl)), hblk]
    rfl

theorem mapStep (hi : i < v.inodes) (hstep : MapStep i s e v v') : v'.Sound := by
  have hframe := hstep.fileFrame
  cases hstep with
  | @direct k no sb hs hk hzero halloc =>
    refine h.take (t := .addr ⟨k, Nat.lt_succ_of_lt hk⟩) hframe rfl halloc ?_ (fun u hu => ?_) ?_
    · simp [slotOn, setAddr, modDi]
    · cases u with
      | addr m =>
        have hm : (m : ℕ) ≠ k := by
          rintro rfl
          exact hu rfl
        simp [slotOn, setAddr, modDi, hm]
      | entry m => simp [slotOn, setAddr, modDi, hk.ne', diskPage]
    · simpa [setAddr, modDi, hk.ne'] using h.indir i hi
  | @indirect no sb he hfull hzero halloc =>
    obtain ⟨hclear, harea, hne, -, -⟩ := h.guarded.alloc halloc
    have hnone : v.indir i = none := by
      by_contra hsome
      exact h.indir i hi (Option.isSome_iff_ne_none.2 hsome) hzero
    refine h.take (t := pageSlot) hframe rfl halloc ?_ (fun u hu => ?_) fun _ => ?_
    · simp [slotOn, pageSlot, setAddr, setIndir, modDi]
    · cases u with
      | addr m =>
        have hm : (m : ℕ) ≠ nDirect := by
          intro hm
          exact hu (congrArg Slot.addr (Fin.ext hm))
        simp [slotOn, setAddr, setIndir, modDi, hm]
      | entry m =>
        -- a free block holds zeros
        have hpage : v.diskPage (BitVec.ofInt 32 no) m = 0 := by
          have hm := m.isLt
          refine word32_eq_zero fun n hn => ?_
          rw [Nat.add_assoc]
          refine h.zero _ harea hclear _ ?_
          simp only [nIndirect, blockSize] at hm ⊢
          omega
        simp [slotOn, setAddr, setIndir, modDi, hzero, hnone, hpage]
    · simpa [setAddr, setIndir, modDi] using hne
  | load haddr hindir =>
    have hslot (j : ℕ) (t : Slot) :
        (v.setIndir i (v.diskPage ((v.di i).addrs nDirect))).slotOn j t = v.slotOn j t := by
      by_cases hji : j = i
      · subst hji
        cases t with
        | addr m => rfl
        | entry m => simp [slotOn, setIndir, hindir, diskPage]
      · exact slotOn_congr rfl (hframe.other j hji).2 rfl
    exact { h with
      toOwners := h.toOwners.congr (fun j t hj _ => ⟨hj, hslot j t⟩) rfl rfl
      arranged := h.arranged.congr .refl rfl
      indir := fun j hj => by
        by_cases hji : j = i
        · subst hji
          exact fun _ => haddr
        · rw [(hframe.other j hji).2]
          exact h.indir j hj }
  | @page blk k no sb hk hindir hzero halloc =>
    have haddr : (v.di i).addrs nDirect ≠ 0 := h.indir i hi (by rw [hindir]; rfl)
    refine h.take (t := .entry ⟨k, hk⟩) hframe rfl halloc ?_ (fun u hu => ?_) fun _ => haddr
    · simpa [slotOn, setIndir] using fun hzero => absurd hzero haddr
    · cases u with
      | addr m => rfl
      | entry m =>
        have hm : (m : ℕ) ≠ k := by
          rintro rfl
          exact hu rfl
        simp [slotOn, setIndir, hindir, hm]
  | data hb hmaps hoff =>
    obtain ⟨t, ht, rfl⟩ := h.exists_slotOn_of_maps hi hmaps
    exact h.patchSlot hi ht hb hoff

/-- A step of a write changes no other inode on the disk. -/
theorem copied_mapStep (hi : i < v.inodes) (hj : j < v.inodes) (hji : j ≠ i)
    (hstep : MapStep i s e v v') (hcopied : v.Copied j) : v'.Copied j := by
  have hframe := hstep.fileFrame
  obtain ⟨hdi, hindir⟩ := hframe.other j hji
  cases hstep with
  | @data b off src hb hmaps hoff =>
    obtain ⟨t, ht, rfl⟩ := h.exists_slotOn_of_maps hi hmaps
    refine hcopied.congr rfl rfl .refl (fun k hk => patch_of_lt ?_) fun hsome k hk =>
      patch_of_block_ne (fun heq => ?_) hoff hk
    · have hrecord := h.lt_area hj
      have harea := Nat.mul_le_mul_right blockSize (h.area i t hi hb)
      omega
    · exact hji (h.unique j i pageSlot t hj hi (h.indir j hj hsome) heq).1
  | _ => exact hcopied.congr hdi hindir hframe.samePlaces (fun _ _ => rfl) fun _ _ _ => rfl

/-- A write keeps the file system sound, and changes no other inode on the disk. -/
theorem writes (hi : i < v.inodes) (hwrites : v.Writes i s e v') :
    v'.Sound ∧ ∀ j < v.inodes, j ≠ i → v.Copied j → v'.Copied j := by
  cases hwrites with
  | rejected => exact ⟨h, fun _ _ _ hcopied => hcopied⟩
  | @written v₁ size hsteps hsize =>
    have hsteps' : v₁.Sound ∧ ∀ j < v.inodes, j ≠ i → v.Copied j → v₁.Copied j := by
      induction hsteps with
      | refl => exact ⟨h, fun _ _ _ hcopied => hcopied⟩
      | tail hsteps hstep ih =>
        have hinodes := (fileFrame_of_mapSteps hsteps).1.inodes
        refine ⟨ih.1.mapStep (hinodes ▸ hi) hstep, fun j hj hji hcopied => ?_⟩
        exact ih.1.copied_mapStep (hinodes ▸ hi) (hinodes ▸ hj) hji hstep (ih.2 j hj hji hcopied)
    refine ⟨hsteps'.1.setDi rfl rfl, fun j hj hji hcopied => ?_⟩
    exact (hsteps'.2 j hj hji hcopied).congr (Function.update_of_ne hji ..) rfl .refl
      (fun _ _ => rfl) fun _ _ _ => rfl

end Sound

end View

end RiscvLab.Fs
