import RiscvLab.Fs.Mount

/-!
# Formatting a used disk

`mkfs` clears four blocks: that of the superblock, and the first ones of the inode bitmap, of the
inodes and of the block bitmap. The mount reads all blocks of the two bitmaps. The block bitmap has
more than one as soon as the disk has more than 32768 blocks, and then the kernel takes over what
the disk held before (`formatIndependent_iff`). On still larger disks the bitmaps are larger than
their pages; the kernel reads them all the same.

## Main definitions

* `IsImage` : a disk image of a given size.
* `SameMount` : the states after two mounts agree.
* `FormatIndependent` : mounting a disk that has been formatted does not depend on what the disk
  held before.

Source: `tools/mkfs.c`; `fs/easyfs/super.c`, lines 16–36; `fs/easyfs/inode.c`, lines 405–421.
-/

namespace RiscvLab.Fs

open Library

/-- The image has `diskSize` bytes after block 0; there is nothing behind them. -/
def IsImage (diskSize : ℕ) (disk : Disk) : Prop := ∀ a, blockSize + diskSize ≤ a → disk a = 0

/-- Two inodes in memory agree in all fields. -/
structure SameInode (x y : MInode) : Prop where
  no : x.di.no = y.di.no
  type : x.di.type = y.di.type
  devno : x.di.devno = y.di.devno
  size : x.di.size = y.di.size
  addrs : ∀ k ≤ nDirect, x.di.addrs k = y.di.addrs k
  nlink : x.di.nlink = y.di.nlink
  refcnt : x.refcnt = y.refcnt
  dirty : x.dirty = y.dirty
  valid : x.valid = y.valid
  indir : x.indir = y.indir

/-- Two mounted file systems have the same superblock, the same bits in the bitmaps and the same
root inode. -/
structure SameMount (st st' : Efs) : Prop where
  ds : st.sb.ds = st'.sb.ds
  imap : ∀ k : ℕ, (k : ℤ) < st.sb.ds.inodeCount.toInt → st.sb.imap.test k = st'.sb.imap.test k
  bmap : ∀ k : ℕ, (k : ℤ) < st.sb.ds.blockCount.toInt → st.sb.bmap.test k = st'.sb.bmap.test k
  root : SameInode (st.inode 0) (st'.inode 0)

/-- Two mounts stop in the same way, or build the same state. -/
def SameResult : Except Panic Efs → Except Panic Efs → Prop
  | .ok st, .ok st' => SameMount st st'
  | .error p, .error p' => p = p'
  | _, _ => False

/-- The mount of a formatted disk does not depend on what the disk held before, nor on what was in
memory. -/
def FormatIndependent (diskSize : ℕ) : Prop :=
  ∀ disk disk' formatted formatted', IsImage diskSize disk → IsImage diskSize disk' →
    mkfs disk diskSize = some formatted → mkfs disk' diskSize = some formatted' →
      ∀ dev ipages bpages junk ipages' bpages' junk',
        SameResult (efsMount formatted dev ipages bpages junk)
          (efsMount formatted' dev ipages' bpages' junk')

section

variable {disk disk' : Disk} {diskSize : ℕ} {ipages bpages ipages' bpages' : ℕ → BitVec 64}
  {dev : BitVec 16} {junk : ℕ → ℕ → BitVec 8} {k : ℕ}

/-- With one block of block bitmap, the bitmaps fit. -/
theorem fits_of_le (h : blockAreaStart diskSize ≤ blockSize)
    (htotal : totalBlocks diskSize ≤ 32768) : Fits diskSize := by
  obtain ⟨-, hinodes⟩ := inodeCount_of_le h
  exact ⟨by omega, by omega⟩

theorem efsMount_of_no_inodes (hfits : Fits diskSize) (hlt : blockAreaStart diskSize < 2 ^ 20)
    (h₀ : inodeCount diskSize = 0) :
    efsMount (formatted disk diskSize) dev ipages bpages junk = .error .rootInode := by
  obtain ⟨-, -, h₃⟩ := layout_eqs diskSize
  have hsb := @efsSbInit_formatted disk diskSize ipages bpages hlt
  have hno : (DInode.read (formatted disk diskSize)
      (inodeAddr (mounted disk ipages bpages diskSize).ds 1)).no ≠ 1 := by
    rw [mounted_ds, inodeAddr_easySb (by omega), DInode.read, no_rootInode hfits h₀]
    exact (by decide : (0 : BitVec 32) ≠ 1)
  have hroot : efsIRootInit (.blank (formatted disk diskSize) (mounted disk ipages bpages diskSize)
      dev junk) = .error .rootInode := by
    simp only [efsIRootInit, Efs.blank]
    exact if_pos hno
  simp only [efsMount, hsb, bind, Except.bind, hroot]

/-- The inode bitmap after mount: only the root is allocated. -/
theorem test_mounted_imap (hfits : Fits diskSize) (hlt : blockAreaStart diskSize < 2 ^ 20)
    (hpos : 0 < inodeCount diskSize) (hk : (k : ℤ) < (easySb diskSize).inodeCount.toInt) :
    (mounted disk ipages bpages diskSize).imap.test k = decide (k = 1) := by
  have hk' : k < 32768 := by
    have := inodeCount_lt hfits hpos
    omega
  rw [mounted_imap, test_bitmapResetUnused,
    (test_bitmapResetAllo (.inl (by rw [rawImap_size]; exact hk))).2,
    test_rawImap hlt (inodeMapBlocks_eq_one hfits hpos) hk']

/-- The block bitmap after mount is that on the disk. -/
theorem test_mounted_bmap (htotal : totalBlocks diskSize ≤ 2 ^ 27)
    (hk : (k : ℤ) < (easySb diskSize).blockCount.toInt) :
    (mounted disk ipages bpages diskSize).bmap.test k =
      (formatted disk diskSize ((blockMapStart diskSize + k / 32768) * blockSize +
        k / 8 % blockSize)).getLsbD (k % 8) := by
  have hk' : k < 32768 * dataMapBlocks diskSize := by
    rw [toInt_blockCount_of_le htotal] at hk
    simp only [dataMapBlocks, ceilDiv, blockSize]
    omega
  have haddr : blockMapStart diskSize * blockSize + k / 8 =
      (blockMapStart diskSize + k / 32768) * blockSize + k / 8 % blockSize := by
    simp only [blockSize]
    omega
  rw [mounted_bmap, test_bitmapResetUnused,
    (test_bitmapResetAllo (.inl (by rw [rawBmap_size]; exact hk))).2,
    test_readWords (b := rawBmap disk bpages diskSize) rfl hk', haddr]

/-- The root inode is read from a block that `mkfs` has written. -/
theorem sameInode_formatted (hfits : Fits diskSize) (hlt : blockAreaStart diskSize < 2 ^ 20)
    (hpos : 0 < inodeCount diskSize) {refcnt : BitVec 32} {dirty valid : Bool}
    {indir : Option (ℕ → BitVec 32)} :
    SameInode
      ⟨.read (formatted disk diskSize) (inodeAreaStart diskSize * blockSize + 4 * 32), refcnt,
        dirty,
        valid, indir⟩
      ⟨.read (formatted disk' diskSize) (inodeAreaStart diskSize * blockSize + 4 * 32), refcnt,
        dirty,
        valid, indir⟩ := by
  obtain ⟨-, -, h₃⟩ := layout_eqs diskSize
  have hword : ∀ w < 18,
      word32 (formatted disk diskSize) (inodeAreaStart diskSize * blockSize + 4 * 32 + 4 * w) =
        word32 (formatted disk' diskSize)
          (inodeAreaStart diskSize * blockSize + 4 * 32 + 4 * w) := by
    intro w hw
    have hw' : 32 + w < rootInode.length := by
      rw [show rootInode.length = 50 from rfl]
      omega
    have harea := inodeAreaBlocks_pos hfits hpos
    rw [Nat.add_assoc, ← Nat.mul_add, word32_rootInode (by omega) harea hw',
      word32_rootInode (by omega) harea hw']
  refine ⟨hword 0 (by decide), congrArg FileType.ofWord (hword 1 (by decide)),
    congrArg (BitVec.setWidth 16) (hword 2 (by decide)), hword 3 (by decide), fun k hk => ?_,
    hword 17 (by decide), rfl, rfl, rfl, rfl⟩
  have hk' : k ≤ 12 := hk
  simpa only [DInode.read, Nat.add_assoc, Nat.mul_add] using hword (4 + k) (by omega)

/-- With one block of block bitmap, nothing of the old contents is read. -/
theorem sameResult_formatted (hmkfs : blockAreaStart diskSize ≤ blockSize)
    {junk' : ℕ → ℕ → BitVec 8} (hone : totalBlocks diskSize ≤ 32768) :
    SameResult (efsMount (formatted disk diskSize) dev ipages bpages junk)
      (efsMount (formatted disk' diskSize) dev ipages' bpages' junk') := by
  have hfits := fits_of_le hmkfs hone
  have hlt : blockAreaStart diskSize < 2 ^ 20 := hmkfs.trans_lt (by decide)
  rcases Nat.eq_zero_or_pos (inodeCount diskSize) with h₀ | hpos
  · rw [efsMount_of_no_inodes hfits hlt h₀, efsMount_of_no_inodes hfits hlt h₀]
    rfl
  obtain ⟨-, -, h₃⟩ := layout_eqs diskSize
  have harea := inodeAreaBlocks_pos hfits hpos
  obtain ⟨st, hst, hsb, hroot⟩ := @efsMount_formatted disk _ dev ipages bpages junk hlt harea
  obtain ⟨st', hst', hsb', hroot'⟩ :=
    @efsMount_formatted disk' _ dev ipages' bpages' junk' hlt harea
  rw [hst, hst']
  refine ⟨?_, fun k hk => ?_, fun k hk => ?_, ?_⟩
  · rw [hsb, hsb', mounted_ds, mounted_ds]
  · rw [hsb, mounted_ds] at hk
    rw [hsb, hsb', test_mounted_imap hfits hlt hpos hk, test_mounted_imap hfits hlt hpos hk]
  · rw [hsb, mounted_ds] at hk
    have htotal : totalBlocks diskSize ≤ 2 ^ 27 := by omega
    have hblock : blockMapStart diskSize + k / 32768 = blockMapStart diskSize := by
      rw [toInt_blockCount_of_le htotal] at hk
      omega
    have hi : k / 8 % blockSize < blockSize := Nat.mod_lt _ (by decide)
    rw [hsb, hsb', test_mounted_bmap htotal hk, test_mounted_bmap htotal hk, hblock,
      formatted_apply (by omega) hi, formatted_apply (by omega) hi, if_pos rfl, if_pos rfl]
  · rw [hroot, hroot']
    exact sameInode_formatted hfits hlt hpos

/-- A bit in the second block of the block bitmap survives. -/
theorem not_formatIndependent (hmkfs : blockAreaStart diskSize ≤ blockSize)
    (htotal : 32768 < totalBlocks diskSize) : ¬ FormatIndependent diskSize := by
  intro h
  obtain ⟨hle, hinodes⟩ := inodeCount_of_le hmkfs
  have hbs : blockSize = 4096 := rfl
  have h₁ : inodeAreaStart diskSize = inodeMapStart + inodeMapBlocks diskSize := rfl
  obtain ⟨-, h₂, h₃⟩ := layout_eqs diskSize
  have hms : inodeMapStart = 2 := rfl
  have hsl : superBlockLocation = 1 := rfl
  have hlt : blockAreaStart diskSize < 2 ^ 20 := by omega
  have harea : 0 < inodeAreaBlocks diskSize := by
    have h₄ : inodeAreaBlocks diskSize = (inodeCount diskSize * 128 % 2 ^ 32 + 4095) / 4096 := rfl
    omega
  let a := (blockMapStart diskSize + 1) * blockSize + 0
  let used : Disk := Function.update (fun _ => 0) a 1
  have hused : IsImage diskSize used := by
    intro b hb
    have hsize : totalBlocks diskSize ≤ diskSize / blockSize := Nat.mod_le _ _
    have hne : b ≠ a := by
      rw [hbs] at hsize hb hmkfs
      simp only [a, hbs]
      omega
    exact Function.update_of_ne hne _ _
  have hsome : ∀ disk, mkfs disk diskSize = some (formatted disk diskSize) := fun disk =>
    if_neg (by rw [hbs] at hmkfs ⊢; omega)
  have hres := h _ _ _ _ (fun _ _ => rfl) hused (hsome _) (hsome _) 0 (fun _ => 0) (fun _ => 0)
    (fun _ _ => 0) (fun _ => 0) (fun _ => 0) (fun _ _ => 0)
  obtain ⟨st, hst, hsb, -⟩ := @efsMount_formatted (fun _ => 0) _ 0 (fun _ => 0) (fun _ => 0)
    (fun _ _ => 0) hlt harea
  obtain ⟨st', hst', hsb', -⟩ := @efsMount_formatted used _ 0 (fun _ => 0) (fun _ => 0)
    (fun _ _ => 0) hlt harea
  rw [hst, hst'] at hres
  have hk : ((32768 : ℕ) : ℤ) < (easySb diskSize).blockCount.toInt := by
    rw [toInt_blockCount_of_le hle]
    omega
  have hbit := hres.bmap 32768 (by rw [hsb, mounted_ds]; exact hk)
  have hnone : ∀ disk : Disk, formatted disk diskSize a = disk a := fun disk => by
    rw [formatted_apply (by omega) (by decide), if_neg (by omega), if_neg (by omega),
      if_neg (by omega), if_neg (by omega)]
  rw [hsb, hsb', test_mounted_bmap hle hk, test_mounted_bmap hle hk] at hbit
  change (formatted _ diskSize a).getLsbD 0 = (formatted _ diskSize a).getLsbD 0 at hbit
  rw [hnone, hnone] at hbit
  simp [used] at hbit

end

/-- For every disk that `mkfs` can format: the mount is independent of what the disk held before if
and only if the block bitmap has one block. -/
theorem formatIndependent_iff {diskSize : ℕ} (hmkfs : blockAreaStart diskSize ≤ blockSize) :
    FormatIndependent diskSize ↔ totalBlocks diskSize ≤ 32768 := by
  have hbs : blockSize = 4096 := rfl
  have hsome : ∀ disk, mkfs disk diskSize = some (formatted disk diskSize) := fun disk =>
    if_neg (by rw [hbs] at hmkfs ⊢; omega)
  constructor
  · intro h
    by_contra hcon
    exact not_formatIndependent hmkfs (Nat.not_le.1 hcon) h
  · intro h disk disk' d d' _ _ hd hd' dev ipages bpages junk ipages' bpages' junk'
    obtain rfl := Option.some.inj ((hsome disk).symm.trans hd)
    obtain rfl := Option.some.inj ((hsome disk').symm.trans hd')
    exact sameResult_formatted hmkfs h

/-- A disk of a thousand blocks. -/
theorem formatIndependent_1000 : FormatIndependent (1000 * 4096) :=
  (formatIndependent_iff (by decide)).2 (by decide)

/-- On a disk of 40000 blocks the block bitmap has two blocks. -/
theorem not_formatIndependent_40000 : ¬ FormatIndependent (40000 * 4096) :=
  not_formatIndependent (by decide) (by decide)

end RiscvLab.Fs
