import RiscvLab.Fs.Mounted
import RiscvLab.Library.Except
import RiscvLab.Library.Reachable

/-!
# Writing back the superblock

The allocators of the superblock run under `s_lock` and set `S_DIRTY`. The thread `efs_sync` tests
the flag under the lock, and writes the superblock, the inode bitmap and the block bitmap without
it; then it clears the flag under the lock. What an allocator changes after it has been written, and
before the flag is cleared, is neither on the disk nor marked (`exists_lost_alloc`). All of them
change the superblock, which is written first: nothing is lost if none of them runs between this
write and the clearing of the flag (`onDisk_of_reachable`).

The three writes are one step each. The disk is a store of bytes; the superblock must give the
bitmaps places that do not overlap (`Laid`).

## Main definitions

* `SyncState`, `SyncEvent`, `SyncStep` : the allocators and the thread `efs_sync`.
* `OnDisk` : what a mount would read is what is in memory.
* `OutsideWrites` : the calls that do not fall between the writes.

Source: `fs/easyfs/super.c`, lines 96–115 and 182–222.
-/

namespace RiscvLab.Fs

open Library

/-! ### The writes -/

/-- The bit `k` of a bitmap that starts with the block `start`. -/
def diskBit (disk : Disk) (start k : ℕ) : Bool :=
  (disk (start * blockSize + k / 8)).getLsbD (k % 8)

/-- `blk_write_count` of `count` blocks from the words `map`. -/
def writeWords (disk : Disk) (map : ℕ → BitVec 64) (start count : ℕ) : Disk := fun a =>
  if start * blockSize ≤ a ∧ a < (start + count) * blockSize then
    let i := a - start * blockSize
    (map (i / 8)).extractLsb' (8 * (i % 8)) 8
  else disk a

/-- The words of the name on the disk, which nothing changes. -/
def diskName (disk : Disk) : List (BitVec 32) :=
  (List.range' 10 4).map fun i => word32 disk (superBlockLocation * blockSize + 4 * i)

/-- `blk_write` of `s_ds`. -/
def writeSuper (disk : Disk) (ds : DSuper) : Disk :=
  patch disk (superBlockLocation * blockSize) ((ds.words (diskName disk)).flatMap bytes32)

/-- The superblock gives the bitmaps their places, one behind the other. -/
structure Laid (ds : DSuper) : Prop where
  imap : superBlockLocation < ds.inodeMapStart.toNat
  iarea : ds.inodeMapStart.toNat ≤ ds.inodeAreaStart.toNat
  bmap : ds.inodeAreaStart.toNat ≤ ds.blockMapStart.toNat
  barea : ds.blockMapStart.toNat ≤ ds.blockAreaStart.toNat
  inodes : ds.inodeCount.toInt ≤
    32768 * (ds.inodeAreaStart.toNat - ds.inodeMapStart.toNat : ℕ)
  blocks : ds.blockCount.toInt ≤
    32768 * (ds.blockAreaStart.toNat - ds.blockMapStart.toNat : ℕ)

section Writes

variable {disk : Disk} {map : ℕ → BitVec 64} {ds : DSuper} {start count start' k : ℕ}

theorem read_writeSuper : DSuper.read (writeSuper disk ds) = ds :=
  DSuper.read_patch disk ds rfl

theorem diskBit_writeWords (hk : k < 32768 * count) :
    diskBit (writeWords disk map start count) start k = (map (k / 64)).getLsbD (k % 64) := by
  have hin : start * blockSize ≤ start * blockSize + k / 8 ∧
      start * blockSize + k / 8 < (start + count) * blockSize := by
    simp only [blockSize]
    omega
  rw [diskBit, writeWords, if_pos hin]
  simp only [Nat.add_sub_cancel_left]
  rw [BitVec.getLsbD_extractLsb', decide_eq_true (by omega), Bool.true_and,
    show k / 8 / 8 = k / 64 by omega, show 8 * (k / 8 % 8) + k % 8 = k % 64 by omega]

/-- A bitmap is not touched by a write behind it or before it. -/
theorem diskBit_writeWords_of_apart {count' : ℕ} (hk : k < 32768 * count')
    (h : start' + count' ≤ start ∨ start + count ≤ start') :
    diskBit (writeWords disk map start count) start' k = diskBit disk start' k := by
  have hout : ¬ (start * blockSize ≤ start' * blockSize + k / 8 ∧
      start' * blockSize + k / 8 < (start + count) * blockSize) := by
    simp only [blockSize]
    omega
  rw [diskBit, diskBit, writeWords, if_neg hout]

theorem read_writeWords (h : superBlockLocation < start) :
    DSuper.read (writeWords disk map start count) = DSuper.read disk := by
  refine DSuper.read_congr fun i hi => ?_
  rw [writeWords, if_neg]
  simp only [superBlockLocation, blockSize] at *
  omega

end Writes

/-! ### The threads -/

/-- Where `efs_sync` is: before the test, after it, or after one of the writes. -/
inductive SyncPc
  | idle
  | tested
  | superWritten
  | imapWritten
  | bmapWritten
  deriving DecidableEq

/-- The superblock in memory, the disk, and `efs_sync`. -/
structure SyncState where
  sb : Super
  disk : Disk
  pc : SyncPc

inductive SyncEvent
  | imapAlloc
  | imapFree (ino : ℤ)
  | bmapAlloc
  | bmapFree (bno : ℤ)
  | test
  | writeSuper
  | writeImap
  | writeBmap
  | clear

/-- An allocator that does not panic, or a step of `efs_sync`. -/
def SyncStep (s : SyncState) (e : SyncEvent) (s' : SyncState) : Prop :=
  match e with
  | .imapAlloc => ∃ no sb, efsImapAlloc s.sb = .ok (no, sb) ∧ s' = { s with sb := sb }
  | .imapFree ino => ∃ sb, efsImapFree s.sb ino = .ok sb ∧ s' = { s with sb := sb }
  | .bmapAlloc => ∃ no sb, efsBmapAlloc s.sb = .ok (no, sb) ∧ s' = { s with sb := sb }
  | .bmapFree bno => ∃ sb, efsBmapFree s.sb bno = .ok sb ∧ s' = { s with sb := sb }
  | .test => s.pc = .idle ∧ s' = { s with pc := if s.sb.dirty then .tested else .idle }
  | .writeSuper => s.pc = .tested ∧
      s' = { s with disk := writeSuper s.disk s.sb.ds, pc := .superWritten }
  | .writeImap => s.pc = .superWritten ∧
      s' = { s with
        disk := writeWords s.disk s.sb.imap.map s.sb.ds.inodeMapStart.toNat
          (s.sb.ds.inodeAreaStart - s.sb.ds.inodeMapStart).toNat
        pc := .imapWritten }
  | .writeBmap => s.pc = .imapWritten ∧
      s' = { s with
        disk := writeWords s.disk s.sb.bmap.map s.sb.ds.blockMapStart.toNat
          (s.sb.ds.blockAreaStart - s.sb.ds.blockMapStart).toNat
        pc := .bmapWritten }
  | .clear => s.pc = .bmapWritten ∧
      s' = { s with sb := { s.sb with dirty := false }, pc := .idle }

/-- The file system has just been mounted. -/
def SyncState.Started (s : SyncState) : Prop :=
  (∃ ipages bpages, efsSbInit s.disk ipages bpages = .ok s.sb) ∧ MapsFit s.disk ∧
    Laid s.sb.ds ∧ s.pc = .idle

/-- The superblock on the disk and the bits of the bitmaps there are those in memory. The bit with
the index `size` is left out: if the bits before it are all set at the mount, `bitmap_reset_allo`
sets it in memory, and `bitmap_free` does not clear it again. -/
structure OnDisk (sb : Super) (disk : Disk) : Prop where
  ds : DSuper.read disk = sb.ds
  imap : ∀ k : ℕ, (k : ℤ) < sb.ds.inodeCount.toInt →
    diskBit disk sb.ds.inodeMapStart.toNat k = sb.imap.test k
  bmap : ∀ k : ℕ, (k : ℤ) < sb.ds.blockCount.toInt →
    diskBit disk sb.ds.blockMapStart.toNat k = sb.bmap.test k

/-- The calls of the allocators. -/
def SyncEvent.IsCall : SyncEvent → Prop
  | .imapAlloc | .imapFree _ | .bmapAlloc | .bmapFree _ => True
  | _ => False

/-- The calls that do not change what `efs_sync` has begun to write. -/
def OutsideWrites (s : SyncState) (e : SyncEvent) : Prop :=
  e.IsCall → s.pc = .idle ∨ s.pc = .tested

/-! ### The invariant -/

/-- The places of the bitmaps, which the allocators do not change. -/
def DSuper.places (ds : DSuper) : List (BitVec 32) :=
  [ds.inodeCount, ds.inodeMapStart, ds.inodeAreaStart, ds.blockCount, ds.blockMapStart,
    ds.blockAreaStart]

theorem Laid.bmap_lt {ds : DSuper} (h : Laid ds) : superBlockLocation < ds.blockMapStart.toNat :=
  h.imap.trans_le (h.iarea.trans h.bmap)

theorem Laid.congr {ds ds' : DSuper} (h : Laid ds) (heq : ds'.places = ds.places) : Laid ds' := by
  simp only [DSuper.places, List.cons.injEq, and_true] at heq
  obtain ⟨h₁, h₂, h₃, h₄, h₅, h₆⟩ := heq
  refine ⟨?_, ?_, ?_, ?_, ?_, ?_⟩
  · rw [h₂]
    exact h.imap
  · rw [h₂, h₃]
    exact h.iarea
  · rw [h₃, h₅]
    exact h.bmap
  · rw [h₅, h₆]
    exact h.barea
  · rw [h₁, h₂, h₃]
    exact h.inodes
  · rw [h₄, h₅, h₆]
    exact h.blocks

/-- What has been written so far is on the disk. -/
def Written (s : SyncState) : Prop :=
  match s.pc with
  | .idle => s.sb.dirty = false → OnDisk s.sb s.disk
  | .tested => s.sb.dirty = true
  | .superWritten => s.sb.dirty = true ∧ DSuper.read s.disk = s.sb.ds
  | .imapWritten => s.sb.dirty = true ∧ DSuper.read s.disk = s.sb.ds ∧
      ∀ k : ℕ, (k : ℤ) < s.sb.ds.inodeCount.toInt →
        diskBit s.disk s.sb.ds.inodeMapStart.toNat k = s.sb.imap.test k
  | .bmapWritten => s.sb.dirty = true ∧ OnDisk s.sb s.disk

structure SyncInv (s : SyncState) : Prop where
  laid : Laid s.sb.ds
  written : Written s

section Invariant

variable {s s' : SyncState} {e : SyncEvent}

/-- Every call of an allocator marks the superblock, and none moves the bitmaps. -/
theorem SyncStep.of_isCall (hs : SyncStep s e s') (he : e.IsCall) :
    ∃ sb, s' = { s with sb := sb } ∧ sb.dirty = true ∧ sb.ds.places = s.sb.ds.places := by
  cases e with
  | imapAlloc =>
    obtain ⟨no, sb, h, rfl⟩ := hs
    refine ⟨sb, rfl, ?_⟩
    simp only [efsImapAlloc] at h
    split at h
    · cases h
    · cases h
      exact ⟨rfl, rfl⟩
  | imapFree ino =>
    obtain ⟨sb, h, rfl⟩ := hs
    refine ⟨sb, rfl, ?_⟩
    simp only [efsImapFree] at h
    split at h
    · cases h
    · cases h
      exact ⟨rfl, rfl⟩
  | bmapAlloc =>
    obtain ⟨no, sb, h, rfl⟩ := hs
    refine ⟨sb, rfl, ?_⟩
    simp only [efsBmapAlloc] at h
    split at h
    · cases h
    · cases h
      exact ⟨rfl, rfl⟩
  | bmapFree bno =>
    obtain ⟨sb, h, rfl⟩ := hs
    refine ⟨sb, rfl, ?_⟩
    simp only [efsBmapFree] at h
    split at h
    · cases h
    · cases h
      exact ⟨rfl, rfl⟩
  | test | writeSuper | writeImap | writeBmap | clear => exact he.elim

/-- The lengths of the two bitmaps on the disk. -/
theorem Laid.counts {ds : DSuper} (h : Laid ds) :
    (ds.inodeAreaStart - ds.inodeMapStart).toNat =
        ds.inodeAreaStart.toNat - ds.inodeMapStart.toNat ∧
      (ds.blockAreaStart - ds.blockMapStart).toNat =
        ds.blockAreaStart.toNat - ds.blockMapStart.toNat :=
  ⟨BitVec.toNat_sub_of_le (BitVec.le_def.2 h.iarea),
    BitVec.toNat_sub_of_le (BitVec.le_def.2 h.barea)⟩

theorem Laid.area_pos {ds : DSuper} (h : Laid ds) : 0 < ds.blockAreaStart.toNat :=
  (Nat.zero_le _).trans_lt
    (h.imap.trans_le (h.iarea.trans (h.bmap.trans h.barea)))

theorem SyncInv.step (hI : SyncInv s) (hok : OutsideWrites s e) (hs : SyncStep s e s') :
    SyncInv s' := by
  have hlaid := hI.laid
  have hw := hI.written
  obtain ⟨hicount, hbcount⟩ := hlaid.counts
  have hinodes := hlaid.inodes
  have hblocks := hlaid.blocks
  by_cases he : e.IsCall
  · obtain ⟨sb, rfl, hdirty, hplaces⟩ := hs.of_isCall he
    refine ⟨hlaid.congr hplaces, ?_⟩
    rcases hok he with hpc | hpc
    · rw [Written, hpc]
      exact fun h => by simp [hdirty] at h
    · rw [Written, hpc]
      exact hdirty
  cases e with
  | imapAlloc | imapFree | bmapAlloc | bmapFree => exact absurd trivial he
  | test =>
    obtain ⟨hpc, rfl⟩ := hs
    refine ⟨hlaid, ?_⟩
    rw [Written, hpc] at hw
    by_cases hd : s.sb.dirty = true
    · simp [Written, hd]
    · simpa [Written, hd] using hw
  | writeSuper =>
    obtain ⟨hpc, rfl⟩ := hs
    rw [Written, hpc] at hw
    exact ⟨hlaid, hw, read_writeSuper⟩
  | writeImap =>
    obtain ⟨hpc, rfl⟩ := hs
    rw [Written, hpc] at hw
    refine ⟨hlaid, hw.1, (read_writeWords hlaid.imap).trans hw.2, fun k hk => ?_⟩
    dsimp only at hk
    exact diskBit_writeWords (by omega)
  | writeBmap =>
    obtain ⟨hpc, rfl⟩ := hs
    rw [Written, hpc] at hw
    obtain ⟨hdirty, hread, himap⟩ := hw
    have h₂ := hlaid.iarea
    have h₃ := hlaid.bmap
    refine ⟨hlaid, hdirty, (read_writeWords hlaid.bmap_lt).trans hread, fun k hk => ?_,
      fun k hk => ?_⟩
    · dsimp only at hk ⊢
      have hlt : k < 32768 * (s.sb.ds.inodeAreaStart.toNat - s.sb.ds.inodeMapStart.toNat) := by
        omega
      exact (diskBit_writeWords_of_apart hlt (by omega)).trans (himap k hk)
    · dsimp only at hk
      exact diskBit_writeWords (by omega)
  | clear =>
    obtain ⟨hpc, rfl⟩ := hs
    rw [Written, hpc] at hw
    exact ⟨hlaid, fun _ => ⟨hw.2.ds, hw.2.imap, hw.2.bmap⟩⟩

/-- A bitmap that has just been mounted has the bits of the disk. -/
theorem test_efsFillMap {disk : Disk} {pages : ℕ → BitVec 64} {k : ℕ}
    {start next size free : BitVec 32} (hk : (k : ℤ) < size.toInt)
    (hsize : size.toInt ≤ 32768 * (next - start).toNat) :
    diskBit disk start.toNat k = (efsFillMap disk pages start next size free).test k := by
  rw [efsFillMap, test_bitmapResetUnused, (test_bitmapResetAllo (.inl hk)).2]
  exact (test_readWords rfl (by omega)).symm

theorem onDisk_of_efsSbInit {disk : Disk} {ipages bpages : ℕ → BitVec 64} {sb : Super}
    (h : efsSbInit disk ipages bpages = .ok sb) (hlaid : Laid sb.ds) : OnDisk sb disk := by
  have hinodes := hlaid.inodes
  have hblocks := hlaid.blocks
  rw [← hlaid.counts.1] at hinodes
  rw [← hlaid.counts.2] at hblocks
  simp only [efsSbInit] at h
  split at h
  · cases h
  · obtain rfl := Except.ok.inj h
    exact ⟨rfl, fun k hk => test_efsFillMap hk hinodes, fun k hk => test_efsFillMap hk hblocks⟩

theorem SyncInv.of_started (h : s.Started) : SyncInv s := by
  obtain ⟨⟨ipages, bpages, h⟩, -, hlaid, hpc⟩ := h
  refine ⟨hlaid, ?_⟩
  rw [Written, hpc]
  exact fun _ => onDisk_of_efsSbInit h hlaid

end Invariant

/-- If no allocator runs between the write of the superblock and the clearing of the flag, then the
disk is up to date whenever the flag is clear. -/
theorem onDisk_of_reachable {s : SyncState}
    (h : Reachable SyncState.Started (guarded OutsideWrites SyncStep) s)
    (hclear : s.sb.dirty = false) : OnDisk s.sb s.disk := by
  have hI : SyncInv s :=
    h.invariant (fun _ => SyncInv.of_started) fun _ _ _ hI hs => hI.step hs.1 hs.2
  have hw := hI.written
  rw [Written] at hw
  split at hw
  · exact hw hclear
  · simp [hclear] at hw
  · simp [hclear] at hw
  · simp [hclear] at hw
  · exact hw.2

/-! ### A small disk -/

section Thousand

/-- A blank image of a thousand blocks after block 0, formatted and mounted. -/
def sync1000 : SyncState where
  sb := mounted (fun _ => 0) (fun _ => 0) (fun _ => 0) (1000 * 4096)
  disk := formatted (fun _ => 0) (1000 * 4096)
  pc := .idle

private theorem areaStart_1000 : blockAreaStart (1000 * 4096) = 5 := by decide

theorem started_sync1000 : sync1000.Started := by
  refine ⟨⟨fun _ => 0, fun _ => 0, ?_⟩, ?_, ?_, rfl⟩
  · exact efsSbInit_formatted (by rw [areaStart_1000]; decide)
  · rw [sync1000, mapsFit_formatted (by rw [areaStart_1000]; decide)]
    exact ⟨by decide, by decide⟩
  · rw [sync1000, mounted_ds]
    exact ⟨by decide, by decide, by decide, by decide, by decide, by decide⟩

theorem efsImapAlloc_marks {sb sb' : Super} {no : ℤ} (h : efsImapAlloc sb = .ok (no, sb')) :
    sb'.dirty = true ∧ sb'.ds = { sb.ds with inodeFree := sb.ds.inodeFree - 1 } := by
  simp only [efsImapAlloc] at h
  split at h
  · cases h
  · cases h
    exact ⟨rfl, rfl⟩

theorem exists_efsImapAlloc {sb : Super} {b : Bitmap} {k : ℕ}
    (h : bitmapAlloc sb.imap = ((k : ℤ), b)) :
    ∃ sb', efsImapAlloc sb = .ok ((k : ℤ), sb') ∧ sb'.imap = b := by
  refine ⟨{ sb with
    ds := { sb.ds with inodeFree := sb.ds.inodeFree - 1 }
    imap := b
    dirty := true }, ?_, rfl⟩
  simp only [efsImapAlloc, h]
  exact if_neg (by omega)

/-- Two inodes can be allocated. -/
theorem exists_imapAlloc_sync1000 : ∃ sb₁ sb₂, efsImapAlloc sync1000.sb = .ok (2, sb₁) ∧
    efsImapAlloc sb₁ = .ok (3, sb₂) := by
  have hsize : (rawImap (fun _ => 0) (fun _ => 0) (1000 * 4096)).size = 9 := by
    rw [rawImap_size]
    decide
  have htest : ∀ k < 32768, (rawImap (fun _ => 0) (fun _ => 0) (1000 * 4096)).test k =
      decide (k = 1) := fun k hk =>
    test_rawImap (by rw [areaStart_1000]; decide) (by decide) hk
  have hfirst : (rawImap (fun _ => 0) (fun _ => 0) (1000 * 4096)).FirstClear 1
      (64 * (rawImap (fun _ => 0) (fun _ => 0) (1000 * 4096)).words) 2 :=
    { le := by decide
      lt := Bitmap.lt_words (by rw [hsize]; decide)
      clear := htest 2 (by decide)
      first := fun j h₁ h₂ => by
        obtain rfl : j = 1 := by omega
        exact htest 1 (by decide) }
  obtain ⟨hs, hal, ht⟩ := bitmapResetAllo_of_lt (by rw [rawImap_unused]; decide) hfirst
    (by rw [hsize]; decide)
  obtain ⟨b, hb⟩ : ∃ b, b = sync1000.sb.imap := ⟨_, rfl⟩
  have hb' := hb
  rw [sync1000, mounted_imap] at hb'
  have hbsize : b.size = 9 := by rw [hb', bitmapResetUnused_size, hs, hsize]
  have hbtest : ∀ k < 32768, b.test k = decide (k = 1) := fun k hk => by
    rw [hb', test_bitmapResetUnused, ht, htest k hk]
  have hbal : b.allocation = 2 := by rw [hb', bitmapResetUnused_allocation, hal]
  have hbunused : b.unused = 8 := by
    rw [hb', bitmapResetUnused_unused]
    decide
  have halloc : bitmapAlloc b = (((2 : ℕ) : ℤ), b.grab 2) :=
    bitmapAlloc_of_firstClear (by rw [hbunused]; decide)
      { le := hbal.le
        lt := Bitmap.lt_words (by rw [hbsize]; decide)
        clear := hbtest 2 (by decide)
        first := fun j h₁ h₂ => by omega } (by rw [hbsize]; decide)
  have halloc' : bitmapAlloc (b.grab 2) = (((3 : ℕ) : ℤ), (b.grab 2).grab 3) :=
    bitmapAlloc_of_firstClear (by rw [Bitmap.grab_unused, hbunused]; decide)
      { le := le_rfl
        lt := Bitmap.lt_words (by rw [Bitmap.grab_size, hbsize]; decide)
        clear := by rw [Bitmap.test_grab, hbtest 3 (by decide)]; decide
        first := fun j h₁ h₂ => by rw [Bitmap.grab_allocation] at h₁; omega }
      (by rw [Bitmap.grab_size, hbsize]; decide)
  rw [hb] at halloc halloc'
  obtain ⟨sb₁, h₁, hsb₁⟩ := exists_efsImapAlloc halloc
  rw [← hsb₁] at halloc'
  obtain ⟨sb₂, h₂, -⟩ := exists_efsImapAlloc halloc'
  exact ⟨sb₁, sb₂, h₁, h₂⟩

/-- An inode number is allocated, and the thread writes everything back. -/
theorem onDisk_sync1000 : ∃ s, Reachable SyncState.Started (guarded OutsideWrites SyncStep) s ∧
    s.sb.ds.inodeFree = sync1000.sb.ds.inodeFree - 1 ∧ s.sb.dirty = false ∧
      OnDisk s.sb s.disk := by
  obtain ⟨sb₁, -, hsb₁, -⟩ := exists_imapAlloc_sync1000
  obtain ⟨hdirty, hds⟩ := efsImapAlloc_marks hsb₁
  have hquiet : ∀ (s : SyncState) (e : SyncEvent), ¬ e.IsCall → OutsideWrites s e :=
    fun _ _ he hc => absurd hc he
  have h₁ : Reachable SyncState.Started (guarded OutsideWrites SyncStep)
      ⟨sb₁, sync1000.disk, .idle⟩ :=
    .next (a := .imapAlloc) (.start started_sync1000) ⟨fun _ => .inl rfl, 2, sb₁, hsb₁, rfl⟩
  have h₂ : Reachable SyncState.Started (guarded OutsideWrites SyncStep)
      ⟨sb₁, sync1000.disk, .tested⟩ :=
    .next (a := .test) h₁ ⟨hquiet _ _ id, rfl, by rw [hdirty]; rfl⟩
  have h₃ := Reachable.next (a := SyncEvent.writeSuper) h₂ ⟨hquiet _ _ id, rfl, rfl⟩
  have h₄ := Reachable.next (a := SyncEvent.writeImap) h₃ ⟨hquiet _ _ id, rfl, rfl⟩
  have h₅ := Reachable.next (a := SyncEvent.writeBmap) h₄ ⟨hquiet _ _ id, rfl, rfl⟩
  have h₆ := Reachable.next (a := SyncEvent.clear) h₅ ⟨hquiet _ _ id, rfl, rfl⟩
  refine ⟨_, h₆, ?_, rfl, onDisk_of_reachable h₆ rfl⟩
  dsimp only
  rw [hds]

/-- A number that is allocated after the superblock has been written is lost. -/
theorem exists_lost_alloc : ∃ s, Reachable SyncState.Started SyncStep s ∧ s.sb.dirty = false ∧
    ¬ OnDisk s.sb s.disk := by
  obtain ⟨sb₁, sb₂, hsb₁, hsb₂⟩ := exists_imapAlloc_sync1000
  obtain ⟨hdirty, hds₁⟩ := efsImapAlloc_marks hsb₁
  obtain ⟨-, hds₂⟩ := efsImapAlloc_marks hsb₂
  have hlaid : Laid sb₂.ds := by
    obtain ⟨-, -, hlaid, -⟩ := started_sync1000
    refine hlaid.congr ?_
    rw [hds₂, hds₁]
    rfl
  have h₁ : Reachable SyncState.Started SyncStep ⟨sb₁, sync1000.disk, .idle⟩ :=
    .next (a := .imapAlloc) (.start started_sync1000) ⟨2, sb₁, hsb₁, rfl⟩
  have h₂ : Reachable SyncState.Started SyncStep ⟨sb₁, sync1000.disk, .tested⟩ :=
    .next (a := .test) h₁ ⟨rfl, by rw [hdirty]; rfl⟩
  have h₃ := Reachable.next (a := SyncEvent.writeSuper) h₂ ⟨rfl, rfl⟩
  have h₄ := Reachable.next (a := SyncEvent.imapAlloc) h₃ ⟨3, sb₂, hsb₂, rfl⟩
  have h₅ := Reachable.next (a := SyncEvent.writeImap) h₄ ⟨rfl, rfl⟩
  have h₆ := Reachable.next (a := SyncEvent.writeBmap) h₅ ⟨rfl, rfl⟩
  have h₇ := Reachable.next (a := SyncEvent.clear) h₆ ⟨rfl, rfl⟩
  refine ⟨_, h₇, rfl, fun h => ?_⟩
  have hread := h.ds
  rw [read_writeWords hlaid.bmap_lt, read_writeWords hlaid.imap, read_writeSuper] at hread
  have heq := congrArg DSuper.inodeFree hread
  rw [hds₂] at heq
  have hne : ∀ x : BitVec 32, x ≠ x - 1 := fun x hx => by bv_omega
  exact hne _ heq

end Thousand

end RiscvLab.Fs
