import RiscvLab.Fs.BlockRuns

/-!
# The inodes on the disk after write-back

When a pass of `efs_sync` leaves `s_idirty_list` empty, every number that is marked in the inode
bitmap has a record on the disk that equals the inode which `efs_i_get` returns. Two habits of the
source break this. An inode that has been given up stays on `s_idirty_list`, and the list is written
from its head, so that it is written over the inode that has got its number since. And
`efs_d_update`, which puts the inode of a directory on the list, writes nothing for an empty
directory, so that the size that the removal of the last entry has changed is not written.

## Main definitions

* `Recorded`, `RecordsWritten` : the property.
* `RecordsOk` : numbers are not reused too early, and a directory that becomes empty is on the list
  or is empty on the disk.

## Main results

* `View.Records.step` : what is not on the disk is on a list.
* `recordsWritten_of_reachable`

Source: `fs/easyfs/inode.c`, lines 41–86 and 311–398; `fs/easyfs/super.c`, lines 89–170;
`fs/easyfs/dentry.c`, lines 119–136.
-/

namespace RiscvLab.Fs

open Library Relation

/-! ### Records -/

/-- The record with the number `ino` on the disk is `x`. The two bytes behind `i_devno` may be
any. -/
def Recorded (disk : Disk) (ds : DSuper) (ino : BitVec 32) (x : DInode) : Prop :=
  ∃ pad, diskWords disk (inodeAddr ds ino) (dInodeSize / 4) = x.words pad

/-- For every number that is marked in the inode bitmap, which has one block, `efs_i_get` returns an
inode that equals its record. -/
def RecordsWritten (st : Efs) : Prop :=
  ∀ ino : BitVec 32, ino.toNat < 8 * blockSize → st.sb.imap.test ino.toNat = true →
    ∃ i st', efsIGet st ino = .ok (i, st') ∧ Recorded st.disk st.sb.ds ino (st'.inode i).di

section Records

variable {disk disk' : Disk} {ds ds' : DSuper} {ino : BitVec 32} {x : DInode}

theorem DSuper.SamePlaces.inodeAddr (h : ds.SamePlaces ds') :
    inodeAddr ds' ino = inodeAddr ds ino := by
  rw [h]
  rfl

theorem DSuper.SamePlaces.laid (h : ds.SamePlaces ds') (hlaid : Laid ds) : Laid ds' := by
  rw [h]
  exact { hlaid with }

theorem Recorded.congr (h : Recorded disk ds ino x) (hds : ds.SamePlaces ds')
    (hdisk : ∀ k < dInodeSize, disk' (inodeAddr ds ino + k) = disk (inodeAddr ds ino + k)) :
    Recorded disk' ds' ino x := by
  obtain ⟨pad, hwords⟩ := h
  refine ⟨pad, ?_⟩
  rw [← hwords, hds.inodeAddr]
  exact diskWords_congr hdisk

theorem length_flatMap_words (x : DInode) (pad : BitVec 16) :
    ((x.words pad).flatMap bytes32).length = dInodeSize := by
  rw [length_flatMap_bytes32, DInode.length_words]
  rfl

theorem recorded_patch (pad : BitVec 16) : Recorded
    (patch disk (inodeAddr ds ino) ((x.words pad).flatMap bytes32)) ds ino x := by
  refine ⟨pad, ?_⟩
  rw [← x.length_words pad]
  exact diskWords_patch ..

theorem Recorded.no (h : Recorded disk ds ino x) : word32 disk (inodeAddr ds ino) = x.no := by
  obtain ⟨pad, hwords⟩ := h
  have hget := congrArg (·.getD 0 0) hwords
  simpa [diskWords, DInode.words, dInodeSize, List.range, List.range.loop] using hget

theorem Recorded.size (h : Recorded disk ds ino x) :
    word32 disk (inodeAddr ds ino + 12) = x.size := by
  obtain ⟨pad, hwords⟩ := h
  have hget := congrArg (·.getD 3 0) hwords
  simpa [diskWords, DInode.words, dInodeSize, List.range, List.range.loop] using hget

theorem Recorded.addrs {k : ℕ} (h : Recorded disk ds ino x) (hk : k < nDirect + 1) :
    word32 disk (inodeAddr ds ino + 16 + 4 * k) = x.addrs k := by
  obtain ⟨pad, hwords⟩ := h
  have hget := congrArg (·[k + 4]?) hwords
  have hlt : k + 4 < dInodeSize / 4 := by
    simp only [nDirect, dInodeSize] at hk ⊢
    omega
  have haddr : inodeAddr ds ino + 4 * (k + 4) = inodeAddr ds ino + 16 + 4 * k := by omega
  simpa [diskWords, DInode.words, hlt, hk, haddr, List.getElem?_append_left] using hget

theorem Recorded.nlink (h : Recorded disk ds ino x) :
    word32 disk (inodeAddr ds ino + 68) = x.nlink := by
  obtain ⟨pad, hwords⟩ := h
  have hget := congrArg (·.getD 17 0) hwords
  simpa [diskWords, DInode.words, dInodeSize, nDirect, List.range, List.range.loop] using hget

private theorem append_halves (w : BitVec 32) : w.extractLsb' 16 16 ++ w.setWidth 16 = w := by
  ext k hk
  simp only [BitVec.getElem_append, BitVec.getElem_extractLsb', BitVec.getElem_setWidth]
  split
  · exact BitVec.getLsbD_eq_getElem hk
  · rw [show 16 + (k - 16) = k by omega]
    exact BitVec.getLsbD_eq_getElem hk

theorem recorded_read : Recorded disk ds ino (.read disk (inodeAddr ds ino)) := by
  generalize ha : inodeAddr ds ino = a
  refine ⟨(word32 disk (a + 8)).extractLsb' 16 16, ?_⟩
  rw [ha]
  simp [diskWords, DInode.words, DInode.read, FileType.toWord_ofWord, append_halves, dInodeSize,
    nDirect, List.range, List.range.loop, Nat.add_assoc]

end Records

namespace View

variable {v v' : View} {X Y : Set ℕ} {d i j p pi k : ℕ}

/-- A number that a record can have. The root has one even if there is no other. -/
def IsNumber (v : View) (ino : BitVec 32) : Prop :=
  0 < ino.toNat ∧ ((ino.toNat : ℤ) ≤ v.sb.imap.size ∨ ino.toNat = 1)

/-- The records lie one behind the other between the two bitmaps. -/
structure Arranged (v : View) : Prop where
  laid : Laid v.sb.ds
  addr : ∀ ino, v.IsNumber ino → inodeAddr v.sb.ds ino =
    v.sb.ds.inodeAreaStart.toNat * blockSize + inodeSize * ino.toNat
  fits : ∀ ino, v.IsNumber ino → v.sb.ds.inodeAreaStart.toNat * blockSize +
    inodeSize * ino.toNat + dInodeSize ≤ v.sb.ds.blockMapStart.toNat * blockSize

theorem Arranged.congr (h : v.Arranged) (hds : v.sb.ds.SamePlaces v'.sb.ds)
    (hsize : v'.sb.imap.size = v.sb.imap.size) : v'.Arranged := by
  have hnumber (ino : BitVec 32) (hino : v'.IsNumber ino) : v.IsNumber ino := by
    rw [IsNumber, hsize] at hino
    exact hino
  have hstart : v'.sb.ds.inodeAreaStart = v.sb.ds.inodeAreaStart := by rw [hds]
  have hend : v'.sb.ds.blockMapStart = v.sb.ds.blockMapStart := by rw [hds]
  refine ⟨hds.laid h.laid, fun ino hino => ?_, fun ino hino => ?_⟩
  · rw [hds.inodeAddr, hstart]
    exact h.addr ino (hnumber ino hino)
  · rw [hstart, hend]
    exact h.fits ino (hnumber ino hino)

/-- What is written outside of the inode area leaves the records alone. -/
theorem Arranged.recorded (h : v.Arranged) {ino : BitVec 32} {x : DInode} (hino : v.IsNumber ino)
    (hrec : Recorded v.disk v.sb.ds ino x) (hds : v.sb.ds.SamePlaces v'.sb.ds)
    (hdisk : ∀ a, v.sb.ds.inodeAreaStart.toNat * blockSize ≤ a →
      a < v.sb.ds.blockMapStart.toNat * blockSize → v'.disk a = v.disk a) :
    Recorded v'.disk v'.sb.ds ino x := by
  refine hrec.congr hds fun k hk => ?_
  have haddr := h.addr ino hino
  have hfits := h.fits ino hino
  exact hdisk _ (by omega) (by omega)

/-! ### Writing an inode -/

section Updated

variable {pad : BitVec 16} (h : v.Arranged) (hi : v.IsNumber (v.di i).no)
  (hpage : (v.indir i).isSome → v.sb.ds.blockAreaStart.toNat ≤ ((v.di i).addrs nDirect).toNat)

include hpage in
/-- Before the block area, `efs_i_update` writes the record only. -/
theorem updatedDisk_of_lt {a : ℕ} (ha : a < v.sb.ds.blockAreaStart.toNat * blockSize) :
    v.updatedDisk i pad a =
      patch v.disk (inodeAddr v.sb.ds (v.di i).no) (((v.di i).words pad).flatMap bytes32) a := by
  rw [View.updatedDisk]
  cases hindir : v.indir i with
  | none => rfl
  | some blk =>
    exact patch_of_lt (lt_of_lt_of_le ha (Nat.mul_le_mul_right _ (hpage (by rw [hindir]; rfl))))

include h hi

/-- Behind the inode area, `efs_i_update` writes the indirect block only. -/
theorem Arranged.updatedDisk_of_ne {b : BitVec 32}
    (harea : v.sb.ds.blockAreaStart.toNat ≤ b.toNat)
    (hb : (v.indir i).isSome → b ≠ (v.di i).addrs nDirect) (hk : k < blockSize) :
    v.updatedDisk i pad (b.toNat * blockSize + k) = v.disk (b.toNat * blockSize + k) := by
  have hrecord : patch v.disk (inodeAddr v.sb.ds (v.di i).no)
      (((v.di i).words pad).flatMap bytes32) (b.toNat * blockSize + k) =
        v.disk (b.toNat * blockSize + k) := by
    have haddr := h.addr _ hi
    have hfits := h.fits _ hi
    have hle := Nat.mul_le_mul_right blockSize (h.laid.barea.trans harea)
    refine patch_of_ge ?_
    rw [length_flatMap_words]
    omega
  rw [View.updatedDisk]
  cases hindir : v.indir i with
  | none => exact hrecord
  | some blk =>
    have hlen : 0 + ((pageWords blk).flatMap bytes32).length ≤ blockSize := by
      rw [length_flatMap_bytes32, length_pageWords]
      decide
    dsimp only
    rw [← Nat.add_zero (((v.di i).addrs nDirect).toNat * blockSize),
      patch_of_block_ne (hb (Option.isSome_of_mem hindir)) hlen hk]
    exact hrecord

include hpage

theorem Arranged.recorded_updated :
    Recorded (v.updatedDisk i pad) v.sb.ds (v.di i).no (v.di i) := by
  have haddr := h.addr _ hi
  have hfits := h.fits _ hi
  have hend := Nat.mul_le_mul_right blockSize h.laid.barea
  have hpatch : Recorded (patch v.disk (inodeAddr v.sb.ds (v.di i).no)
      (((v.di i).words pad).flatMap bytes32)) v.sb.ds (v.di i).no (v.di i) := recorded_patch pad
  exact hpatch.congr .refl fun k hk => updatedDisk_of_lt hpage (by omega)

/-- The records of other numbers are elsewhere. -/
theorem Arranged.updatedDisk_record {ino : BitVec 32} (hino : v.IsNumber ino)
    (hne : ino ≠ (v.di i).no) (hk : k < dInodeSize) :
    v.updatedDisk i pad (inodeAddr v.sb.ds ino + k) = v.disk (inodeAddr v.sb.ds ino + k) := by
  have hne' : ino.toNat ≠ (v.di i).no.toNat := fun heq => hne (BitVec.eq_of_toNat_eq heq)
  have haddr := h.addr _ hi
  have haddr' := h.addr ino hino
  have hfits' := h.fits ino hino
  have hend := Nat.mul_le_mul_right blockSize h.laid.barea
  have hlen := length_flatMap_words (v.di i) pad
  simp only [inodeSize, dInodeSize] at haddr haddr' hfits' hlen hk
  refine (updatedDisk_of_lt hpage (by omega)).trans ?_
  rcases Nat.lt_or_gt_of_ne hne' with hlt | hgt
  · exact patch_of_lt (by omega)
  · exact patch_of_ge (by omega)

end Updated

/-! ### What is not on the disk is on a list -/

/-- The inode of a directory with entries on `s_ddirty_list`; when the file of the directory is
written, the inode is put on `s_idirty_list`. -/
def Waits (v : View) (i : ℕ) : Prop :=
  ∃ d ∈ v.ddirty, (v.entry d).inode = some i ∧ (v.entry d).child ≠ []

/-- The inode is on `s_idirty_list` or on the disk, where a directory that waits may have another
size. -/
def Tracked (v : View) (i : ℕ) : Prop :=
  i ∈ v.idirty ∨ ∃ size, Recorded v.disk v.sb.ds (v.di i).no { v.di i with size := size } ∧
    (size = (v.di i).size ∨ v.Waits i)

/-- What runs keep of the records. The inodes in `X` are left out. -/
structure Records (X : Set ℕ) (v : View) : Prop where
  arranged : v.Arranged
  tracked : ∀ i, v.LiveInode i → i ∉ X → v.Tracked i
  number : ∀ i, v.LiveInode i ∨ i ∈ v.idirty → v.IsNumber (v.di i).no
  marks : ∀ ino : BitVec 32, ino.toNat < 8 * blockSize → v.sb.imap.test ino.toNat = true →
    0 < ino.toNat ∧ ∀ i, v.find ino = some i → v.LiveInode i
  distinct : ∀ i j, v.LiveInode i → j ∈ v.idirty → (v.di j).no = (v.di i).no → j = i
  page : ∀ i ∈ v.idirty, (v.indir i).isSome →
    v.sb.ds.blockAreaStart.toNat ≤ ((v.di i).addrs nDirect).toNat

theorem LiveInode.eq_of_no (hi : v.LiveInode i) (hj : v.LiveInode j)
    (hno : (v.di j).no = (v.di i).no) : j = i := by
  obtain ⟨d, -, hd⟩ := hi
  obtain ⟨e, -, he⟩ := hj
  have hd' : (v.di i).no = v.ino d := (Tree.find_mem (t := v.tree dirSize) hd).2
  have he' : (v.di j).no = v.ino e := (Tree.find_mem (t := v.tree dirSize) he).2
  rw [← he', hno, hd', hd] at he
  exact (Option.some.inj he).symm

theorem Tracked.transfer (h : v.Tracked i) (hdirty : i ∈ v.idirty → i ∈ v'.idirty)
    (hdi : ∀ size, { v'.di i with size := size } = { v.di i with size := size })
    (hrec : ∀ x, Recorded v.disk v.sb.ds (v.di i).no x → Recorded v'.disk v'.sb.ds (v.di i).no x)
    (hsize : (v'.di i).size = (v.di i).size ∨ v'.Waits i) (hwaits : v.Waits i → v'.Waits i) :
    v'.Tracked i := by
  have hno : (v'.di i).no = (v.di i).no := by
    have heq := congrArg DInode.no (hdi 0)
    exact heq
  rcases h with h | ⟨size, h, hcase⟩
  · exact .inl (hdirty h)
  · refine .inr ⟨size, ?_, ?_⟩
    · rw [hno, hdi]
      exact hrec _ h
    · rcases hsize with hsize | hsize
      · rw [hsize]
        exact hcase.imp_right hwaits
      · exact .inr hsize

/-- Neither the live inodes nor their numbers have changed. -/
theorem Records.congr (h : Records X v) (hsame : v.Same v')
    (hlive : ∀ j, v.LiveInode j → v'.LiveInode j) (himap : v'.sb.imap = v.sb.imap)
    (hds : v.sb.ds.SamePlaces v'.sb.ds)
    (hdirty : ∀ j ∈ v'.idirty, j ∈ v.idirty ∨ v.LiveInode j)
    (hpage : ∀ j ∈ v'.idirty, (v'.indir j).isSome →
      v.sb.ds.blockAreaStart.toNat ≤ ((v'.di j).addrs nDirect).toNat)
    (htracked : ∀ j, v.LiveInode j → j ∉ Y → v'.Tracked j) : Records Y v' := by
  have hnumber (ino : BitVec 32) (hino : v.IsNumber ino) : v'.IsNumber ino := by
    rw [IsNumber, himap]
    exact hino
  refine
    { arranged := h.arranged.congr hds (by rw [himap])
      tracked := fun j hj => htracked j (hsame.liveInode hj)
      number := fun j hj => ?_
      marks := fun ino hino hbit => ?_
      distinct := fun i j hi hj hno => ?_
      page := fun j hj hsome => ?_ }
  · rw [hsame.no]
    refine hnumber _ (h.number j ?_)
    rcases hj with hj | hj
    · exact .inl (hsame.liveInode hj)
    · exact (hdirty j hj).symm
  · rw [himap] at hbit
    obtain ⟨hpos, hfind⟩ := h.marks ino hino hbit
    rw [hsame.find]
    exact ⟨hpos, fun i hi => hlive i (hfind i hi)⟩
  · rw [hsame.no, hsame.no] at hno
    rcases hdirty j hj with hj | hj
    · exact h.distinct i j (hsame.liveInode hi) hj hno
    · exact (hsame.liveInode hi).eq_of_no hj hno
  · rw [hds.area]
    exact hpage j hj hsome

/-! ### The calls that change no inode -/

theorem Waits.load {full : Bool} (hs : v.Sane) (hf : v.find (v.ino d) = some i) (h : v.Waits j) :
    (v.load d i full).Waits j := by
  obtain ⟨e, he, hinode, hchild⟩ := h
  refine ⟨e, he, ?_, by rwa [(load_entry full e).2.1]⟩
  by_cases hed : e = d
  · subst hed
    obtain ⟨hfe, -, -⟩ := hs.size_eq (hs.lists.inode e he).1 hchild hinode
    rw [hf] at hfe
    simpa [View.load, modEntry] using hfe
  · rw [load_entry_of_ne hed]
    exact hinode

/-- Only entries have changed, and those that wait still do. -/
theorem Records.setEntry (h : Records X v) {entry : ℕ → Dentry}
    (hsame : v.Same { v with entry := entry })
    (hlive : ∀ j, v.LiveInode j → { v with entry := entry }.LiveInode j)
    (hwaits : ∀ j, v.Waits j → { v with entry := entry }.Waits j) :
    Records X { v with entry := entry } :=
  h.congr hsame hlive rfl rfl (fun _ => .inl) h.page fun j hj hX =>
    (h.tracked j hj hX).transfer id (fun _ => rfl) (fun _ => id) (.inl rfl) (hwaits j)

theorem Records.load {full : Bool} (h : Records X v) (hs : v.Sane)
    (hf : v.find (v.ino d) = some i) : Records X (v.load d i full) :=
  h.setEntry same_load (fun _ => same_load.liveInode_of fun _ he => Tree.linked_load.2 he)
    fun _ => Waits.load hs hf

theorem Records.renames (h : Records X v) (hs : v.Sane) (hren : v.Renames d v') :
    Records X v' := by
  have hsame := same_of_renames hren
  have hlive (j : ℕ) (hj : v.LiveInode j) : v'.LiveInode j := liveInode_of_renames hren hj
  cases hren with
  | same => exact h
  | @rename i p name hf hp hd hname =>
    refine h.setEntry hsame hlive fun j hj => ?_
    obtain ⟨e, he, hinode, hchild⟩ : (v.load d i false).Waits j := hj.load hs hf
    rw [(load_entry false e).2.1, ← (rename_entry e).2.1] at hchild
    exact ⟨e, he, (rename_entry e).1.trans hinode, hchild⟩

/-! ### Writes -/

/-- A write to a file leaves everything before the block area alone. -/
theorem Along.metadata {v₀ : View} {s a : ℕ} (h : Along v₀ i s v) (hi : v.LiveInode i)
    (ha : a < v.sb.ds.blockAreaStart.toNat * blockSize) : v.disk a = v₀.disk a := by
  have hlt : a / blockSize < v.sb.ds.blockAreaStart.toNat :=
    Nat.div_lt_of_lt_mul (by rwa [Nat.mul_comm] at ha)
  have hdiv : (BitVec.ofNat 32 (a / blockSize)).toNat = a / blockSize := by
    rw [BitVec.toNat_ofNat, Nat.mod_eq_of_lt (hlt.trans v.sb.ds.blockAreaStart.isLt)]
  have hframe := h.disk (BitVec.ofNat 32 (a / blockSize)) (fun t hne heq => ?_) (a % blockSize)
    (Nat.mod_lt _ (by decide))
  · rwa [hdiv, Nat.div_add_mod'] at hframe
  · have harea := h.owned.area i t hi hne
    rw [heq, hdiv] at harea
    omega

theorem FileFrame.samePlaces (h : FileFrame i v v') : v.sb.ds.SamePlaces v'.sb.ds := by
  rw [DSuper.SamePlaces, h.ds]

/-- The slot of the indirect block. -/
def pageSlot : Slot := .addr ⟨nDirect, Nat.lt_succ_self _⟩

theorem Owned.page_ne (h : v.Owned) (hi : v.LiveInode i) (hsome : (v.indir i).isSome) :
    v.slot i pageSlot ≠ 0 := by
  intro hzero
  rw [(h.loaded i hi).1 hzero] at hsome
  cases hsome

/-- The indirect block of a live inode lies in the block area. -/
theorem Owned.area_page (h : v.Owned) (hi : v.LiveInode i) (hsome : (v.indir i).isSome) :
    v.sb.ds.blockAreaStart.toNat ≤ ((v.di i).addrs nDirect).toNat :=
  h.area i pageSlot hi (h.page_ne hi hsome)

theorem Records.writes {s e : ℕ} (h : Records X v) (howned : v.Owned) (hi : v.LiveInode i)
    (hzeros : v.TakesZeros i s e) (hwrites : v.Writes i s e v') : Records X v' := by
  have hframe := hwrites.fileFrame
  have howned' := howned.writes hi hzeros hwrites
  have hlive (j : ℕ) : v'.LiveInode j ↔ v.LiveInode j := hframe.liveInode
  have hplaces := hframe.samePlaces
  have harea := hplaces.area
  cases hwrites with
  | rejected => exact h
  | @written v₁ size hsteps hsize =>
    obtain ⟨hframe₁, hidirty⟩ := fileFrame_of_mapSteps hsteps
    have halong := howned.along.steps hi hzeros hsteps
    have hmem (j : ℕ) : j ∈ ((v₁.modDi i fun x => { x with size := size }).iSdirty i).idirty ↔
        j = i ∨ j ∈ v.idirty := by
      rw [← hidirty]
      exact List.mem_insert_iff
    refine h.congr hframe.same (fun j => (hlive j).2) hframe.imap hplaces
      (fun j hj => ?_) (fun j hj hsome => ?_) fun j hj hX => ?_
    · rcases (hmem j).1 hj with rfl | hj
      · exact .inr hi
      · exact .inl hj
    · rcases (hmem j).1 hj with rfl | hj
      · rw [← harea]
        exact howned'.area_page ((hlive j).2 hi) hsome
      · by_cases hji : j = i
        · subst hji
          rw [← harea]
          exact howned'.area_page ((hlive j).2 hi) hsome
        · rw [(hframe.other j hji).1]
          rw [(hframe.other j hji).2] at hsome
          exact h.page j hj hsome
    · by_cases hji : j = i
      · exact .inl ((hmem j).2 (.inl hji))
      · have hdi := (hframe.other j hji).1
        refine (h.tracked j hj hX).transfer (fun hj => (hmem j).2 (.inr hj)) (fun _ => by rw [hdi])
          (fun x hx => ?_) (.inl (by rw [hdi])) ?_
        · refine h.arranged.recorded (h.number j (.inl hj)) hx hplaces fun a _ ha => ?_
          refine halong.metadata (hframe₁.liveInode.2 hi) (lt_of_lt_of_le ha ?_)
          have harea₁ : v₁.sb.ds.blockAreaStart = v.sb.ds.blockAreaStart := harea
          rw [harea₁]
          exact Nat.mul_le_mul_right _ h.arranged.laid.barea
        · rintro ⟨d, hd, hinode, hchild⟩
          refine ⟨d, ?_, ?_, ?_⟩
          · rw [hframe.ddirty]
            exact hd
          · rw [hframe.entry]
            exact hinode
          · rw [hframe.entry]
            exact hchild

/-! ### Creating an entry -/

section Create

variable {sb : Super} {type : FileType} {name : ℕ → BitVec 8}

theorem mem_idirty_create : j ∈ (v.create p pi k sb type name).idirty ↔
    j = v.inodes ∨ j ∈ v.idirty := by
  simp [create, enter, addEntry, View.iSdirty, modDi, addInode, View.dSdirty]

/-- The new inode is found under its number, and the others as before. -/
theorem Enters.find_create {ino : BitVec 32} (h : v.Enters p pi k sb) :
    (v.create p pi k sb type name).find ino =
      if ino = BitVec.ofNat 32 k then some v.inodes else v.find ino := by
  have hbound : v.sb.imap.size ≤ 2 ^ 15 := h.sane.tree.bound
  have hle := h.number.2.1
  have hfind : ((v.tree dirSize).create p pi k type name).find ino =
      if ino = BitVec.ofNat 32 k then some v.inodes else v.find ino :=
    h.sane.tree.find_create (by omega)
  rw [← h.tree_eq] at hfind
  exact hfind

/-- A number that is not marked in the bitmap is that of no live inode. -/
theorem Enters.no_ne (h : v.Enters p pi k sb) (hi : v.LiveInode i) :
    (v.di i).no ≠ BitVec.ofNat 32 k := by
  intro hno
  obtain ⟨d, hd, hf⟩ := hi
  have hino : (v.di i).no = v.ino d := (Tree.find_mem (t := v.tree dirSize) hf).2
  have hbit : v.sb.imap.test (v.ino d).toNat = true := h.sane.tree.bit d hd
  rw [← hino, hno, h.toNat_number, h.number.1] at hbit
  cases hbit

/-- The directory of the new entry waits, and the other inodes are as they were. -/
theorem Tracked.create (h : v.Tracked j) (hc : v.Enters p pi k sb) (hj : j ≠ v.inodes) :
    (v.create p pi k sb type name).Tracked j := by
  have hplaces := (efsImapAlloc_bmap hc.alloc).2
  refine h.transfer (fun hj => mem_idirty_create.2 (.inr hj))
    (fun _ => by rw [di_create_of_ne hj]) (fun x hx => hx.congr hplaces fun _ _ => rfl) ?_ ?_
  · by_cases hjpi : j = pi
    · subst hjpi
      refine .inr ⟨p, List.mem_insert_self .., ?_, ?_⟩
      · rw [entry_create hc.lt]
        exact hc.inode
      · simp [entry_create hc.lt]
    · rw [di_create_of_ne hj]
      exact .inl (if_neg hjpi)
  · rintro ⟨e, he, hinode, hchild⟩
    have helt := (hc.sane.lists.inode e he).1
    refine ⟨e, List.mem_insert_of_mem he, ?_, ?_⟩
    · rw [entry_create helt]
      exact hinode
    · rw [entry_create helt]
      dsimp only
      split
      · simp
      · exact hchild

/-- Numbers are not reused as long as the inode that had it is on `s_idirty_list`. -/
theorem Records.create (h : Records X v) (hc : v.Enters p pi k sb)
    (hfresh : ∀ j ∈ v.idirty, (v.di j).no ≠ BitVec.ofNat 32 k) :
    Records X (v.create p pi k sb type name) := by
  have hs := hc.sane
  have hpos := hs.numbered.hint
  obtain ⟨-, hle, himap, hhint⟩ := hc.number
  have hk32 := hc.toNat_number
  have hlive (j : ℕ) : (v.create p pi k sb type name).LiveInode j ↔
      v.LiveInode j ∨ j = v.inodes := hc.liveInode
  have hold (j : ℕ) (hj : v.LiveInode j ∨ j ∈ v.idirty) : j ≠ v.inodes :=
    (hj.elim (fun hj => hj.lt hs.tree) (hs.lists.known j)).ne
  have hsb : (v.create p pi k sb type name).sb = sb := rfl
  have hplaces : v.sb.ds.SamePlaces (v.create p pi k sb type name).sb.ds :=
    (efsImapAlloc_bmap hc.alloc).2
  have hsize : (v.create p pi k sb type name).sb.imap.size = v.sb.imap.size := by
    rw [hsb, himap, Bitmap.grab_size]
  have hnumber (ino : BitVec 32) (hino : v.IsNumber ino) :
      (v.create p pi k sb type name).IsNumber ino := by
    rw [IsNumber, hsize]
    exact hino
  have hno (j : ℕ) (hj : j ≠ v.inodes) :
      ((v.create p pi k sb type name).di j).no = (v.di j).no := by rw [di_create_of_ne hj]
  refine
    { arranged := h.arranged.congr hplaces hsize
      tracked := fun j hj hX => ?_
      number := fun j hj => ?_
      marks := fun ino hino hbit => ?_
      distinct := fun i j hi hj hij => ?_
      page := fun j hj hsome => ?_ }
  · rcases (hlive j).1 hj with hj | rfl
    · exact (h.tracked j hj hX).create hc (hold j (.inl hj))
    · exact .inl (mem_idirty_create.2 (.inl rfl))
  · have hcases : j = v.inodes ∨ v.LiveInode j ∨ j ∈ v.idirty := by
      rw [hlive, mem_idirty_create] at hj
      tauto
    rcases hcases with rfl | hj
    · rw [di_create_new hc.inode_lt]
      refine hnumber _ ⟨?_, .inl ?_⟩
      · rw [hk32]
        omega
      · rwa [hk32]
    · rw [hno j (hold j hj)]
      exact hnumber _ (h.number j hj)
  · rw [hsb, himap, Bitmap.test_grab, Bool.or_eq_true, decide_eq_true_iff] at hbit
    by_cases heq : ino = BitVec.ofNat 32 k
    · refine ⟨by rw [heq, hk32]; omega, fun i hi => (hlive i).2 (.inr ?_)⟩
      rw [hc.find_create, if_pos heq] at hi
      exact (Option.some.inj hi).symm
    · have hne : ino.toNat ≠ k := fun hk => heq (BitVec.eq_of_toNat_eq (hk.trans hk32.symm))
      obtain ⟨hpos', hmarks⟩ := h.marks ino hino (hbit.resolve_left hne)
      refine ⟨hpos', fun i hi => (hlive i).2 (.inl (hmarks i ?_))⟩
      rwa [hc.find_create, if_neg heq] at hi
  · rcases (hlive i).1 hi with hi | rfl
    · rw [hno i (hold i (.inl hi))] at hij
      rcases mem_idirty_create.1 hj with rfl | hj
      · rw [di_create_new hc.inode_lt] at hij
        exact absurd hij.symm (hc.no_ne hi)
      · rw [hno j (hold j (.inr hj))] at hij
        exact h.distinct i j hi hj hij
    · rcases mem_idirty_create.1 hj with rfl | hj
      · rfl
      · rw [hno j (hold j (.inr hj)), di_create_new hc.inode_lt] at hij
        exact absurd hij (hfresh j hj)
  · rw [indir_create] at hsome
    rcases mem_idirty_create.1 hj with rfl | hj
    · rw [if_pos rfl] at hsome
      cases hsome
    · have hne := hold j (.inr hj)
      rw [if_neg hne] at hsome
      rw [hplaces.area, di_create_of_ne hne]
      exact h.page j hj hsome

end Create

theorem Records.creates {type : FileType} (h : Records X v) (hs : v.Sane)
    (hd : (v.tree dirSize).Linked d) (hcr : v.Creates d type v')
    (hfresh : ∀ no sb, efsImapAlloc v.sb = .ok (no, sb) →
      ∀ j ∈ v.idirty, (v.di j).no ≠ BitVec.ofInt 32 no) : Records X v' := by
  obtain rfl | ⟨pi, hf, rfl | ⟨k, sb, name, hc, rfl⟩⟩ := hcr.cases hs hd
  · exact h
  · exact h.load hs hf
  · refine (h.load hs hf).create hc fun j hj => ?_
    have hne := hfresh _ sb hc.alloc j hj
    rwa [BitVec.ofInt_natCast] at hne

/-! ### Giving up an inode -/

section Release

variable {sb sb' : Super}

theorem Releases.places (h : v.Releases d i p pi sb sb') : v.sb.ds.SamePlaces sb'.ds :=
  (freesOnly_of_freesBlocks h.frees).places.trans (efsImapFree_bmap h.imap).2

theorem mem_idirty_release : j ∈ ((v.release i sb).remove d p pi).idirty ↔
    j = i ∨ j ∈ v.idirty := by
  simp [release, remove, modEntry, modDi, View.iSdirty, View.dSdirty]

/-- The inode of a directory that becomes empty is on `s_idirty_list`, or the directory is empty on
the disk. -/
def Empties (v : View) (d p : ℕ) : Prop :=
  (v.entry p).child = [d] → (v.entry d).child = [] → ∀ i, (v.entry p).inode = some i →
    i ∈ v.idirty ∨ word32 v.disk (inodeAddr v.sb.ds (v.di i).no + 12) = 0

/-- The inode of the directory after the removal of an entry. -/
theorem Tracked.remove (h : v.Tracked pi) (hr : v.Releases d i p pi sb sb')
    (hlast : v.Empties d p) (hne : pi ≠ i) : ((v.release i sb').remove d p pi).Tracked pi := by
  have hdi : ((v.release i sb').remove d p pi).di pi =
      { v.di pi with size := (v.di pi).size - 24 } := by
    rw [di_remove, if_pos rfl, di_release_of_ne hne]
  have hchild : (((v.release i sb').remove d p pi).entry p).child = (v.entry p).child.erase d := by
    simp [View.remove, release, modEntry, modDi, View.iSdirty, View.dSdirty]
  have hrec (x : DInode) (hx : Recorded v.disk v.sb.ds (v.di pi).no x) :
      Recorded v.disk sb'.ds (v.di pi).no x := hx.congr hr.places fun _ _ => rfl
  by_cases hnil : (v.entry p).child.erase d = []
  · -- the directory is empty now
    have hone : (v.entry p).child = [d] := by
      have hperm := List.perm_cons_erase hr.mem
      rwa [hnil, List.perm_singleton] at hperm
    obtain ⟨-, -, hsize⟩ := hr.sane.size_eq hr.parent (List.ne_nil_of_mem hr.mem) hr.inode
    have hzero : (v.di pi).size - 24 = 0 := by
      rw [hone] at hsize
      exact sub_eq_zero.2 (BitVec.eq_of_toNat_eq hsize)
    rcases hlast hone hr.empty pi hr.inode with hmem | hword
    · exact .inl (mem_idirty_release.2 (.inr hmem))
    · rcases h with hmem | ⟨size, hx, -⟩
      · exact .inl (mem_idirty_release.2 (.inr hmem))
      · obtain rfl : 0 = size := hword.symm.trans hx.size
        refine .inr ⟨0, ?_, .inl ?_⟩
        · rw [hdi]
          exact hrec _ hx
        · rw [hdi, hzero]
  · have hwaits : ((v.release i sb').remove d p pi).Waits pi := by
      refine ⟨p, List.mem_insert_self .., ?_, by rwa [hchild]⟩
      simpa [View.remove, release, modEntry, modDi, View.iSdirty, View.dSdirty] using hr.inode
    exact h.transfer (fun hmem => mem_idirty_release.2 (.inr hmem)) (fun _ => by rw [hdi]) hrec
      (.inr hwaits) fun _ => hwaits

theorem Records.release (h : Records X v) (howned : v.Owned) (hr : v.Releases d i p pi sb sb')
    (hlast : v.Empties d p) : Records X ((v.release i sb').remove d p pi) := by
  have hsame : v.Same ((v.release i sb').remove d p pi) := same_released
  have hlive (j : ℕ) : ((v.release i sb').remove d p pi).LiveInode j ↔ v.LiveInode j ∧ j ≠ i :=
    hr.liveInode
  have hsb : ((v.release i sb').remove d p pi).sb = sb' := rfl
  -- the directory is not the entry itself, since that is empty
  have hpii : pi ≠ i := by
    rintro rfl
    obtain ⟨hfp, hlinked, -⟩ :=
      hr.sane.size_eq hr.parent (List.ne_nil_of_mem hr.mem) hr.inode
    obtain rfl := hr.sane.tree.eq_of_find hlinked hr.linked hfp hr.find
    have hmem := hr.mem
    rw [hr.empty] at hmem
    cases hmem
  have hnumber (ino : BitVec 32) (hino : v.IsNumber ino) :
      ((v.release i sb').remove d p pi).IsNumber ino := by
    rw [IsNumber, hsb, hr.imap_eq, Bitmap.drop_size]
    exact hino
  refine
    { arranged := h.arranged.congr hr.places (by rw [hsb, hr.imap_eq, Bitmap.drop_size])
      tracked := fun j hj hX => ?_
      number := fun j hj => ?_
      marks := fun ino hino hbit => ?_
      distinct := fun a j ha hj hno => ?_
      page := fun j hj hsome => ?_ }
  · obtain ⟨hj', hji⟩ := (hlive j).1 hj
    by_cases hjpi : j = pi
    · subst hjpi
      exact (h.tracked j hj' hX).remove hr hlast hji
    · have hdi : ((v.release i sb').remove d p pi).di j = v.di j := by
        rw [di_remove, if_neg hjpi, di_release_of_ne hji]
      refine (h.tracked j hj' hX).transfer (fun hmem => mem_idirty_release.2 (.inr hmem))
        (fun _ => by rw [hdi]) (fun x hx => hx.congr hr.places fun _ _ => rfl)
        (.inl (by rw [hdi])) ?_
      rintro ⟨e, he, hinode, hchild⟩
      have hep : e ≠ p := by
        rintro rfl
        exact hjpi (Option.some.inj (hinode.symm.trans hr.inode))
      have hentry : ((v.release i sb').remove d p pi).entry e = v.entry e :=
        Function.update_of_ne hep ..
      refine ⟨e, List.mem_insert_of_mem he, ?_, ?_⟩
      · rw [hentry]
        exact hinode
      · rw [hentry]
        exact hchild
  · rw [hsame.no]
    refine hnumber _ (h.number j ?_)
    rcases hj with hj | hj
    · exact .inl ((hlive j).1 hj).1
    · rcases mem_idirty_release.1 hj with rfl | hj
      · exact .inl hr.live
      · exact .inr hj
  · rw [hsb, hr.imap_eq, Bitmap.test_drop, Bool.and_eq_true, Bool.not_eq_true',
      decide_eq_false_iff_not] at hbit
    obtain ⟨hpos, hmarks⟩ := h.marks ino hino hbit.2
    refine ⟨hpos, fun a ha => ?_⟩
    rw [hsame.find] at ha
    refine (hlive a).2 ⟨hmarks a ha, ?_⟩
    rintro rfl
    have hno : (v.di a).no = ino := (Tree.find_mem (t := v.tree dirSize) ha).2
    exact hbit.1 (by rw [hno])
  · rw [hsame.no, hsame.no] at hno
    have ha' := ((hlive a).1 ha).1
    rcases mem_idirty_release.1 hj with rfl | hj
    · exact ha'.eq_of_no hr.live hno
    · exact h.distinct a j ha' hj hno
  · rw [hsb, hr.places.area, addrs_release]
    rcases mem_idirty_release.1 hj with rfl | hj
    · exact howned.area_page hr.live hsome
    · exact h.page j hj hsome

end Release

theorem Records.removes (h : Records X v) (hs : v.Sane) (howned : v.Owned)
    (hd : (v.tree dirSize).Linked d) (hrem : v.Removes d v')
    (hlast : ∀ p, (v.entry d).parent = some p → v.Empties d p) : Records X v' := by
  obtain rfl | ⟨i, full, hf, rfl | ⟨p, pi, sb, sb', hr, rfl⟩⟩ := hrem.cases hs hd
  · exact h
  · exact h.load hs hf
  · refine (h.load hs hf).release howned.load hr ?_
    have hpd : p ≠ d := by
      rintro rfl
      have hmem := hr.mem
      rw [hr.empty] at hmem
      cases hmem
    rw [Empties, load_entry_of_ne hpd, (load_entry full d).2.1]
    refine hlast p ?_
    rw [← (load_entry full d).2.2]
    exact hr.sane.tree.parent p hr.parent d hr.mem

/-! ### Writing back -/

/-- A directory is taken from the list; if it is not empty, its inode does not wait any more. -/
theorem Records.setDdirty {l : List ℕ} (h : Records X v) (hl : v.ddirty = d :: l)
    (hY : ∀ j, j ∈ X ∨ ((v.entry d).inode = some j ∧ (v.entry d).child ≠ []) → j ∈ Y) :
    Records Y { v with ddirty := l } := by
  refine h.congr same_rest (fun _ => id) rfl rfl (fun _ => .inl) h.page fun j hj hnY => ?_
  refine (h.tracked j hj fun hX => hnY (hY j (.inl hX))).transfer id (fun _ => rfl) (fun _ => id)
    (.inl rfl) ?_
  rintro ⟨e, he, hinode, hchild⟩
  rw [hl] at he
  rcases List.mem_cons.1 he with rfl | he
  · exact absurd (hY j (.inr ⟨hinode, hchild⟩)) hnY
  · exact ⟨e, he, hinode, hchild⟩

theorem Records.inodeStep (h : Records X v) (hstep : InodeStep v v') : Records X v' := by
  cases hstep with
  | @mk i l pad hlist hno =>
    have hmem (j : ℕ) (hj : j ∈ l) : j ∈ v.idirty := by
      rw [hlist]
      exact List.mem_cons_of_mem _ hj
    have hi : i ∈ v.idirty := by
      rw [hlist]
      exact List.mem_cons_self
    refine h.congr same_rest (fun _ hj => hj) rfl rfl (fun j hj => .inl (hmem j hj))
      (fun j hj => h.page j (hmem j hj)) fun j hj hX => ?_
    by_cases hji : j = i
    · subst hji
      exact .inr ⟨_, h.arranged.recorded_updated (h.number j (.inr hi)) (h.page j hi), .inl rfl⟩
    · rcases h.tracked j hj hX with hmem' | ⟨size, hrec, hcase⟩
      · rw [hlist] at hmem'
        exact .inl ((List.mem_cons.1 hmem').resolve_left hji)
      · have hne : (v.di j).no ≠ (v.di i).no := fun heq => hji (h.distinct j i hj hi heq.symm).symm
        exact .inr ⟨size, hrec.congr .refl fun k => h.arranged.updatedDisk_record
          (h.number i (.inr hi)) (h.page i hi) (h.number j (.inl hj)) hne, hcase⟩

theorem Records.inodeSteps (h : Records X v) (hsteps : ReflTransGen InodeStep v v') :
    Records X v' := by
  induction hsteps with
  | refl => exact h
  | tail _ hstep ih => exact ih.inodeStep hstep

end View

theorem writeWords_of_not {disk : Disk} {map : ℕ → BitVec 64} {start count a : ℕ}
    (h : a < start * blockSize ∨ (start + count) * blockSize ≤ a) :
    writeWords disk map start count a = disk a := by
  rw [writeWords, if_neg (by omega)]

theorem writeSuper_of_ge {disk : Disk} {ds : DSuper} {a : ℕ}
    (h : (superBlockLocation + 1) * blockSize ≤ a) : writeSuper disk ds a = disk a := by
  have hname : (diskName disk).length = 4 := rfl
  rw [writeSuper]
  refine patch_of_ge ?_
  rw [length_flatMap_bytes32, DSuper.words]
  simp only [List.length_append, List.length_cons, List.length_nil, hname]
  simp only [superBlockLocation, blockSize] at h ⊢
  omega

/-- The superblock and the bitmaps are written outside of the inode area. -/
theorem disk_efsSyncSuper {st : Efs} {a : ℕ} (hlaid : Laid st.sb.ds)
    (hge : st.sb.ds.inodeAreaStart.toNat * blockSize ≤ a)
    (hlt : a < st.sb.ds.blockMapStart.toNat * blockSize) :
    (efsSyncSuper st).disk a = st.disk a := by
  have himap := hlaid.imap
  have hiarea := hlaid.iarea
  obtain ⟨hcount, -⟩ := hlaid.counts
  rw [efsSyncSuper]
  split
  · refine (writeWords_of_not (.inl hlt)).trans ((writeWords_of_not (.inr ?_)).trans ?_)
    · rw [hcount, Nat.add_sub_cancel' hiarea]
      exact hge
    · have hle := Nat.mul_le_mul_right blockSize (Nat.succ_le_of_lt (himap.trans_le hiarea))
      exact writeSuper_of_ge (hle.trans hge)
  · rfl

theorem View.Records.syncSuper {st : Efs} {X : Set ℕ} (h : st.view.Records X) :
    (efsSyncSuper st).view.Records X := by
  have hdisk (a : ℕ) := @disk_efsSyncSuper st a h.arranged.laid
  rw [view_efsSyncSuper]
  refine h.congr same_rest (fun _ hj => hj) rfl rfl (fun _ => .inl) h.page fun j hj hX => ?_
  refine (h.tracked j hj hX).transfer id (fun _ => rfl) (fun x hx => ?_) (.inl rfl) id
  exact h.arranged.recorded (h.number j (.inl hj)) hx .refl hdisk

/-- The records are kept by the writes to live inodes. -/
theorem keptByWrites_records {X : Set ℕ} :
    KeptByWrites Efs.TakesZeros fun v => v.Owned ∧ v.Records X := by
  rintro st st' i offset len vaddr r ⟨howned, h⟩ hi hzeros hwrite
  refine ⟨keptByWrites_owned st st' i offset len vaddr r howned hi hzeros hwrite, ?_⟩
  by_cases hrej : Rejected st i offset len
  · rw [eq_of_rejected hrej hwrite]
    exact h
  · exact h.writes howned hi (hzeros hrej) (writes_efsIWrite hwrite)

/-- While the file of a directory is written, its inode is left out; it is on `s_idirty_list`
afterwards. -/
theorem View.Records.syncDentries {st st' : Efs} {l : List ℕ} (h : st.view.Records ∅)
    (hs : st.view.Sane) (howned : st.view.Owned) (hl : st.ddirty = l)
    (hmeets : DentriesMeet Efs.TakesZeros l st) (hsync : efsSyncDentries l st = .ok st') :
    st'.view.Records ∅ := by
  refine (efsSyncDentries_keeps (Q := fun v => v.Owned ∧ v.Records ∅) ?_ ?_ hs hl hmeets
    ⟨howned, h⟩ hsync).2
  · rintro v d l ⟨howned, h⟩ hl hchild
    refine ⟨howned.setDdirty, h.setDdirty hl fun j hj => ?_⟩
    exact hj.elim id fun hj => absurd hchild hj.2
  · rintro st st' d l i ⟨howned, h⟩ hs hl hi hchild hmeets hloop
    have henter : ({ st with ddirty := l } : Efs).view.Records {i} := by
      refine h.setDdirty hl fun j hj => ?_
      rcases hj with hj | ⟨hj, -⟩
      · exact absurd hj (Set.notMem_empty j)
      · exact Option.some.inj (hj.symm.trans hi)
    obtain ⟨howned', hdone⟩ := keptByWrites_records.efsDUpdateLoop
      (hs.liveInode_of_ddirty hl hi hchild) hmeets ⟨howned.setDdirty, henter⟩ hloop
    have hlen := hs.length_child_le (hs.lists.head hl).1
    refine ⟨howned', { hdone with tracked := fun j hj _ => ?_ }⟩
    by_cases hji : j = i
    · subst hji
      exact .inl (mem_idirty_efsDUpdateLoop hchild hlen hloop)
    · exact hdone.tracked j hj hji

/-! ### Runs -/

/-- The number that `efs_d_creat` takes is that of no inode on `s_idirty_list`. -/
def Efs.FreshNumber (st : Efs) : Prop :=
  ∀ no sb, efsImapAlloc st.sb = .ok (no, sb) →
    ∀ i ∈ st.idirty, (st.inode i).di.no ≠ BitVec.ofInt 32 no

/-- If the directory of `d` becomes empty, its inode is on `s_idirty_list` or has the size zero on
the disk. -/
def Efs.EmptiesWritten (st : Efs) (d : ℕ) : Prop :=
  ∀ p i, (st.dentry d).parent = some p → (st.dentry p).child = [d] → (st.dentry d).child = [] →
    (st.dentry p).inode = some i →
      i ∈ st.idirty ∨ word32 st.disk (inodeAddr st.sb.ds (st.inode i).di.no + 12) = 0

/-- The conditions on a step, in the state before it. -/
def RecordsOk (st : Efs) (ev : FsEvent) : Prop :=
  BlocksOk st ev ∧
    match ev with
    | .creat _ _ _ => st.FreshNumber
    | .unlink d => st.EmptiesWritten d
    | _ => True

/-- Every step keeps what is not on the disk on a list: a live inode is on `s_idirty_list`, or
equals its record on the disk, apart from the size of a directory that waits on its own list. -/
theorem View.Records.step {st st' : Efs} {ev : FsEvent} (h : st.view.Records ∅)
    (hs : st.view.Sane) (howned : st.view.Owned) (hok : RecordsOk st ev)
    (hstep : FsStep st ev st') : st'.view.Records ∅ := by
  cases ev with
  | creat pd name type =>
    obtain ⟨hlive, r, hstep⟩ := hstep
    have hd := hlive.linked_view hs.tree
    exact h.creates hs hd (creates_efsDCreat hs.tree hs.seesDirs hd hstep) hok.2
  | write d offset len vaddr =>
    obtain ⟨hlive, i, r, hf, hstep⟩ := hstep
    have hi : st.view.LiveInode i := ⟨d, hlive.linked_view hs.tree, hf⟩
    exact (keptByWrites_records st st' i offset len vaddr r ⟨howned, h⟩ hi (hok.1.2 i hf) hstep).2
  | unlink d =>
    have hd := hstep.1.linked_view hs.tree
    exact h.removes hs howned hd (removes_efsDUnlink hs.tree hs.seesDirs hd hstep.2)
      fun p hp hone hempty i => hok.2 p i hp hone hempty
  | rename d name =>
    exact h.renames hs (renames_efsDRename hs.tree (hstep.1.linked_view hs.tree) hstep.2)
  | sync pad =>
    obtain ⟨st₁, hinodes, hdentries⟩ := bind_eq_ok.1 hstep
    obtain ⟨hsteps, -, hs₁⟩ := hs.syncInodes hinodes
    exact (h.syncSuper.inodeSteps hsteps).syncDentries hs₁ (howned.syncSuper.inodeSteps hsteps) rfl
      (hok.1 st₁ hinodes) hdentries

section Mount

variable {v : View} {disk : Disk} {diskSize : ℕ} {ipages bpages : ℕ → BitVec 64}

theorem laid_easySb (hfits : Fits diskSize) (hpos : 0 < inodeCount diskSize) :
    Laid (easySb diskSize) ∧ (easySb diskSize).inodeAreaStart.toNat = inodeAreaStart diskSize ∧
      (easySb diskSize).blockMapStart.toNat = blockMapStart diskSize := by
  have hle := blockAreaStart_le hfits
  obtain ⟨h₁, h₂, h₃⟩ := layout_eqs diskSize
  have hmap := inodeMapBlocks_eq_one hfits hpos
  have himap : (easySb diskSize).inodeMapStart.toNat = 2 := rfl
  have hiarea : (easySb diskSize).inodeAreaStart.toNat = inodeAreaStart diskSize := by
    rw [easySb, BitVec.toNat_ofNat, Nat.mod_eq_of_lt (by omega)]
  have hbmap : (easySb diskSize).blockMapStart.toNat = blockMapStart diskSize := by
    rw [easySb, BitVec.toNat_ofNat, Nat.mod_eq_of_lt (by omega)]
  have hbarea : (easySb diskSize).blockAreaStart.toNat = blockAreaStart diskSize := by
    rw [easySb, BitVec.toNat_ofNat, Nat.mod_eq_of_lt (by omega)]
  have hinodes := inodeCount_lt hfits hpos
  have hblocks := toInt_blockCount_of_fits hfits
  have hbits : dataMapBlocks diskSize = (totalBlocks diskSize + 32767) / 32768 := rfl
  refine ⟨⟨by rw [himap]; decide, ?_, ?_, ?_, ?_, ?_⟩, hiarea, hbmap⟩
  · omega
  · omega
  · omega
  · rw [hiarea, himap]
    omega
  · rw [hbarea, hbmap, hblocks]
    omega

theorem View.Mounted.arranged (h : v.Mounted disk diskSize ipages bpages) : v.Arranged := by
  obtain ⟨hlaid, hstart, hend⟩ := laid_easySb h.fits h.pos
  have hds : v.sb.ds = easySb diskSize := by rw [h.sb, mounted_ds]
  have hsize : v.sb.imap.size = (inodeCount diskSize - 1 : ℕ) := by
    rw [h.sb, mounted_imap, bitmapResetUnused_size, (bitmapResetAllo_cases _ 1).1, rawImap_size,
      toInt_inodeCount_of_fits h.fits h.pos]
  have hcount := h.fits.1
  have hpos := h.pos
  have hle (ino : BitVec 32) (hino : v.IsNumber ino) :
      ino.toNat + 1 ≤ inodeCount diskSize ∨ ino.toNat = 1 := by
    obtain ⟨-, hino | hino⟩ := hino
    · rw [hsize] at hino
      omega
    · exact .inr hino
  refine ⟨hds ▸ hlaid, fun ino hino => ?_, fun ino hino => ?_⟩
  · have hsz : (easySb diskSize).inodeSize.toNat = inodeSize := rfl
    have hbound := hle ino hino
    rw [hds, inodeAddr, BitVec.toNat_mul, hsz, Nat.mod_eq_of_lt, Nat.mul_comm ino.toNat]
    simp only [inodeSize]
    omega
  · have hbound := hle ino hino
    have hblocks := inodeAreaBlocks_pos h.fits h.pos
    have harea : inodeAreaBlocks diskSize = (inodeCount diskSize * 128 % 2 ^ 32 + 4095) / 4096 :=
      rfl
    obtain ⟨-, hbm, -⟩ := layout_eqs diskSize
    rw [hds, hstart, hend, hbm, Nat.add_mul, Nat.add_assoc, Nat.add_le_add_iff_left]
    simp only [inodeSize, dInodeSize, blockSize]
    omega

theorem View.Mounted.recorded (h : v.Mounted disk diskSize ipages bpages) :
    Recorded v.disk v.sb.ds (v.di 0).no (v.di 0) := by
  have harea := blockAreaStart_le h.fits
  obtain ⟨-, -, h₃⟩ := layout_eqs diskSize
  have hread : v.di 0 = .read v.disk (inodeAddr v.sb.ds 1) := by
    rw [h.di, h.disk, h.sb, mounted_ds, inodeAddr_easySb (by omega)]
  have hrec : Recorded v.disk v.sb.ds 1 (v.di 0) := hread ▸ recorded_read
  rwa [← h.no_root] at hrec

theorem View.Mounted.records (h : v.Mounted disk diskSize ipages bpages) : v.Records ∅ := by
  have hI : (v.tree dirSize).Inv := h.inv sizeView_dirSize
  have hlive (i : ℕ) (hi : v.LiveInode i) : i = 0 := h.liveInode hi
  have hroot : v.LiveInode 0 := by
    obtain ⟨i, hf, -⟩ := hI.found 0 (.inl rfl)
    have hi : v.LiveInode i := ⟨0, .inl rfl, hf⟩
    rwa [hlive i hi] at hi
  have hidirty (i : ℕ) : i ∉ v.idirty := by
    rw [h.idirty]
    exact List.not_mem_nil
  have harea := blockAreaStart_le h.fits
  obtain ⟨-, -, h₃⟩ := layout_eqs diskSize
  refine
    { arranged := h.arranged
      tracked := fun i hi _ => .inr ⟨(v.di i).size, ?_, .inl rfl⟩
      number := fun i hi => ?_
      marks := fun ino hino hbit => ⟨?_, fun i hi => ?_⟩
      distinct := fun i j _ hj => absurd hj (hidirty j)
      page := fun i hi => absurd hi (hidirty i) }
  · obtain rfl := hlive i hi
    exact h.recorded
  · obtain rfl := hlive i (hi.resolve_right (hidirty i))
    rw [h.no_root]
    exact ⟨by decide, .inr rfl⟩
  · refine Nat.pos_of_ne_zero fun hzero => ?_
    rw [hzero, h.sb, mounted_imap, test_bitmapResetUnused] at hbit
    have hraw : (rawImap disk ipages diskSize).test 0 = false := by
      rw [test_rawImap (by omega) (inodeMapBlocks_eq_one h.fits h.pos) (by decide)]
      rfl
    obtain ⟨-, -, htest | ⟨k, hk, -, -, htest⟩⟩ :=
      bitmapResetAllo_cases (rawImap disk ipages diskSize) 1
    · rw [htest, hraw] at hbit
      cases hbit
    · rw [htest, hraw, decide_eq_false (by omega)] at hbit
      cases hbit
  · have hlt : i < v.inodes := hI.find_lt hi
    rw [h.inodes] at hlt
    obtain rfl : i = 0 := by omega
    exact hroot

end Mount

/-- When the lists are empty, the records of live inodes are on the disk. -/
theorem View.Records.recorded {v : View} {i : ℕ} (h : v.Records ∅) (hidirty : v.idirty = [])
    (hddirty : v.ddirty = []) (hi : v.LiveInode i) :
    Recorded v.disk v.sb.ds (v.di i).no (v.di i) := by
  rcases h.tracked i hi (Set.notMem_empty i) with hmem | ⟨size, hrec, rfl | ⟨d, hd, -⟩⟩
  · rw [hidirty] at hmem
    cases hmem
  · exact hrec
  · rw [hddirty] at hd
    cases hd

/-- `efs_i_get` returns an inode as it is on the disk. -/
theorem View.Records.recordsWritten {st : Efs} (h : st.view.Records ∅) (hidirty : st.idirty = [])
    (hddirty : st.ddirty = []) : RecordsWritten st := by
  intro ino hino hbit
  obtain ⟨hpos, hmarks⟩ := h.marks ino hino hbit
  have hint : 0 < ino.toInt := by
    simp only [blockSize] at hino
    rw [BitVec.toInt_eq_toNat_of_lt (by omega)]
    omega
  cases hfind : hashFindInode st ino with
  | some i =>
    refine ⟨i, efsIDup st i, ?_, ?_⟩
    · simp only [efsIGet, hfind]
      exact if_neg (by omega)
    · have hno : (st.inode i).di.no = ino := (Tree.find_mem (t := st.view.tree dirSize) hfind).2
      have hview : (efsIDup st i).view = st.view := view_efsIDup
      have hdi : ((efsIDup st i).inode i).di = (st.inode i).di :=
        congrFun (congrArg View.di hview) i
      rw [hdi, ← hno]
      exact h.recorded hidirty hddirty (hmarks i hfind)
  | none =>
    refine ⟨st.inodes, _, efsIGet_of_none hfind hint, ?_⟩
    have hdi : ((efsIDup (st.withInode ino) st.inodes).inode st.inodes).di =
        .read st.disk (inodeAddr st.sb.ds ino) := by
      simp [efsIDup, Efs.modInode, Efs.withInode]
    exact hdi ▸ recorded_read

/-- In every run from a fresh disk whose steps meet the conditions, a pass of `efs_sync` that leaves
`s_idirty_list` empty has written the record of every number that is marked in the bitmap. -/
theorem recordsWritten_of_reachable {st st' : Efs} {pad : ℕ → BitVec 16}
    (h : Reachable Efs.Fresh (guarded RecordsOk FsStep) st) (hok : RecordsOk st (.sync pad))
    (hsync : FsStep st (.sync pad) st') (hidirty : st'.idirty = []) : RecordsWritten st' := by
  have hinv : st.view.Sane ∧ st.view.Owned ∧ st.view.Records ∅ := by
    refine h.invariant (P := fun st => st.view.Sane ∧ st.view.Owned ∧ st.view.Records ∅) ?_ ?_
    · rintro st ⟨disk, hfresh⟩
      obtain ⟨diskSize, ipages, bpages, hmounted⟩ := hfresh.mounted
      exact ⟨hmounted.sane, hmounted.owned, hmounted.records⟩
    · rintro st ev st' ⟨hs, howned, hrec⟩ ⟨hok, hstep⟩
      exact ⟨hs.step hok.1.filesOnly hstep, howned.step hs hok.1 hstep,
        hrec.step hs howned hok hstep⟩
  obtain ⟨hs, howned, hrec⟩ := hinv
  have hddirty := (hs.sync hsync).1
  exact (hrec.step hs howned hok hsync).recordsWritten hidirty hddirty

/-- The file `a` is created on a disk of 400 blocks and written back by two passes. The conditions
are met. -/
theorem exists_creat_sync_sync : ∃ st₀ st₁ st₂ st₃, Efs.Fresh st₀ ∧
    RecordsOk st₀ (.creat 0 (cstr [97]) .fReg) ∧ FsStep st₀ (.creat 0 (cstr [97]) .fReg) st₁ ∧
      RecordsOk st₁ (.sync fun _ => 0) ∧ FsStep st₁ (.sync fun _ => 0) st₂ ∧
        RecordsOk st₂ (.sync fun _ => 0) ∧ FsStep st₂ (.sync fun _ => 0) st₃ ∧
          st₃.idirty = [] ∧ st₃.ddirty = [] ∧ (st₃.dentry 0).child = [1] := by
  have hends : endsWith (fsRun [.creat 0 (cstr [97]) .fReg]) (fun st => st.ddirty = [0] ∧
      (st.dentry 0).child = [1] ∧ (fsRun [.sync fun _ => 0, .sync fun _ => 0] st).toOption.any
        (fun st' => st'.idirty = [] ∧ (st'.dentry 0).child = [1])) = true := by decide +kernel
  obtain ⟨st₀, st₁, hfresh, hrun, hend⟩ := exists_of_endsWith hends
  obtain ⟨hddirty, hchild, hsyncs⟩ := of_decide_eq_true hend
  obtain ⟨st, hcreat, hst⟩ := bind_eq_ok.1 hrun
  rw [Except.ok.inj hst] at hcreat
  have hfresh' := hfresh.fresh
  obtain ⟨diskSize, ipages, bpages, hmounted⟩ := hfresh.mounted
  have hok₀ : RecordsOk st₀ (.creat 0 (cstr [97]) .fReg) := by
    refine ⟨trivial, fun no sb _ i hi => ?_⟩
    rw [show st₀.idirty = [] from hmounted.idirty] at hi
    cases hi
  have hs₁ := hmounted.sane.step hok₀.1.filesOnly (fsStep_exec hcreat)
  have hok₁ : RecordsOk st₁ (.sync fun _ => 0) := by
    refine ⟨blocksOk_sync_of_le hs₁ fun d hd => ?_, trivial⟩
    rw [hddirty] at hd
    rw [List.mem_singleton.1 hd, hchild]
    decide
  cases hsync : fsRun [.sync fun _ => 0, .sync fun _ => 0] st₁ with
  | error e =>
    rw [hsync] at hsyncs
    cases hsyncs
  | ok st₃ =>
    rw [hsync] at hsyncs
    obtain ⟨hidirty', hchild'⟩ := of_decide_eq_true hsyncs
    obtain ⟨st₂, hsync₁, hsync⟩ := bind_eq_ok.1 hsync
    obtain ⟨st, hsync₂, hst⟩ := bind_eq_ok.1 hsync
    rw [Except.ok.inj hst] at hsync₂
    obtain ⟨hnil, hs₂⟩ := hs₁.sync hsync₁
    have hok₂ : RecordsOk st₂ (.sync fun _ => 0) := by
      refine ⟨blocksOk_sync_of_le hs₂ fun d hd => ?_, trivial⟩
      rw [hnil] at hd
      cases hd
    have hnil' := (hs₂.sync hsync₂).1
    exact ⟨st₀, st₁, st₂, st₃, hfresh.fresh, hok₀, fsStep_exec hcreat, hok₁, hsync₁, hok₂, hsync₂,
      hidirty', hnil', hchild'⟩

theorem recordsWritten_400_blocks : ∃ st st',
    Reachable Efs.Fresh (guarded RecordsOk FsStep) st ∧ RecordsOk st (.sync fun _ => 0) ∧
      FsStep st (.sync fun _ => 0) st' ∧ st'.idirty = [] ∧ (st'.dentry 0).child = [1] ∧
        RecordsWritten st' := by
  obtain ⟨st₀, st₁, st₂, st₃, hfresh, hok₀, hcreat, hok₁, hsync₁, hok₂, hsync₂, hidirty, -,
    hchild⟩ := exists_creat_sync_sync
  have hreach : Reachable Efs.Fresh (guarded RecordsOk FsStep) st₂ :=
    ((Reachable.start hfresh).next ⟨hok₀, hcreat⟩).next ⟨hok₁, hsync₁⟩
  exact ⟨st₂, st₃, hreach, hok₂, hsync₂, hidirty, hchild,
    recordsWritten_of_reachable hreach hok₂ hsync₂ hidirty⟩

/-- The number of the file `a` is reused before the inode of `a` is written. -/
theorem exists_record_not_written : ∃ st pad st', Reachable Efs.Fresh FsStep st ∧
    FsStep st (.sync pad) st' ∧ st'.idirty = [] ∧ ¬RecordsWritten st' := by
  have hends : endsWith (fsRun ([.creat 0 (cstr [97]) .fReg, .unlink 1,
      .creat 0 (cstr [98]) .fReg, .sync fun _ => 0] ++ [.sync fun _ => 0])) (fun st =>
        st.idirty = [] ∧ st.sb.imap.test 2 = true ∧ hashFindInode st 2 = some 2 ∧
          (st.inode 2).di.nlink = 1 ∧ word32 st.disk (inodeAddr st.sb.ds 2 + 68) = 0) = true := by
    decide +kernel
  obtain ⟨st₀, st', hfresh, hrun, hend⟩ := exists_of_endsWith hends
  obtain ⟨hidirty, hbit, hfind, hnlink, hword⟩ := of_decide_eq_true hend
  obtain ⟨st, hrun, hsync⟩ := fsRun_concat hrun
  refine ⟨st, _, st', reachable_fsRun hrun (.start hfresh.fresh), fsStep_exec hsync, hidirty,
    fun h => ?_⟩
  obtain ⟨i, st₁, hget, hrec⟩ := h 2 (by decide) hbit
  obtain ⟨rfl, hv⟩ := view_efsIGet hfind hget
  have hdi : (st₁.inode 2).di = (st'.inode 2).di := congrFun (congrArg View.di hv) 2
  have hone := hrec.nlink
  rw [hdi, hnlink, hword] at hone
  cases hone

end RiscvLab.Fs
