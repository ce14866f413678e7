import RiscvLab.Fs.Frames
import RiscvLab.Fs.InodeRecord
import RiscvLab.Fs.SparseWrite

/-!
# Writing a directory and reading it back

A directory is a file of entries of 24 bytes. `efs_d_update` writes the children of an entry to the
file, one after the other, and `efs_d_fill` reads them from it. The size of the file has been grown
before, when the children were made, so that `efs_d_update` writes inside the file. It may have to
take blocks for the end of it. Blocks are of 4096 bytes, which is no multiple of 24: an entry may be
split between two of them, and `efs_i_write` and `efs_i_read` put it together.

## Main definitions

* `Dirent.bytes` : an entry as it is written.
* `efsDUpdate`
* `DirInode` : the inode of a directory.
* `RoundTrips` : what is written is read back.

## Main results

* `Dirent.entry_read`, `fileEntries_flatMap` : one entry, and a sequence of them.
* `efsDUpdateLoop_written` : what `efs_d_update` writes.
* `efsDFillLoop_filled` : what `efs_d_fill` reads.
* `roundTrips_of_dirInode`

Source: `fs/easyfs/dentry.c`, lines 96–136; `fs/easyfs/easyfs.h`, lines 113–124.
-/

namespace RiscvLab.Fs

open Library

/-! ### One entry -/

@[simp]
theorem FileType.toWord_ofWord (w : BitVec 32) : (FileType.ofWord w).toWord = w := by
  rw [FileType.ofWord]
  split_ifs with hw h₀ h₁ h₂
  · rfl
  · exact h₀.symm
  · exact h₁.symm
  · exact h₂.symm
  · rw [toWord]
    bv_omega

theorem FileType.toWord_injective : Function.Injective FileType.toWord := by
  refine Function.LeftInverse.injective (g := FileType.ofWord) fun t => ?_
  cases t with
  | other w hw => exact dif_pos hw
  | _ => rfl

/-- The contents of a `struct easy_dirent`: `d_ino`, `d_type` and the bytes of `d_name`. -/
abbrev DirEntry : Type := BitVec 32 × BitVec 32 × List (BitVec 8)

namespace Dirent

/-- The bytes of a `struct easy_dirent`. -/
def bytes (dd : Dirent) : List (BitVec 8) :=
  [dd.ino, dd.type.toWord].flatMap bytes32 ++ slice dd.name 0 dirMaxlen

/-- The contents of an entry. -/
def entry (dd : Dirent) : DirEntry :=
  (dd.ino, dd.type.toWord, slice dd.name 0 dirMaxlen)

@[simp]
theorem length_bytes (dd : Dirent) : dd.bytes.length = direntSize := by
  rw [bytes, List.length_append, length_flatMap_bytes32, length_slice]
  rfl

/-- An entry that has been written is read back, whatever the memory held before: its 24 bytes are
the number of the inode, the type and the 16 bytes of the name. -/
theorem entry_read (f : ℕ → BitVec 8) (dd : Dirent) :
    (Dirent.read (patch f 0 dd.bytes)).entry = dd.entry := by
  have hlen : ([dd.ino, dd.type.toWord].flatMap bytes32).length = 8 := rfl
  have hpatch : patch f 0 dd.bytes = patch (patch f 0 ([dd.ino, dd.type.toWord].flatMap bytes32))
      8 (slice dd.name 0 dirMaxlen) := by
    rw [bytes, patch_append, hlen]
  have hino : word32 (patch f 0 dd.bytes) 0 = dd.ino := by
    rw [hpatch, word32_patch_of_disjoint (.inl (by omega))]
    exact word32_patch (a := 0) (i := 0) (by simp)
  have htype : word32 (patch f 0 dd.bytes) 4 = dd.type.toWord := by
    rw [hpatch, word32_patch_of_disjoint (.inl (by omega))]
    exact word32_patch (a := 0) (i := 1) (by simp)
  have hname : slice (Dirent.read (patch f 0 dd.bytes)).name 0 dirMaxlen =
      slice dd.name 0 dirMaxlen := by
    refine slice_congr fun k hk => ?_
    rw [Nat.zero_add]
    refine (if_pos hk).trans ?_
    rw [hpatch, patch_of_mem (by omega) (by rw [length_slice]; omega)]
    simp [slice]
  rw [entry, hname, entry, Dirent.read, hino, htype, FileType.toWord_ofWord]

/-- The contents of an entry are in its 24 bytes. -/
theorem entry_congr {f g : ℕ → BitVec 8} (h : ∀ k < direntSize, f k = g k) :
    (Dirent.read f).entry = (Dirent.read g).entry := by
  have hword (a : ℕ) (ha : a + 4 ≤ direntSize) : word32 f a = word32 g a :=
    word32_congr fun k hk => h _ (by omega)
  have hname : slice (Dirent.read f).name 0 dirMaxlen = slice (Dirent.read g).name 0 dirMaxlen := by
    refine slice_congr fun k hk => ?_
    rw [Nat.zero_add]
    refine (if_pos hk).trans (Eq.trans (h _ ?_) (if_pos hk).symm)
    simp only [dirMaxlen, direntSize] at hk ⊢
    omega
  rw [entry, entry, hname, Dirent.read, Dirent.read, hword 0 (by decide), hword 4 (by decide)]

end Dirent

/-- The entry in a sequence of bytes. -/
def readEntry (bytes : List (BitVec 8)) : DirEntry := (Dirent.read (bytes.getD · 0)).entry

/-- The first `n` entries in a file. -/
def fileEntries : ℕ → List (BitVec 8) → List DirEntry
  | 0, _ => []
  | n + 1, file => readEntry (file.take direntSize) :: fileEntries n (file.drop direntSize)

theorem entry_read_patch {bytes : List (BitVec 8)} (h : bytes.length = direntSize)
    (f : ℕ → BitVec 8) : (Dirent.read (patch f 0 bytes)).entry = readEntry bytes := by
  refine Dirent.entry_congr fun k hk => ?_
  rw [patch_of_mem (Nat.zero_le _) (by omega), List.getD_eq_getElem _ _ (by omega)]
  rfl

/-- Entries that have been written one after the other, 24 bytes each, are read back as they were
and in their order. -/
theorem fileEntries_flatMap (dds : List Dirent) :
    fileEntries dds.length (dds.flatMap Dirent.bytes) = dds.map Dirent.entry := by
  induction dds with
  | nil => rfl
  | cons dd dds ih =>
    rw [List.length_cons, List.flatMap_cons, fileEntries, List.take_left' dd.length_bytes,
      List.drop_left' dd.length_bytes, ih, List.map_cons,
      ← entry_read_patch dd.length_bytes fun _ => 0, Dirent.entry_read]

/-! ### `efs_d_update` -/

/-- The loop of `efs_d_update` over the children `ds`. -/
def efsDUpdateLoop (i : ℕ) : List ℕ → ℕ → Efs → Except Panic Efs
  | [], _, st => .ok st
  | d :: ds, offset, st => do
    let (_, st) ← efsIWrite st i (BitVec.ofNat 32 offset) (BitVec.ofNat 32 direntSize)
      ((st.dentry d).dd.bytes.getD · 0)
    efsDUpdateLoop i ds (offset + direntSize) st

/-- `efs_d_update`. -/
def efsDUpdate (st : Efs) (pd : ℕ) : Except Panic Efs := do
  let (i, st) ← efsDCache st pd
  efsDUpdateLoop i (st.dentry pd).child 0 st

variable {st st' st₀ st₁ st₂ : Efs} {i k n pd pd' offset : ℕ} {bs : List (BitVec 32)}

/-- The contents of the children, as `efs_d_update` writes them. -/
def Efs.dirents (st : Efs) (ds : List ℕ) : List (BitVec 8) :=
  ds.flatMap fun d => (st.dentry d).dd.bytes

theorem Efs.length_dirents (st : Efs) (ds : List ℕ) :
    (st.dirents ds).length = ds.length * direntSize := by
  simp [dirents, List.length_flatMap]

/-- `efs_d_update` writes the children one after the other. With enough free blocks the loop
returns, and the file has their bytes from `offset` on. -/
theorem efsDUpdateLoop_written {ds : List ℕ} (hwf : WellMapped st i) (hs : Supply st bs)
    (hn : st.needed i offset (ds.length * direntSize) ≤ bs.length)
    (hin : offset + ds.length * direntSize ≤ (st.inode i).di.size.toNat)
    (hmax : (st.inode i).di.size.toNat ≤ maxFileSize) :
    ∃ st' used, efsDUpdateLoop i ds offset st = .ok st' ∧
      DataWritten st st' i offset (st.dirents ds) used := by
  induction ds generalizing st offset bs with
  | nil => exact ⟨st, [], rfl, .nil⟩
  | cons d ds ih =>
    rw [List.length_cons, Nat.add_mul, Nat.one_mul, Nat.add_comm] at hn hin
    have hfirst : st.needed i offset direntSize ≤ bs.length := needed_le_add.trans hn
    obtain ⟨st₁, used, rest, hwrite, rfl, hused, hw, hwf₁, hs₁⟩ :=
      efsIWrite_mapped hwf hs hfirst (by omega) hmax ((st.dentry d).dd.bytes.getD · 0)
    have hbytes := slice_getD (st.dentry d).dd.bytes 0
    rw [Dirent.length_bytes] at hbytes
    rw [hbytes] at hw
    have hlen := (st.dentry d).dd.length_bytes
    have hne : (st.dentry d).dd.bytes ≠ [] := by
      rw [← List.length_pos_iff, hlen]
      decide
    have hadd := needed_add_le (n := ds.length * direntSize) hw hne
    rw [hlen] at hadd
    rw [List.length_append] at hn
    obtain ⟨st', used', hloop, hw'⟩ := ih hwf₁ hs₁ (by omega)
      (show offset + direntSize + ds.length * direntSize ≤ _ by rw [hw.size]; omega)
      (hw.size ▸ hmax)
    refine ⟨st', used ++ used', ?_, ?_⟩
    · simp only [efsDUpdateLoop, hwrite, bind, Except.bind]
      exact hloop
    · rw [Efs.dirents, hw.dentry] at hw'
      exact hw.trans (hlen ▸ hw')

/-! ### `efs_d_fill` -/

/-- The file of the inode has no holes, and holds `data` from the entry `k` on. -/
structure Holds (st : Efs) (i k : ℕ) (data : List (BitVec 8)) : Prop where
  noHoles : ∀ l, l * blockSize < (st.inode i).di.size.toNat → st.block i l ≠ 0
  file : (st.file i).drop (k * direntSize) = data

theorem ReadFrame.holds {data : List (BitVec 8)} (h : ReadFrame st st') (hd : Holds st i k data) :
    Holds st' i k data := by
  refine ⟨?_, ?_⟩
  · rw [h.di, h.block]
    exact hd.noHoles
  · rw [h.file]
    exact hd.file

theorem SameMap.holds {data : List (BitVec 8)} (h : SameMap st st' i)
    (hsize : (st'.inode i).di.size = (st.inode i).di.size) (hd : Holds st i k data) :
    Holds st' i k data := by
  refine ⟨?_, ?_⟩
  · rw [hsize, h.block]
    exact hd.noHoles
  · rw [Efs.file, MInode.file, hsize, h.byte]
    exact hd.file

theorem efsIReadLoop_dentry {fuel offset left : ℕ} :
    Ensures (fun _ => True) (efsIReadLoop i fuel st offset left) fun r =>
      r.2.dentry = st.dentry ∧ r.2.dentries = st.dentries ∧ r.2.ihash = st.ihash := by
  induction fuel generalizing st offset left with
  | zero => exact .ok ⟨rfl, rfl, rfl⟩
  | succ fuel ih =>
    rw [efsIReadLoop]
    split
    · exact .ok ⟨rfl, rfl, rfl⟩
    rw [efsIBmap_false]
    generalize hst : (if nDirect ≤ offset / blockSize ∧
        offset / blockSize < nDirect + nIndirect ∧ (st.inode i).di.addrs nDirect ≠ 0 then
          st.loadIndir i else st) = st₁
    have hbmap : st₁.dentry = st.dentry ∧ st₁.dentries = st.dentries ∧ st₁.ihash = st.ihash := by
      rw [← hst]
      split <;> exact ⟨rfl, rfl, rfl⟩
    simp only [bind, Except.bind]
    split
    · exact .ok hbmap
    · refine ih.bind fun r hr => .ok ?_
      exact ⟨hr.1.trans hbmap.1, hr.2.1.trans hbmap.2.1, hr.2.2.trans hbmap.2.2⟩

/-- Reading a file leaves the entries and the hash table alone. -/
theorem efsIRead_dentry {offset len : BitVec 32} :
    Ensures (fun _ => True) (efsIRead st i offset len) fun r =>
      r.2.dentry = st.dentry ∧ r.2.dentries = st.dentries ∧ r.2.ihash = st.ihash := by
  simp only [efsIRead]
  split
  · exact .ok ⟨rfl, rfl, rfl⟩
  · exact efsIReadLoop_dentry

/-- An entry that has been read, and whose inode and children have not. -/
def Dentry.Unread (x : Dentry) : Prop := x.filled = false ∧ x.inode = none ∧ x.child = []

/-- The children `ds`, with the contents `es`, have been read into memory for the entry `pd`. -/
structure Filled (st st' : Efs) (pd : ℕ) (ds : List ℕ) (es : List DirEntry) : Prop where
  dentries : st.dentries ≤ st'.dentries
  other : ∀ e < st.dentries, e ≠ pd → st'.dentry e = st.dentry e
  self : st'.dentry pd = { st.dentry pd with child := (st.dentry pd).child ++ ds }
  fresh : ∀ d ∈ ds, st.dentries ≤ d ∧ d < st'.dentries ∧ (st'.dentry d).Unread
  entries : ds.map (fun d => (st'.dentry d).dd.entry) = es
  ihash : st'.ihash = st.ihash
  frame : ReadFrame st st'

theorem Filled.nil : Filled st st pd [] [] :=
  ⟨le_rfl, fun _ _ _ => rfl, by rw [List.append_nil], by simp, rfl, rfl, .refl⟩

theorem Filled.trans {ds ds' : List ℕ} {es es' : List DirEntry} (hpd : pd < st.dentries)
    (h : Filled st st₁ pd ds es) (h' : Filled st₁ st' pd ds' es') :
    Filled st st' pd (ds ++ ds') (es ++ es') := by
  -- The entries that follow leave the first ones as they are.
  have hsame (d : ℕ) (hd : d ∈ ds) : st'.dentry d = st₁.dentry d := by
    obtain ⟨hle, hlt, -⟩ := h.fresh d hd
    exact h'.other d hlt (by omega)
  refine ⟨h.dentries.trans h'.dentries, fun e he hne => ?_, ?_, fun d hd => ?_, ?_,
    h'.ihash.trans h.ihash, h.frame.trans h'.frame⟩
  · rw [h'.other e (he.trans_le h.dentries) hne, h.other e he hne]
  · rw [h'.self, h.self, List.append_assoc]
  · rcases List.mem_append.1 hd with hd | hd
    · obtain ⟨hle, hlt, hfilled⟩ := h.fresh d hd
      rw [hsame d hd]
      exact ⟨hle, hlt.trans_le h'.dentries, hfilled⟩
    · obtain ⟨hle, hlt⟩ := h'.fresh d hd
      exact ⟨h.dentries.trans hle, hlt⟩
  · rw [List.map_append, h'.entries, ← h.entries]
    congr 1
    exact List.map_congr_left fun d hd => by rw [hsame d hd]

/-- The body of the loop adds an entry with the bytes that have been read. -/
theorem efsDFillEntry_of_read {bytes : List (BitVec 8)} (hpd : pd < st.dentries)
    (hlen : bytes.length = direntSize)
    (hread : efsIRead (efsDAlloc st).2 i (BitVec.ofNat 32 (k * direntSize))
      (BitVec.ofNat 32 direntSize) = .ok (bytes, st₁))
    (hframe : ReadFrame (efsDAlloc st).2 st₁) :
    ∃ st', efsDFillEntry st pd i k = .ok st' ∧
      Filled st st' pd [st.dentries] [readEntry bytes] := by
  obtain ⟨hdentry, hdentries, hihash⟩ := efsIRead_dentry.of_eq_ok hread
  have hne : pd ≠ st.dentries := hpd.ne
  have hold (e : ℕ) (he : e ≠ st.dentries) : st₁.dentry e = st.dentry e := by
    rw [hdentry]
    exact Function.update_of_ne he ..
  have hnew : st₁.dentry st.dentries =
      ⟨.read (st.junk st.dentries), none, none, [], false, false⟩ := by
    rw [hdentry]
    exact Function.update_self ..
  have heq : efsDFillEntry st pd i k = .ok (efsDAddsb (efsDConn (st₁.modDentry st.dentries fun x =>
      { x with dd := .read (patch (st₁.junk st.dentries) 0 bytes) }) st.dentries pd)
        st.dentries) := by
    simp only [efsDFillEntry, hread, bind, Except.bind]
    rfl
  refine ⟨_, heq, ?_, fun e he hpde => ?_, ?_, fun d hd => ?_, ?_, hihash,
    ⟨hframe.disk, hframe.sb, hframe.inodes, hframe.inode⟩⟩
  · exact (Nat.le_succ _).trans hdentries.ge
  · simp only [efsDAddsb, efsDConn, Efs.modDentry_dentry_of_ne hpde,
      Efs.modDentry_dentry_of_ne he.ne, hold e he.ne]
  · simp only [efsDAddsb, efsDConn, Efs.modDentry_dentry_self, Efs.modDentry_dentry_of_ne hne,
      hold pd hne]
  · rw [List.mem_singleton] at hd
    subst hd
    refine ⟨le_rfl, (Nat.lt_succ_self _).trans_eq hdentries.symm, ?_⟩
    simp only [Dentry.Unread, efsDAddsb, efsDConn, Efs.modDentry_dentry_of_ne hne.symm,
      Efs.modDentry_dentry_self, hnew, and_self]
  · simp only [List.map_cons, List.map_nil, efsDAddsb, efsDConn,
      Efs.modDentry_dentry_of_ne hne.symm, Efs.modDentry_dentry_self, entry_read_patch hlen]

theorem efsDFillEntry_filled {data : List (BitVec 8)} (hpd : pd < st.dentries)
    (hd : Holds st i k data) (hlen : direntSize ≤ data.length) :
    ∃ st', efsDFillEntry st pd i k = .ok st' ∧
      Filled st st' pd [st.dentries] [readEntry (data.take direntSize)] ∧
        Holds st' i (k + 1) (data.drop direntSize) := by
  have hsize := congrArg List.length hd.file
  rw [List.length_drop,
    show (st.file i).length = (st.inode i).di.size.toNat from MInode.length_file] at hsize
  have hlt := (st.inode i).di.size.isLt
  have hpos : 0 < direntSize := by decide
  have hoffset : (BitVec.ofNat 32 (k * direntSize)).toNat = k * direntSize := by
    rw [BitVec.toNat_ofNat, Nat.mod_eq_of_lt (by omega)]
  have hdirent : (BitVec.ofNat 32 direntSize).toNat = direntSize := rfl
  obtain ⟨st₁, hread, hframe⟩ := @efsIRead_eq (efsDAlloc st).2 i (BitVec.ofNat 32 (k * direntSize))
    (BitVec.ofNat 32 direntSize) hd.noHoles
    (by rw [hoffset]; exact (show k * direntSize ≤ (st.inode i).di.size.toNat by omega))
    (by rw [hoffset, hdirent]; omega)
  have hbytes : ((efsDAlloc st).2.file i).drop (k * direntSize) = data := hd.file
  rw [hoffset, hdirent, hbytes] at hread
  obtain ⟨st', heq, hfilled⟩ := efsDFillEntry_of_read hpd (by rw [List.length_take]; omega) hread
    hframe
  refine ⟨st', heq, hfilled, hfilled.frame.holds ⟨hd.noHoles, ?_⟩⟩
  rw [Nat.add_mul, Nat.one_mul, ← List.drop_drop, hd.file]

/-- `efs_d_fill` reads the entries that the file holds, in their order, and each becomes a child of
the directory with the name and the inode number that it has on the disk. -/
theorem efsDFillLoop_filled {data : List (BitVec 8)} (hpd : pd < st.dentries)
    (hd : Holds st i k data) (hlen : n * direntSize ≤ data.length) :
    ∃ st' ds, efsDFillLoop pd i n k st = .ok st' ∧ Filled st st' pd ds (fileEntries n data) := by
  induction n generalizing st k data with
  | zero => exact ⟨st, [], rfl, .nil⟩
  | succ n ih =>
    rw [Nat.add_mul, Nat.one_mul] at hlen
    obtain ⟨st₁, hentry, hfilled, hd₁⟩ := efsDFillEntry_filled hpd hd (by omega)
    obtain ⟨st', ds, hloop, hfilled'⟩ := ih (hpd.trans_le hfilled.dentries) hd₁
      (by rw [List.length_drop]; omega)
    refine ⟨st', st.dentries :: ds, ?_, hfilled.trans hpd hfilled'⟩
    simp only [efsDFillLoop, hentry, bind, Except.bind]
    exact hloop

/-! ### The round trip -/

/-- `d_ino`, `d_type` and `d_name` of the children. -/
def Efs.entries (st : Efs) (pd : ℕ) : List DirEntry :=
  (st.dentry pd).child.map fun d => (st.dentry d).dd.entry

/-- The inode `i` in memory has the number `ino`, and is that of a directory with `n` entries. -/
structure DirInode (st : Efs) (ino : BitVec 32) (i n : ℕ) : Prop extends WellMapped st i where
  find : hashFindInode st ino = some i
  number : 0 ≤ ino.toInt
  refcnt : (st.inode i).refcnt.toNat < 2 ^ 31 - 1
  size : (st.inode i).di.size.toNat = n * direntSize
  max : n * direntSize ≤ maxFileSize

/-- The file has no holes, or there are enough blocks for them. -/
def HasRoom (st : Efs) (i n : ℕ) : Prop :=
  (∀ l, l * blockSize < n * direntSize → st.block i l ≠ 0) ∨
    ∃ bs, Supply st bs ∧ st.needed i 0 (n * direntSize) ≤ bs.length

/-- An entry for the number `ino` whose children have not been read. -/
structure FreshEntry (st : Efs) (pd : ℕ) (ino : BitVec 32) : Prop where
  known : pd < st.dentries
  ino : (st.dentry pd).dd.ino = ino
  child : (st.dentry pd).child = []

/-- The children of `pd` are written to the file of the inode `i`, and read as those of `pd'`. -/
def RoundTrips (st : Efs) (pd pd' i : ℕ) : Prop :=
  ∃ st₁ st₂, efsDUpdate st pd = .ok st₁ ∧ efsDFill st₁ pd' = .ok st₂ ∧
    st₂.entries pd' = st.entries pd ∧
      (st₁.inode i).di.size.toNat = (st.dentry pd).child.length * direntSize ∧
        (st₂.inode i).di.size.toNat = (st.dentry pd).child.length * direntSize

theorem supply_nil (st : Efs) : Supply st [] :=
  ⟨⟨st.sb, .nil⟩, List.nodup_nil, by simp, by simp, by simp⟩

theorem needed_eq_zero (h : ∀ l, l * blockSize < n → st.block i l ≠ 0) : st.needed i 0 n = 0 := by
  rw [Efs.needed]
  by_cases hn : n = 0
  · exact if_pos hn
  have hlt (l : ℕ) (hl : l ≤ (0 + n - 1) / blockSize) : l * blockSize < n := by
    have hmul := Nat.mul_le_of_le_div _ _ _ hl
    omega
  have hfilter : (List.range' (0 / blockSize) ((0 + n - 1) / blockSize + 1 - 0 / blockSize)).filter
      (fun l => st.block i l = 0) = [] := by
    refine List.filter_eq_nil_iff.2 fun l hl => ?_
    rw [List.mem_range'_1] at hl
    simpa using h l (hlt l (by simp only [blockSize] at hl ⊢; omega))
  have haddr : ¬((st.inode i).di.addrs nDirect = 0 ∧ nDirect ≤ (0 + n - 1) / blockSize) := by
    rintro ⟨ha, hl⟩
    refine h nDirect (hlt nDirect hl) ?_
    rw [Efs.block, MInode.block, if_neg (lt_irrefl _), if_neg fun h => h.2 ha]
  rw [if_neg hn]
  dsimp only
  rw [hfilter, if_neg haddr]
  rfl

theorem HasRoom.exists_supply (h : HasRoom st i n) :
    ∃ bs, Supply st bs ∧ st.needed i 0 (n * direntSize) ≤ bs.length := by
  rcases h with h | h
  · exact ⟨[], supply_nil st, (needed_eq_zero h).le⟩
  · exact h

theorem DataWritten.holds {data : List (BitVec 8)} {used : List (BitVec 32)}
    (hw : DataWritten st st' i 0 data used) (hsize : (st'.inode i).di.size.toNat = data.length) :
    Holds st' i 0 data := by
  refine ⟨fun l hl => ?_, ?_⟩
  · have hmapped := hw.mapped (l * blockSize) (Nat.zero_le _) (by omega)
    rwa [Nat.mul_div_cancel _ (by decide)] at hmapped
  · rw [Nat.zero_mul, List.drop_zero, Efs.file, MInode.file, hsize]
    refine List.ext_getElem (length_slice ..) fun k _ hk => ?_
    rw [← hw.written k hk]
    simp [slice]

theorem efsIGet_of_find {ino : BitVec 32} (hnumber : 0 ≤ ino.toInt)
    (hfind : hashFindInode st ino = some i) : efsIGet st ino = .ok (i, efsIDup st i) := by
  rw [efsIGet, if_neg (by omega), hfind]

/-- `efs_d_fill` of an entry whose inode is in memory. -/
theorem efsDFill_of_find {data : List (BitVec 8)} {ino : BitVec 32} (hpd : pd < st.dentries)
    (hino : (st.dentry pd).dd.ino = ino) (hfind : hashFindInode st ino = some i)
    (hnumber : 0 ≤ ino.toInt) (hrefcnt : (st.inode i).refcnt.toNat < 2 ^ 31 - 1)
    (hd : Holds st i 0 data) (hsize : (st.inode i).di.size.toNat = data.length) :
    ∃ st₁ ds, efsDFill st pd = .ok (st₁.modInode i fun x => { x with refcnt := x.refcnt - 1 }) ∧
      Filled ((efsIDup st i).modDentry pd fun x => { x with inode := some i }) st₁ pd ds
        (fileEntries (data.length / direntSize) data) := by
  have hget := efsIGet_of_find hnumber hfind
  generalize hst₁ : ((efsIDup st i).modDentry pd fun x => { x with inode := some i }) = st₁
  have hinode : st₁.inode i = { st.inode i with refcnt := (st.inode i).refcnt + 1 } := by
    rw [← hst₁, Efs.modDentry_inode, efsIDup, Efs.modInode_inode_self]
  have hsame : SameMap st st₁ i := by
    have hdup : SameMap st (efsIDup st i) i := .of_modInode rfl rfl
    rw [← hst₁]
    exact ⟨hdup.disk, hdup.sb, hdup.inodes, hdup.other, hdup.addrs, hdup.indir⟩
  have hsize₁ : (st₁.inode i).di.size = (st.inode i).di.size := by rw [hinode]
  obtain ⟨st₂, ds, hloop, hfilled⟩ := efsDFillLoop_filled (n := data.length / direntSize)
    (show pd < st₁.dentries by rw [← hst₁]; exact hpd) (hsame.holds hsize₁ hd)
    (Nat.div_mul_le_self ..)
  have hrefcnt₂ : (st₂.inode i).refcnt = (st.inode i).refcnt + 1 := by
    rcases hfilled.frame.inode i with h | ⟨-, h⟩ <;> rw [h] <;> simp [hinode, MInode.load]
  have hput : 0 < (st₂.inode i).refcnt.toInt := by
    have hadd : ((st.inode i).refcnt + 1).toNat = (st.inode i).refcnt.toNat + 1 := by
      rw [BitVec.toNat_add, Nat.mod_eq_of_lt (by simp; omega)]
      rfl
    rw [hrefcnt₂, BitVec.toInt_eq_toNat_of_lt (by omega)]
    omega
  have hcount : (st₁.inode i).di.size.toNat / direntSize = data.length / direntSize := by
    rw [hsize₁, hsize]
  refine ⟨st₂, ds, ?_, hfilled⟩
  simp only [efsDFill, hino, hget, bind, Except.bind, hst₁, hcount, hloop, efsIPut, if_pos hput]

/-- An entry that had no children has those that have been read. -/
theorem Filled.entries_eq {dds : List Dirent} {ds : List ℕ} (hchild : (st.dentry pd).child = [])
    (h : Filled st st' pd ds (fileEntries ((dds.flatMap Dirent.bytes).length / direntSize)
      (dds.flatMap Dirent.bytes))) : st'.entries pd = dds.map Dirent.entry := by
  have hcount : (dds.flatMap Dirent.bytes).length / direntSize = dds.length := by
    simp [List.length_flatMap, direntSize]
  have hds : (st'.dentry pd).child = ds := by
    rw [h.self, hchild, List.nil_append]
  rw [Efs.entries, hds, h.entries, hcount, fileEntries_flatMap]

/-- Looking an inode up leaves the entries alone. -/
theorem efsIGet_dentry {ino : BitVec 32} :
    Ensures (fun _ => True) (efsIGet st ino) fun r =>
      r.2.dentry = st.dentry ∧ r.2.dentries = st.dentries := by
  rcases hf : hashFindInode st ino with _ | i
  · by_cases hpos : 0 < ino.toInt
    · rw [efsIGet_of_none hf hpos]
      exact .ok ⟨rfl, rfl⟩
    · rw [efsIGet]
      split
      · exact .error trivial
      · simp only [hf, efsIFill, if_pos (show ino.toInt ≤ 0 by omega)]
        exact .error trivial
  · rw [efsIGet, hf]
    split
    · exact .error trivial
    · exact .ok ⟨rfl, rfl⟩

/-- Looking up the inode of an entry leaves the contents of the entries alone. -/
theorem efsDCache_dirent (h : efsDCache st pd = .ok (i, st₀)) :
    st₀.dentries = st.dentries ∧ ∀ d, (st₀.dentry d).dd = (st.dentry d).dd ∧
      (st₀.dentry d).child = (st.dentry d).child := by
  rw [efsDCache] at h
  split at h
  · obtain ⟨-, rfl⟩ := ok_prod_inj h
    exact ⟨rfl, fun _ => ⟨rfl, rfl⟩⟩
  · obtain ⟨⟨i', st₁⟩, hget, h⟩ := bind_eq_ok.1 h
    obtain ⟨st₂, hput, h⟩ := bind_eq_ok.1 h
    obtain ⟨-, rfl⟩ := ok_prod_inj h
    obtain ⟨hdentry, hdentries⟩ := efsIGet_dentry.of_eq_ok hget
    rw [efsIPut] at hput
    split at hput
    · obtain rfl := Except.ok.inj hput
      refine ⟨hdentries, fun d => ?_⟩
      rw [Efs.modInode_dentry]
      by_cases hd : d = pd
      · subst hd
        rw [Efs.modDentry_dentry_self, hdentry]
        exact ⟨rfl, rfl⟩
      · rw [Efs.modDentry_dentry_of_ne hd, hdentry]
        exact ⟨rfl, rfl⟩
    · cases hput

/-- What `hash_find` returns depends on the hash table and on the numbers. -/
theorem hashFindInode_congr (hihash : st'.ihash = st.ihash)
    (hno : ∀ j, (st'.inode j).di.no = (st.inode j).di.no) (ino : BitVec 32) :
    hashFindInode st' ino = hashFindInode st ino := by
  rw [hashFindInode, hashFindInode, hihash]
  simp only [hno]

theorem MapFrame.no_eq (h : MapFrame st st' i) (j : ℕ) :
    (st'.inode j).di.no = (st.inode j).di.no := by
  by_cases hj : j = i
  · subst hj
    exact h.no
  · rw [h.other j hj]

/-- The children of a directory that are written are read back, with the same contents and in the
same order. -/
theorem roundTrips_of_dirInode (hcache : efsDCache st pd = .ok (i, st₀))
    (hdir : DirInode st₀ (st.dentry pd).dd.ino i (st.dentry pd).child.length)
    (hroom : HasRoom st₀ i (st.dentry pd).child.length)
    (hfresh : FreshEntry st pd' (st.dentry pd).dd.ino) : RoundTrips st pd pd' i := by
  obtain ⟨hdentries, hdentry⟩ := efsDCache_dirent hcache
  obtain ⟨bs, hs, hn⟩ := hroom.exists_supply
  obtain ⟨st₁, used, hloop, hw⟩ := efsDUpdateLoop_written hdir.toWellMapped hs hn
    (by rw [Nat.zero_add, hdir.size]) (hdir.size ▸ hdir.max)
  have hsize : (st₁.inode i).di.size.toNat = (st.dentry pd).child.length * direntSize := by
    rw [hw.size, hdir.size]
  have hdirents : st₀.dirents (st.dentry pd).child =
      ((st.dentry pd).child.map fun d => (st.dentry d).dd).flatMap Dirent.bytes := by
    rw [List.flatMap_map]
    simp only [Efs.dirents, (hdentry _).1]
  have hholds := hw.holds (by rw [hsize, Efs.length_dirents])
  rw [hdirents] at hholds
  have hfresh₁ : FreshEntry st₁ pd' (st.dentry pd).dd.ino := by
    refine ⟨?_, ?_, ?_⟩
    · rw [hw.dentries, hdentries]
      exact hfresh.known
    · rw [hw.dentry, (hdentry pd').1]
      exact hfresh.ino
    · rw [hw.dentry, (hdentry pd').2]
      exact hfresh.child
  obtain ⟨st₂, ds, hfill, hfilled⟩ := efsDFill_of_find hfresh₁.known hfresh₁.ino
    (by rw [hashFindInode_congr hw.ihash hw.toMapFrame.no_eq, hdir.find]) hdir.number
    (hw.refcnt ▸ hdir.refcnt) hholds
    (by rw [hsize, ← hdirents, Efs.length_dirents])
  have hentries := hfilled.entries_eq (by rw [Efs.modDentry_dentry_self]; exact hfresh₁.child)
  refine ⟨st₁, _, ?_, hfill, ?_, hsize, ?_⟩
  · simp only [efsDUpdate, hcache, bind, Except.bind, (hdentry pd).2]
    exact hloop
  · rw [List.map_map] at hentries
    exact hentries
  · rw [Efs.modInode_inode_self, hfilled.frame.di, Efs.modDentry_inode, efsIDup,
      Efs.modInode_inode_self]
    exact hsize

/-! ### A directory of two entries -/

/-- The entry 0 is a directory with the children 1 and 2, for whose contents there is no block yet.
The entry 3 is another one for the same inode. -/
def twoEntries : Efs := { oneFile with
  inode := fun _ => ⟨⟨1, .fDir, 0, 48, fun _ => 0, 1⟩, 1, false, true, none⟩
  dentry := fun d => ⟨⟨if d = 1 then 5 else if d = 2 then 7 else 1, .fDir,
    fun k => if k = 0 then BitVec.ofNat 8 (96 + d) else 0⟩, if d = 0 then some 0 else none, none,
      if d = 0 then [1, 2] else [], false, false⟩
  dentries := 4
  ihash := fun k => if k = 1 then [0] else [] }

private theorem block_twoEntries (i l : ℕ) : twoEntries.block i l = 0 := by
  unfold Efs.block MInode.block
  split_ifs with _ h
  · rfl
  · exact absurd rfl h.2
  · rfl

private theorem uses_twoEntries (i : ℕ) (b : BitVec 32) :
    ¬(twoEntries.inode i).Uses twoEntries.disk b := by
  rintro ⟨hne, hb | ⟨l, hb⟩⟩
  · exact hne hb
  · exact hne (hb.trans (block_twoEntries i l))

private theorem dirInode_twoEntries : DirInode twoEntries 1 0 2 where
  known := by decide
  indir := fun h => by cases h
  distinct := fun l _ h => absurd (block_twoEntries 0 l) h
  indirect := fun l h => absurd (block_twoEntries 0 l) h
  unshared := fun _ _ _ b h => absurd h (uses_twoEntries 0 b)
  find := by decide
  number := by decide
  refcnt := by decide
  size := by decide
  max := by decide

private theorem hasRoom_twoEntries : HasRoom twoEntries 0 2 :=
  .inr ⟨[8], ⟨supply_oneFile.alloc, by decide, by simp, fun b _ j _ => uses_twoEntries j b,
    fun _ _ _ _ => rfl⟩, by decide⟩

/-- The two entries are written to a block that is taken for them, and read back. -/
theorem roundTrips_two_entries : RoundTrips twoEntries 0 3 0 :=
  roundTrips_of_dirInode rfl dirInode_twoEntries hasRoom_twoEntries ⟨by decide, rfl, rfl⟩

end RiscvLab.Fs
