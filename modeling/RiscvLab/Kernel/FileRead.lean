import RiscvLab.Fs.FileWrite
import RiscvLab.Kernel.FileOffset

/-!
# Reading a file to its end

A program that reads a file in pieces calls `file_read` until it returns 0. But `file_read` takes
the result 0 of `efs_i_read` for a failure and panics, with `f_mutex` held. `efs_i_read` returns 0
at the end of the file, for the length 0, and when `f_off + len` wraps around. All other calls
return the bytes they should (`readsTotal_iff_of_reachable`).

The calls are those of one thread, so that `f_mutex` is free before each of them.

## Main definitions

* `fileReadCall`, `fileLlseekCall` : the calls with `f_mutex`.
* `ReadsTotal` : what `file_read` should do.
* `OpenForRead` : a file that is open for reading.

## Main results

* `OpenForRead.readsTotal_iff` : one call.
* `readsTotal_iff_of_reachable` : each call in a sequence of calls.

Source: `kernel/file.c`, lines 57–75 and 95–145; `fs/easyfs/inode.c`, lines 232–256.
-/

namespace RiscvLab.Fs

open Library

/-- The open files, and which of their mutexes are held. -/
structure LockedFiles where
  sys : FileSys
  locked : ℕ → Bool

/-- `mutex_lock(&f->f_mutex)` of a free mutex. -/
def LockedFiles.lock (s : LockedFiles) (f : ℕ) : LockedFiles :=
  { s with locked := Function.update s.locked f true }

/-- `mutex_unlock(&f->f_mutex)`. -/
def LockedFiles.unlock (s : LockedFiles) (f : ℕ) : LockedFiles :=
  { s with locked := Function.update s.locked f false }

/-- `file_read`: its result and the bytes that it stores. -/
def fileReadCall (s : LockedFiles) (f : ℕ) (len : BitVec 32) :
    Except Panic (ℤ × List (BitVec 8) × LockedFiles) :=
  if (s.sys.file f).flags &&& fileReadFlag = 0 then .ok (-1, [], s)
  else do
    let s := s.lock f
    let (bytes, sys) ← fileRead s.sys f len
    let s := { s with sys := sys }.unlock f
    match bytes with
    | none => .ok (-1, [], s)
    | some bytes => .ok ((BitVec.ofNat 32 bytes.length).toInt, bytes, s)

/-- `file_llseek`. -/
def fileLlseekCall (s : LockedFiles) (f : ℕ) (offset : BitVec 32) (whence : Seek) :
    Except Panic (ℤ × LockedFiles) := do
  let s := s.lock f
  let (ret, sys) ← fileLlseek s.sys f offset whence
  .ok (ret, { s with sys := sys }.unlock f)

/-- The calls on the file `f`. -/
inductive ReadCall
  | fileRead (len : BitVec 32)
  | fileLlseek (offset : BitVec 32) (whence : Seek)

/-- A call that returns; `file_llseek` is successful. -/
def FileReadStep (f : ℕ) (s : LockedFiles) (a : ReadCall) (s' : LockedFiles) : Prop :=
  match a with
  | .fileRead len => ∃ r bytes, fileReadCall s f len = .ok (r, bytes, s')
  | .fileLlseek offset whence => fileLlseekCall s f offset whence = .ok (0, s')

/-- The file `f` is open for reading on the well-formed inode `i`, and nobody holds its mutex. -/
structure OpenForRead (f i : ℕ) (s : LockedFiles) : Prop where
  flags : (s.sys.file f).flags &&& fileReadFlag ≠ 0
  ip : (s.sys.file f).ip = some i
  wellFormed : WellFormed s.sys.efs i
  off : (s.sys.file f).off.toNat ≤ (s.sys.efs.inode i).di.size.toNat
  free : s.locked f = false

/-- `file_open` has just returned the file. -/
def JustOpened (f i : ℕ) (s : LockedFiles) : Prop := OpenForRead f i s ∧ (s.sys.file f).off = 0

/-- `file_read` returns `min(len, i_size - f_off)`, stores these bytes of the file, advances `f_off`
by their number, releases `f_mutex`, and leaves the file as it is. -/
def ReadsTotal (f i : ℕ) (s : LockedFiles) (len : BitVec 32) : Prop :=
  let off := (s.sys.file f).off.toNat
  let n := min len.toNat ((s.sys.efs.inode i).di.size.toNat - off)
  ∃ s', fileReadCall s f len = .ok ((n : ℤ), ((s.sys.efs.file i).drop off).take n, s') ∧
    (s'.sys.file f).off.toNat = off + n ∧ s'.locked f = false ∧
    s'.sys.efs.file i = s.sys.efs.file i

namespace OpenForRead

variable {f i : ℕ} {s s' : LockedFiles} {len : BitVec 32}

variable (h : OpenForRead f i s)

include h

theorem size_lt : (s.sys.efs.inode i).di.size.toNat < 2 ^ 31 :=
  lt_of_le_of_lt h.wellFormed.size (by decide)

/-- `file_read` as a function of what `efs_i_read` returns. -/
theorem fileReadCall_eq {bytes : List (BitVec 8)} {efs : Efs}
    (hread : efsIRead s.sys.efs i (s.sys.file f).off len = .ok (bytes, efs))
    (hlen : bytes.length < 2 ^ 31) :
    fileReadCall s f len =
      if bytes.length = 0 then .error .fileRead
      else .ok ((bytes.length : ℤ), bytes,
        ⟨{ s.sys with efs := efs }.modFile f fun x =>
            { x with off := x.off + BitVec.ofNat 32 bytes.length },
          Function.update s.locked f false⟩) := by
  have hint : (BitVec.ofNat 32 bytes.length).toInt = bytes.length := toInt_ofNat hlen
  rw [fileReadCall, if_neg h.flags]
  simp only [LockedFiles.lock, LockedFiles.unlock, fileRead, if_neg h.flags, h.ip, hread, bind,
    Except.bind, hint]
  by_cases hzero : bytes.length = 0
  · rw [if_pos hzero, if_neg (by omega)]
  · rw [if_neg hzero, if_pos (by omega)]
    simp only [Function.update_idem, hint]

/-- `file_read` panics if `f_off + len` wraps around. -/
theorem fileReadCall_wrap (hwrap : 2 ^ 32 ≤ (s.sys.file f).off.toNat + len.toNat) :
    fileReadCall s f len = .error .fileRead := by
  have hread : efsIRead s.sys.efs i (s.sys.file f).off len = .ok ([], s.sys.efs) := by
    have hlt : (s.sys.file f).off + len < (s.sys.file f).off := by
      rw [BitVec.lt_def, BitVec.toNat_add]
      omega
    rw [efsIRead, if_pos (.inr hlt)]
  rw [h.fileReadCall_eq hread (by decide)]
  rfl

/-- `file_read` otherwise, with the number `n` of bytes up to the end of the file. -/
theorem exists_fileReadCall (hwrap : (s.sys.file f).off.toNat + len.toNat < 2 ^ 32) :
    let off := (s.sys.file f).off.toNat
    let n := min len.toNat ((s.sys.efs.inode i).di.size.toNat - off)
    ∃ efs, ReadFrame s.sys.efs efs ∧ fileReadCall s f len =
      if n = 0 then .error .fileRead
      else .ok ((n : ℤ), ((s.sys.efs.file i).drop off).take n,
        ⟨{ s.sys with efs := efs }.modFile f fun x => { x with off := x.off + BitVec.ofNat 32 n },
          Function.update s.locked f false⟩) := by
  intro off n
  obtain ⟨efs, hread, hframe⟩ := efsIRead_eq h.wellFormed.noHoles h.off hwrap
  have hlen : ((s.sys.efs.file i).drop off).length = (s.sys.efs.inode i).di.size.toNat - off := by
    rw [List.length_drop, Efs.file, MInode.length_file]
  have htake : ((s.sys.efs.file i).drop off).take len.toNat =
      ((s.sys.efs.file i).drop off).take n := by
    rw [List.take_eq_take_min, hlen]
  have hn : (((s.sys.efs.file i).drop off).take n).length = n := by
    rw [List.length_take, hlen]
    exact min_eq_left (min_le_right ..)
  have hlt : n < 2 ^ 31 := by
    have := h.size_lt
    omega
  refine ⟨efs, hframe, ?_⟩
  rw [htake] at hread
  rw [h.fileReadCall_eq hread (by rwa [hn]), hn]

/-- One call of `file_read` does what it should, unless no byte is asked for, the offset is at the
end of the file, or the sum of offset and length wraps. -/
theorem readsTotal_iff (len : BitVec 32) :
    ReadsTotal f i s len ↔ 0 < len.toNat ∧
      (s.sys.file f).off.toNat < (s.sys.efs.inode i).di.size.toNat ∧
      (s.sys.file f).off.toNat + len.toNat < 2 ^ 32 := by
  by_cases hwrap : (s.sys.file f).off.toNat + len.toNat < 2 ^ 32
  · obtain ⟨efs, hframe, heq⟩ := h.exists_fileReadCall hwrap
    rw [ReadsTotal]
    dsimp only at heq ⊢
    rw [heq]
    split_ifs with hn
    · refine iff_of_false ?_ fun hcond => ?_
      · rintro ⟨s', hs', -⟩
        cases hs'
      · omega
    · refine iff_of_true ⟨_, rfl, ?_, Function.update_self .., hframe.file i⟩ (by omega)
      have := h.size_lt
      have := h.off
      simp only [FileSys.modFile, Function.update_self, BitVec.toNat_add, BitVec.toNat_ofNat]
      omega
  · refine iff_of_false ?_ fun hcond => hwrap hcond.2.2
    rintro ⟨s', hs', -⟩
    rw [h.fileReadCall_wrap (Nat.le_of_not_lt hwrap)] at hs'
    cases hs'

/-- The file after a call, with the offset `off`. -/
theorem setOff {efs : Efs} (hframe : ReadFrame s.sys.efs efs) {off : BitVec 32}
    (hoff : off.toNat ≤ (s.sys.efs.inode i).di.size.toNat) :
    OpenForRead f i ⟨{ s.sys with efs := efs }.modFile f fun x => { x with off := off },
      Function.update s.locked f false⟩ where
  flags := by
    simp only [FileSys.modFile, Function.update_self]
    exact h.flags
  ip := by
    simp only [FileSys.modFile, Function.update_self]
    exact h.ip
  wellFormed := hframe.wellFormed h.wellFormed
  off := by
    simp only [FileSys.modFile, Function.update_self, hframe.di]
    exact hoff
  free := Function.update_self ..

theorem setOffset_ok {offset : BitVec 32} {sys : FileSys}
    (hset : setOffset s.sys f i offset = (0, sys)) :
    OpenForRead f i ⟨sys, Function.update s.locked f false⟩ := by
  rw [setOffset] at hset
  split_ifs at hset with hlt
  · cases (Prod.mk.inj hset).1
  · obtain rfl := (Prod.mk.inj hset).2
    rw [BitVec.lt_def] at hlt
    exact h.setOff .refl (by omega)

theorem step {a : ReadCall} (hstep : FileReadStep f s a s') : OpenForRead f i s' := by
  cases a with
  | fileRead len =>
    obtain ⟨r, bytes, hcall⟩ := hstep
    by_cases hwrap : (s.sys.file f).off.toNat + len.toNat < 2 ^ 32
    · obtain ⟨efs, hframe, heq⟩ := h.exists_fileReadCall hwrap
      dsimp only at heq
      rw [heq] at hcall
      split_ifs at hcall with hn
      obtain rfl := (Prod.mk.inj (ok_prod_inj hcall).2).2
      have := h.size_lt
      have := h.off
      refine h.setOff hframe ?_
      simp only [BitVec.toNat_add, BitVec.toNat_ofNat]
      omega
    · rw [h.fileReadCall_wrap (Nat.le_of_not_lt hwrap)] at hcall
      cases hcall
  | fileLlseek offset whence =>
    simp only [FileReadStep, fileLlseekCall, LockedFiles.lock, LockedFiles.unlock, fileLlseek, h.ip,
      Function.update_idem] at hstep
    have hset : ∀ newOffset, (do
        let (ret, sys) ← (Except.ok (setOffset s.sys f i newOffset) : Except Panic _)
        Except.ok (ret, (⟨sys, Function.update s.locked f false⟩ : LockedFiles))) = .ok (0, s') →
        OpenForRead f i s' := by
      intro newOffset hok
      obtain ⟨hret, rfl⟩ := ok_prod_inj hok
      exact h.setOffset_ok (Prod.ext hret rfl)
    cases whence with
    | seekSet => exact hset _ hstep
    | seekCur => exact hset _ hstep
    | seekEnd => exact hset _ hstep
    | other => cases (ok_prod_inj hstep).1

end OpenForRead

/-- Each call of `file_read` in a sequence of calls returns what it should exactly if the length is
positive, the offset is before the end of the file, and the sum of the two does not wrap around. -/
theorem readsTotal_iff_of_reachable {f i : ℕ} {s : LockedFiles}
    (hr : Reachable (JustOpened f i) (FileReadStep f) s) (len : BitVec 32) :
    ReadsTotal f i s len ↔ 0 < len.toNat ∧
      (s.sys.file f).off.toNat < (s.sys.efs.inode i).di.size.toNat ∧
      (s.sys.file f).off.toNat + len.toNat < 2 ^ 32 := by
  have h : OpenForRead f i s :=
    hr.invariant (P := OpenForRead f i) (fun _ hs => hs.1) fun _ _ _ hs hstep => hs.step hstep
  exact h.readsTotal_iff len

/-- A file that has just been opened on the inode 0. -/
def openedFile (st : Efs) : LockedFiles :=
  ⟨⟨st, fun _ => ⟨1, fileReadFlag, some 0, 0⟩, 1, fun _ => 0⟩, fun _ => false⟩

theorem justOpened_openedFile {st : Efs} (hwf : WellFormed st 0) :
    JustOpened 0 0 (openedFile st) :=
  have hflags : fileReadFlag &&& fileReadFlag ≠ 0 := by decide
  ⟨⟨hflags, rfl, hwf, Nat.zero_le _, rfl⟩, rfl⟩

/-- A file of three bytes in the block 8. -/
def threeBytes : Efs :=
  { oneFile with
    inode := fun _ =>
      ⟨⟨1, .fNone, 0, 3, fun k => if k = 0 then 8 else 0, 1⟩, 1, false, true, none⟩ }

theorem block_threeBytes (l : ℕ) : threeBytes.block 0 l = if l = 0 then 8 else 0 := by
  unfold Efs.block MInode.block
  by_cases hl : l < nDirect
  · rw [if_pos hl]
    rfl
  · have hl0 : l ≠ 0 := by
      rintro rfl
      exact hl (by decide)
    rw [if_neg hl, if_neg fun h => h.2 rfl, if_neg hl0]

theorem wellFormed_threeBytes : WellFormed threeBytes 0 where
  known := by decide
  size := by decide
  noHoles l hl := by
    have hl0 : l = 0 := by
      have hsize : (threeBytes.inode 0).di.size.toNat = 3 := rfl
      rw [hsize, blockSize] at hl
      omega
    rw [block_threeBytes, if_pos hl0]
    decide
  indir h := by cases h
  distinct l l' hne heq := by
    rw [block_threeBytes] at hne heq
    rw [block_threeBytes] at heq
    by_cases hl : l = 0 <;> by_cases hl' : l' = 0 <;> simp_all
  indirect l hne := hne
  unshared j hj hj0 := absurd (Nat.lt_one_iff.1 hj) hj0

/-- `file_llseek` to the second byte, then `file_read` with the length 8: two bytes. -/
theorem readsTotal_two_bytes : ∃ s, Reachable (JustOpened 0 0) (FileReadStep 0) s ∧
    (s.sys.file 0).off = 1 ∧ ReadsTotal 0 0 s 8 := by
  have h₀ : Reachable (JustOpened 0 0) (FileReadStep 0) (openedFile threeBytes) :=
    .start (justOpened_openedFile wellFormed_threeBytes)
  have h₁ := h₀.next (a := ReadCall.fileLlseek 1 .seekSet) rfl
  exact ⟨_, h₁, rfl, (readsTotal_iff_of_reachable h₁ 8).2 (by decide)⟩

/-- `file_read` at the end of a file, here of an empty one. -/
theorem exists_fileRead_panic : ∃ s, Reachable (JustOpened 0 0) (FileReadStep 0) s ∧
    fileReadCall s 0 1 = .error .fileRead ∧ ¬ReadsTotal 0 0 s 1 := by
  have hopen := justOpened_openedFile wellFormed_oneFile
  refine ⟨_, .start hopen, rfl, ?_⟩
  rw [hopen.1.readsTotal_iff]
  decide

end RiscvLab.Fs
