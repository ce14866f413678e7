import RiscvLab.Kernel.FileRefs

/-!
# Offsets of open files

The offset of an open file is within the file, and the file is not larger than the block map allows.
With this bound the unsigned comparisons of `file_llseek` are right for an offset that is read as a
signed number.

Only `efs_d_unlink` makes a file shorter that is open: it takes 24 from the size of the inode of the
directory. The directory of an entry is a regular file if the entry has been read from the bytes of
that file.

## Main definitions

* `FileRun.OffsetsOk` : offsets and sizes are in bounds, and `file_llseek` computes with integers.
* `Undisturbed` : the calls that keep this.

## Main results

* `exec_bounded` : what one call preserves.
* `offsetsOk_of_reachable` : offsets are in bounds in every run of such calls.
* `exists_offset_beyond_size` : a file that is open gets shorter than its offset.

Source: `kernel/file.c`, lines 57–145; `fs/easyfs/inode.c`, lines 232–286 and 362–403.
-/

namespace RiscvLab.Fs

open Library FileRun

/-! ### How much is read -/

section Read

variable {st : Efs} {i : ℕ}

theorem length_efsIReadLoop {fuel offset left : ℕ} :
    Ensures (fun _ => True) (efsIReadLoop i fuel st offset left) fun r => r.1.length ≤ left := by
  induction fuel generalizing st offset left with
  | zero => exact .ok (Nat.zero_le _)
  | succ fuel ih =>
    rw [efsIReadLoop]
    split
    · exact .ok (Nat.zero_le _)
    refine Ensures.trivial.bind fun r _ => ?_
    dsimp only
    split
    · exact .ok (Nat.zero_le _)
    · refine ih.bind fun r' hr' => .ok ?_
      rw [List.length_append, length_slice]
      omega

/-- `efs_i_read` stops at the end of the file. -/
theorem length_efsIRead {offset len : BitVec 32} (h : offset ≤ (st.inode i).di.size) :
    Ensures (fun _ => True) (efsIRead st i offset len) fun r =>
      offset.toNat + r.1.length ≤ (st.inode i).di.size.toNat := by
  rw [BitVec.le_def] at h
  simp only [efsIRead]
  split
  · exact .ok h
  · rename_i hoff
    rw [not_or, BitVec.not_lt, BitVec.not_lt] at hoff
    obtain ⟨-, hwrap⟩ := hoff
    refine length_efsIReadLoop.mono fun r hr => ?_
    rw [BitVec.le_def, BitVec.toNat_add] at hwrap
    split at hr
    · rw [BitVec.toNat_sub] at hr
      omega
    · rename_i hend
      rw [BitVec.not_lt, BitVec.le_def, BitVec.toNat_add] at hend
      omega

end Read

namespace FileRun

/-- Where `file_llseek` counts from. -/
def seekBase (s : FileRun) (f i : ℕ) : Seek → Option ℕ
  | .seekSet => some 0
  | .seekCur => some (s.sys.file f).off.toNat
  | .seekEnd => some (s.efs.inode i).di.size.toNat
  | .other => none

/-- The offsets of open files are within the files, and the files within the maximal size. -/
def Bounded (s : FileRun) : Prop :=
  ∀ f i, 0 < s.handles f → (s.sys.file f).ip = some i →
    (s.sys.file f).off.toNat ≤ (s.efs.inode i).di.size.toNat ∧
      (s.efs.inode i).di.size.toNat ≤ maxFileSize

/-- Offsets are in bounds, so that a write is not refused for its offset, and `file_llseek` moves to
`base + k` if that is within the file and else leaves the offset as it is. -/
structure OffsetsOk (s : FileRun) : Prop where
  bounded : s.Bounded
  write : ∀ f i, 0 < s.handles f → (s.sys.file f).ip = some i → ∀ len vaddr r st,
    (s.sys.file f).off.toNat + len.toNat ≤ maxFileSize →
      efsIWrite s.efs i (s.sys.file f).off len vaddr = .ok (r, st) → r ≠ -1
  seek : ∀ f i, 0 < s.handles f → (s.sys.file f).ip = some i →
    ∀ (offset : BitVec 32) whence base, s.seekBase f i whence = some base →
      if 0 ≤ (base : ℤ) + offset.toInt ∧
          (base : ℤ) + offset.toInt ≤ (s.efs.inode i).di.size.toNat then
        ∃ off : BitVec 32, (off.toNat : ℤ) = base + offset.toInt ∧
          fileLlseek s.sys f offset whence =
            .ok (0, s.sys.modFile f fun x => { x with off := off })
      else fileLlseek s.sys f offset whence = .ok (-1, s.sys)

end FileRun

/-- The calls that leave the files that are open as long as they are: a file that is opened, unless
it is open already, is not too large, and no file is open on the inode of the directory that an
entry is unlinked from.

The size of a file is asked for when it is opened, and not of the disk at the start: `efs_i_fill`
takes the bytes at the place of any number for a record, and these may be the data of a file that
has been written in the meantime. -/
def Undisturbed (s : FileRun) : FileEvent → Prop
  | .fileOpen path _ => s.InRange ∧ ∀ i st, efsDNamei s.efs path = .ok (some i, st) →
      s.openFiles i = ∅ → (st.inode i).di.size.toNat ≤ maxFileSize
  | .efsDUnlink d => s.InRange ∧ ∀ e, d = some e → ∀ i ∈ s.efs.parentInode e, s.openFiles i = ∅
  | .efsDWrite _ _ _ _ => False
  | _ => s.InRange

section Offsets

variable {s s' : FileRun} {f i : ℕ}

theorem Undisturbed.inRange {e : FileEvent} (h : Undisturbed s e) : s.InRange := by
  cases e with
  | fileOpen path flags => exact h.1
  | efsDUnlink d => exact h.1
  | efsDWrite d offset len vaddr => exact h.elim
  | _ => exact h

/-- A call that changes neither offsets nor the sizes of files that are open. -/
theorem FileRun.Bounded.congr (h : s.Bounded)
    (hfile : ∀ f, 0 < s'.handles f → 0 < s.handles f ∧ (s'.sys.file f).ip = (s.sys.file f).ip ∧
      (s'.sys.file f).off = (s.sys.file f).off)
    (hsize : ∀ f i, 0 < s.handles f → (s.sys.file f).ip = some i →
      (s'.efs.inode i).di.size = (s.efs.inode i).di.size) : s'.Bounded := by
  intro f i hf hip
  obtain ⟨hf', hip', hoff⟩ := hfile f hf
  rw [hip'] at hip
  rw [hoff, hsize f i hf' hip]
  exact h f i hf' hip

theorem FileRun.RefInv.size_of_loads {st : Efs} {D : Set ℕ} {δ : ℕ → BitVec 32} (h : RefInv s)
    (hload : Loads D δ s.efs st) (hf : 0 < s.handles f) (hip : (s.sys.file f).ip = some i) :
    (st.inode i).di.size = (s.efs.inode i).di.size := by
  obtain ⟨i', hip', hi, -⟩ := h.exists_ip hf
  obtain rfl : i = i' := Option.some.inj (hip.symm.trans hip')
  rw [hload.di i hi]

theorem FileRun.Bounded.setEfs {st : Efs} {D : Set ℕ} {δ : ℕ → BitVec 32} (hb : s.Bounded)
    (h : RefInv s) (hload : Loads D δ s.efs st) : (s.setEfs st).Bounded :=
  hb.congr (fun _ hf => ⟨hf, rfl, rfl⟩) fun _ _ hf hip => h.size_of_loads hload hf hip

/-- The offset of one file and the size of its inode are changed. -/
theorem FileRun.Bounded.setOff {sys : FileSys} (hb : s.Bounded)
    (hip : (s.sys.file f).ip = some i)
    (hfile : ∀ g, g ≠ f → sys.file g = s.sys.file g) (hipf : (sys.file f).ip = some i)
    (hoff : (sys.file f).off.toNat ≤ (sys.efs.inode i).di.size.toNat)
    (hgrow : (s.efs.inode i).di.size.toNat ≤ (sys.efs.inode i).di.size.toNat)
    (hmax : (sys.efs.inode i).di.size.toNat ≤ maxFileSize)
    (hsize : ∀ g j, 0 < s.handles g → (s.sys.file g).ip = some j → j ≠ i →
      (sys.efs.inode j).di.size = (s.efs.inode j).di.size) :
    FileRun.Bounded { s with sys := sys } := by
  intro g j hg hj
  dsimp only [FileRun.efs] at hg hj ⊢
  by_cases hgf : g = f
  · subst hgf
    obtain rfl : i = j := Option.some.inj (hipf.symm.trans hj)
    exact ⟨hoff, hmax⟩
  · rw [hfile g hgf] at hj ⊢
    by_cases hji : j = i
    · subst hji
      exact ⟨(hb g j hg hj).1.trans hgrow, hmax⟩
    · rw [hsize g j hg hj hji]
      exact hb g j hg hj

/-! ### Calls -/

theorem fileOpen_bounded {path : List (BitVec 8)} {flags : BitVec 32} (h : RefInv s)
    (hb : s.Bounded) (hu : Undisturbed s (.fileOpen path flags)) :
    Ensures (fun _ => True) (s.exec (.fileOpen path flags)) FileRun.Bounded := by
  have hnamei := @efsDNamei_spec s.efs path h.wf (h.refsOk hu.1)
  have hmax := hu.2
  rw [efs] at hnamei hmax
  rw [exec, fileOpen_eq]
  rcases hst : efsDNamei s.sys.efs path with p | ⟨_ | i, st⟩
  · exact .error trivial
  · obtain ⟨-, hload⟩ | ⟨i, hi, -⟩ := hnamei.of_eq_ok hst
    · exact .ok (hb.setEfs h hload)
    · cases hi
  · obtain ⟨hi, -⟩ | ⟨i', hi, -, hload⟩ := hnamei.of_eq_ok hst
    · cases hi
    obtain rfl : i = i' := Option.some.inj hi
    have hold (g j : ℕ) (hg : 0 < s.handles g) (hj : (s.sys.file g).ip = some j) :
        (s.sys.file g).off.toNat ≤ (st.inode j).di.size.toNat ∧
          (st.inode j).di.size.toNat ≤ maxFileSize := by
      rw [h.size_of_loads hload hg hj]
      exact hb g j hg hj
    refine .ok fun g j hg hj => ?_
    dsimp only [FileRun.efs, FileSys.opened] at hg hj ⊢
    by_cases hgf : g = s.sys.files
    · subst hgf
      rw [Function.update_self] at hj ⊢
      obtain rfl : i = j := Option.some.inj hj
      refine ⟨Nat.zero_le _, ?_⟩
      rcases (s.openFiles i).eq_empty_or_nonempty with hnone | ⟨f, hf⟩
      · exact hmax i st hst hnone
      · obtain ⟨hf, hip⟩ := h.mem_openFiles.mp hf
        exact (hold f i hf hip).2
    · rw [Function.update_of_ne hgf] at hg hj ⊢
      exact hold g j hg hj

theorem fileDup_bounded (hb : s.Bounded) (hf : 0 < s.handles f) :
    Ensures (fun _ => True) (s.exec (.fileDup f)) FileRun.Bounded := by
  rw [exec, fileDup]
  split
  · refine .ok (hb.congr (fun g hg => ?_) fun _ _ _ _ => rfl)
    by_cases hgf : g = f
    · subst hgf
      exact ⟨hf, by simp [FileSys.modFile], by simp [FileSys.modFile]⟩
    · exact ⟨by simpa [hgf] using hg, by simp [FileSys.modFile, hgf],
        by simp [FileSys.modFile, hgf]⟩
  · exact .error trivial

theorem fileClose_bounded (h : RefInv s) (hb : s.Bounded) (hf : 0 < s.handles f) :
    Ensures (fun _ => True) (s.exec (.fileClose f)) FileRun.Bounded := by
  obtain ⟨i, hip, hi, hmem⟩ := h.exists_ip hf
  have hfile : ∀ g, (((s.sys.modFile f fun x => { x with ref := x.ref - 1 }).file g).ip =
      (s.sys.file g).ip) ∧ (((s.sys.modFile f fun x => { x with ref := x.ref - 1 }).file g).off =
        (s.sys.file g).off) := by
    intro g
    by_cases hgf : g = f
    · subst hgf
      simp [FileSys.modFile]
    · simp [FileSys.modFile, hgf]
  have hhandles : ∀ g, 0 < Function.update s.handles f (s.handles f - 1) g → 0 < s.handles g := by
    intro g hg
    by_cases hgf : g = f
    · subst hgf
      exact hf
    · rwa [Function.update_of_ne hgf] at hg
  have hpos : 0 < (s.efs.refs i).toInt := by
    rw [h.toInt_refs]
    exact_mod_cast refsTo_pos_of_mem hmem
  rw [exec, fileClose]
  split
  · simp only [hfile f, hip]
    split
    · refine Ensures.bind (P := fun sys => ∃ st, Loads ∅ (-Pi.single i 1) s.efs st ∧ sys =
          fileFree { s.sys.modFile f fun x => { x with ref := x.ref - 1 } with efs := st } f) ?_ ?_
      · exact (efsIPut_spec (D := ∅) h.wf hi hpos).any.bind fun st hload => .ok ⟨st, hload, rfl⟩
      · rintro sys ⟨st, hload, rfl⟩
        exact .ok (hb.congr (fun g hg => ⟨hhandles g hg, hfile g⟩) fun _ _ hg hj =>
          h.size_of_loads hload hg hj)
    · exact .ok (hb.congr (fun g hg => ⟨hhandles g hg, hfile g⟩) fun _ _ _ _ => rfl)
  · exact .error trivial

/-- What is read lies within the file. -/
theorem fileRead_bounded {len : BitVec 32} (h : RefInv s) (hb : s.Bounded)
    (hf : 0 < s.handles f) :
    Ensures (fun _ => True) (s.exec (.fileRead f len)) FileRun.Bounded := by
  obtain ⟨i, hip, hi, -⟩ := h.exists_ip hf
  obtain ⟨hoff, hmax⟩ := hb f i hf hip
  refine Ensures.bind (P := fun r => FileRun.Bounded { s with sys := r.2 }) ?_ fun r hr => .ok hr
  rw [fileRead]
  split
  · exact .ok hb
  simp only [hip]
  rcases hread : efsIRead s.sys.efs i (s.sys.file f).off len with p | ⟨bytes, st⟩
  · exact .error trivial
  have hload : Loads ∅ 0 s.efs st := (efsIRead_spec (D := ∅) h.wf hi).of_eq_ok hread
  have hlen : (s.sys.file f).off.toNat + bytes.length ≤ (s.efs.inode i).di.size.toNat :=
    (length_efsIRead (BitVec.le_def.mpr hoff)).of_eq_ok hread
  have hsize := h.size_of_loads hload hf hip
  change Ensures _ (if _ then _ else _) _
  split
  · refine .ok (hb.setOff hip (fun g hg => by simp [FileSys.modFile, hg])
      (by simpa [FileSys.modFile] using hip) ?_ (le_of_eq (congrArg _ hsize.symm))
      (le_of_eq_of_le (congrArg _ hsize) hmax) fun g j hg hj _ => h.size_of_loads hload hg hj)
    simp only [FileSys.modFile, Function.update_self, hsize]
    rw [BitVec.toNat_add, BitVec.toNat_ofNat]
    have := (s.efs.inode i).di.size.isLt
    omega
  · exact .error trivial

/-- What is written lies within the file that has become longer. -/
theorem fileWrite_bounded {vaddr : ℕ → BitVec 8} {len : BitVec 32} (h : RefInv s) (hb : s.Bounded)
    (hf : 0 < s.handles f) :
    Ensures (fun _ => True) (s.exec (.fileWrite f vaddr len)) FileRun.Bounded := by
  obtain ⟨i, hip, hi, -⟩ := h.exists_ip hf
  obtain ⟨hoff, hmax⟩ := hb f i hf hip
  refine Ensures.bind (P := fun r => FileRun.Bounded { s with sys := r.2 }) ?_ fun r hr => .ok hr
  rw [fileWrite]
  split
  · exact .ok hb
  simp only [hip]
  refine (efsIWrite_spec h.wf).any.bind fun r hr => ?_
  obtain ⟨hkeeps, hr⟩ := hr
  split
  · obtain rfl | ⟨last, hlast, hle, hlastmax, hsize⟩ := hr
    · contradiction
    have hsize' : (s.efs.inode i).di.size.toNat ≤ (r.2.inode i).di.size.toNat := by
      rw [hsize]
      exact le_max_left ..
    refine .ok (hb.setOff hip (fun g hg => by simp [FileSys.modFile, hg])
      (by simpa [FileSys.modFile] using hip) ?_ hsize' ?_ fun g j hg hj hji => ?_)
    · have hofInt : BitVec.ofInt 32 r.1 = BitVec.ofNat 32 (last - (s.sys.file f).off.toNat) := by
        rw [hlast, ← Int.ofNat_sub hle]
        exact BitVec.ofInt_natCast ..
      have hlt : maxFileSize < 2 ^ 32 := by decide
      have hle' : last ≤ (r.2.inode i).di.size.toNat := by
        rw [hsize]
        exact le_max_right ..
      simp only [FileSys.modFile, Function.update_self, hofInt]
      rw [BitVec.toNat_add, BitVec.toNat_ofNat]
      omega
    · exact hsize.trans_le (max_le hmax hlastmax)
    · obtain ⟨j', hj', hlt, -⟩ := h.exists_ip hg
      obtain rfl : j = j' := Option.some.inj (hj.symm.trans hj')
      exact congrArg DInode.size (hkeeps.di j hlt hji)
  · exact .error trivial

theorem setOffset_bounded (hb : s.Bounded) (hf : 0 < s.handles f)
    (hip : (s.sys.file f).ip = some i) (off : BitVec 32) :
    FileRun.Bounded { s with sys := (setOffset s.sys f i off).2 } := by
  rw [setOffset]
  split
  · exact hb
  · rename_i hle
    rw [BitVec.not_lt, BitVec.le_def] at hle
    exact hb.setOff hip (fun g hg => by simp [FileSys.modFile, hg])
      (by simpa [FileSys.modFile] using hip) (by simpa [FileSys.modFile] using hle) le_rfl
      (hb f i hf hip).2 fun _ _ _ _ _ => rfl

theorem fileLlseek_bounded {offset : BitVec 32} {whence : Seek} (h : RefInv s) (hb : s.Bounded)
    (hf : 0 < s.handles f) :
    Ensures (fun _ => True) (s.exec (.fileLlseek f offset whence)) FileRun.Bounded := by
  obtain ⟨i, hip, -⟩ := h.exists_ip hf
  refine Ensures.bind (P := fun r => FileRun.Bounded { s with sys := r.2 }) ?_ fun r hr => .ok hr
  simp only [fileLlseek, hip]
  cases whence with
  | seekSet => exact .ok (setOffset_bounded hb hf hip _)
  | seekCur => exact .ok (setOffset_bounded hb hf hip _)
  | seekEnd => exact .ok (setOffset_bounded hb hf hip _)
  | other => exact .ok hb

/-- A file that is open is not released, and gets shorter only as the directory of the entry. -/
theorem efsDUnlink_bounded {d : ℕ} (h : RefInv s) (hb : s.Bounded)
    (hu : Undisturbed s (.efsDUnlink (some d))) (hd : d < s.efs.dentries) :
    Ensures (fun _ => True) (s.exec (.efsDUnlink (some d))) FileRun.Bounded := by
  refine (efsDUnlink_spec h.wf (h.refsOk hu.1) hd).any.bind fun st hst => .ok ?_
  refine hb.congr (fun _ hf => ⟨hf, rfl, rfl⟩) fun f i hf hip => ?_
  obtain ⟨i', hip', hi, hmem⟩ := h.exists_ip hf
  obtain rfl : i = i' := Option.some.inj (hip.symm.trans hip')
  refine hst.size i hi ?_ fun hparent => ?_
  · rw [h.toInt_refs]
    exact_mod_cast refsTo_pos_of_mem hmem
  · rw [hu.2 d rfl i hparent] at hmem
    exact Finset.notMem_empty f hmem

/-- One call keeps the offsets in bounds: a read stops at the end of the file, a write extends the
file, and `file_llseek` refuses an offset behind the end. -/
theorem exec_bounded (h : RefInv s) (hb : s.Bounded) (e : FileEvent) (hu : Undisturbed s e)
    (hbal : s.Balanced e) : Ensures (fun _ => True) (s.exec e) FileRun.Bounded := by
  have hok := h.refsOk hu.inRange
  cases e with
  | fileOpen path flags => exact fileOpen_bounded h hb hu
  | fileDup f => exact fileDup_bounded hb hbal
  | fileClose f => exact fileClose_bounded h hb hbal
  | fileRead f len => exact fileRead_bounded h hb hbal
  | fileWrite f vaddr len => exact fileWrite_bounded h hb hbal
  | fileLlseek f offset whence => exact fileLlseek_bounded h hb hbal
  | efsDNamei path =>
    refine (efsDNamei_spec h.wf hok).any.bind fun r hr => ?_
    obtain ⟨r, st⟩ := r
    obtain ⟨rfl, hload⟩ | ⟨i, rfl, -, hload⟩ := hr
    · exact .ok (hb.setEfs h hload)
    · exact .ok (hb.setEfs h hload)
  | efsIPut i =>
    have hle := held_le_refsTo (s := s) i
    have hheld : 0 < s.held i := hbal
    have hpos : 0 < (s.efs.refs i).toInt := by
      rw [h.toInt_refs]
      omega
    exact (efsIPut_spec (D := ∅) h.wf (h.lt_inodes (by omega)) hpos).any.bind fun st hload =>
      .ok (hb.setEfs h hload)
  | efsDRead d offset len =>
    cases d with
    | none => exact .ok hb
    | some d =>
      exact (efsDRead_spec h.wf hok (hbal d rfl)).any.bind fun r hload => .ok (hb.setEfs h hload)
  | efsDWrite d offset len vaddr => exact hu.elim
  | efsDFsize d =>
    exact (efsDFsize_spec h.wf hok hbal).any.bind fun r hload => .ok (hb.setEfs h hload)
  | efsDRename d rename =>
    exact (efsDRename_spec h.wf hok hbal).any.bind fun st hload => .ok (hb.setEfs h hload)
  | efsDUnlink d =>
    cases d with
    | none => exact .ok hb
    | some d => exact efsDUnlink_bounded h hb hu (hbal d rfl)

/-! ### Seeking -/

/-- Behind a file of admissible size, a sum that has wrapped around is found to be too large. -/
theorem setOffset_add {size : BitVec 32} {base offset : BitVec 32}
    (hsize : (s.efs.inode i).di.size = size) (hbase : base.toNat ≤ size.toNat)
    (hmax : size.toNat ≤ maxFileSize) :
    if 0 ≤ (base.toNat : ℤ) + offset.toInt ∧ (base.toNat : ℤ) + offset.toInt ≤ size.toNat then
      ∃ off : BitVec 32, (off.toNat : ℤ) = base.toNat + offset.toInt ∧
        setOffset s.sys f i (base + offset) =
          (0, s.sys.modFile f fun x => { x with off := off })
    else setOffset s.sys f i (base + offset) = (-1, s.sys) := by
  have hlt : maxFileSize < 2 ^ 31 := by decide
  have hoff := offset.isLt
  have hcases : (offset.toInt = offset.toNat ∧ offset.toNat < 2 ^ 31) ∨
      (offset.toInt = offset.toNat - 2 ^ 32 ∧ 2 ^ 31 ≤ offset.toNat) := by
    rw [BitVec.toInt_eq_toNat_cond]
    split <;> omega
  have hsum : (base + offset).toNat = (base.toNat + offset.toNat) % 2 ^ 32 := BitVec.toNat_add ..
  have hset : setOffset s.sys f i (base + offset) =
      if size.toNat < (base + offset).toNat then (-1, s.sys)
      else (0, s.sys.modFile f fun x => { x with off := base + offset }) := by
    rw [setOffset, ← hsize]
    rfl
  split
  · rename_i h
    refine ⟨base + offset, by omega, ?_⟩
    rw [hset, if_neg (by omega)]
  · rename_i h
    rw [hset, if_pos (by omega)]

theorem fileLlseek_eq {offset base : BitVec 32} {whence : Seek}
    (hwhence : fileLlseek s.sys f offset whence = .ok (setOffset s.sys f i (base + offset)))
    (hbase : base.toNat ≤ (s.efs.inode i).di.size.toNat)
    (hmax : (s.efs.inode i).di.size.toNat ≤ maxFileSize) :
    if 0 ≤ (base.toNat : ℤ) + offset.toInt ∧
        (base.toNat : ℤ) + offset.toInt ≤ (s.efs.inode i).di.size.toNat then
      ∃ off : BitVec 32, (off.toNat : ℤ) = base.toNat + offset.toInt ∧
        fileLlseek s.sys f offset whence = .ok (0, s.sys.modFile f fun x => { x with off := off })
    else fileLlseek s.sys f offset whence = .ok (-1, s.sys) := by
  have hset := @setOffset_add s f i _ base offset rfl hbase hmax
  rw [hwhence]
  split
  · rename_i h
    rw [if_pos h] at hset
    obtain ⟨off, hoff, heq⟩ := hset
    exact ⟨off, hoff, congrArg _ heq⟩
  · rename_i h
    rw [if_neg h] at hset
    exact congrArg _ hset

theorem FileRun.RefInv.offsetsOk (h : RefInv s) (hb : s.Bounded) : s.OffsetsOk where
  bounded := hb
  write f i hf hip len vaddr r st hlen hwrite := by
    obtain ⟨hoff, hmax⟩ := hb f i hf hip
    have hlt : maxFileSize < 2 ^ 32 := by decide
    have hend : ((s.sys.file f).off + len).toNat = (s.sys.file f).off.toNat + len.toNat := by
      rw [BitVec.toNat_add, Nat.mod_eq_of_lt (by omega)]
    rw [efsIWrite, if_neg, if_neg (by omega), bind_eq_ok] at hwrite
    · obtain ⟨⟨last, st'⟩, hloop, hres⟩ := hwrite
      have hle := ((efsIWriteLoop_spec h.wf).of_eq_ok hloop).2.1
      have hr : (last : ℤ) - (s.sys.file f).off.toNat = r :=
        congrArg Prod.fst (Except.ok.inj hres)
      omega
    · rw [not_or, BitVec.not_lt, BitVec.not_lt, BitVec.le_def, BitVec.le_def, hend]
      omega
  seek f i hf hip offset whence base hbase := by
    obtain ⟨hoff, hmax⟩ := hb f i hf hip
    cases whence with
    | seekSet =>
      obtain rfl := Option.some.inj hbase
      exact @fileLlseek_eq s f i offset 0 _ (by simp only [fileLlseek, hip, zero_add])
        (Nat.zero_le _) hmax
    | seekCur =>
      obtain rfl := Option.some.inj hbase
      exact fileLlseek_eq (by simp only [fileLlseek, hip]) hoff hmax
    | seekEnd =>
      obtain rfl := Option.some.inj hbase
      exact fileLlseek_eq (by simp only [fileLlseek, hip]; rfl) le_rfl hmax
    | other => cases hbase

/-- **Offsets.** In every run of calls that leave the open files as long as they are, the offsets of
open files are within the files, and `file_llseek` computes with integers. -/
theorem offsetsOk_of_reachable
    (h : Reachable FileRun.Start (guarded Undisturbed FileRun.Step) s) : s.OffsetsOk := by
  have hinv : RefInv s ∧ s.Bounded := by
    refine h.invariant (P := fun s => RefInv s ∧ s.Bounded) (fun s hs => ⟨hs.refInv, ?_⟩) ?_
    · intro f i hf _
      rw [hs.2.2.2.1] at hf
      cases hf
    · rintro s e s' ⟨hrefs, hb⟩ ⟨hu, hbal, hexec⟩
      exact ⟨(exec_spec hrefs hu.inRange e hbal).of_eq_ok hexec,
        (exec_bounded hrefs hb e hu hbal).of_eq_ok hexec⟩
  exact hinv.1.offsetsOk hinv.2

end Offsets

/-- A sequence of calls leads from state to state. -/
private theorem reachable_run {es : List FileEvent} {s s' : FileRun}
    (h : Reachable FileRun.Start FileRun.Step s) (hrun : FileRun.run es s = some s') :
    Reachable FileRun.Start FileRun.Step s' := by
  induction es generalizing s with
  | nil =>
    obtain rfl := Option.some.inj hrun
    exact h
  | cons e es ih =>
    rw [FileRun.run] at hrun
    split at hrun
    · rename_i hbal
      rcases hexec : s.exec e with p | s₁
      · rw [hexec] at hrun
        cases hrun
      · rw [hexec] at hrun
        exact ih (h.next ⟨hbal, hexec⟩) hrun
    · cases hrun

/-- The disk `fileImage`, mounted, with no files open. -/
private theorem exists_start_fileImage {P : FileRun → Bool}
    (h : (efsMount fileImage 0 (fun _ => 0) (fun _ => 0) fun _ _ => 0).toOption.map
      (fun st => P ⟨⟨st, fun _ => ⟨0, 0, none, 0⟩, 0, 0⟩, 0, 0⟩) = some true) :
    ∃ s : FileRun, s.Start ∧ P s = true := by
  obtain ⟨st, hmount, hst⟩ := exists_of_map_toOption h
  exact ⟨⟨⟨st, _, _, _⟩, _, _⟩, ⟨mounted_fileImage hmount, rfl, rfl, rfl, rfl⟩, hst⟩

theorem offsetsOk_one_file : ∃ s : FileRun,
    Reachable FileRun.Start (guarded Undisturbed FileRun.Step) s ∧ s.OffsetsOk ∧
      s.handles 0 = 1 := by
  obtain ⟨s₀, hstart, heval⟩ := exists_start_fileImage
    (P := fun s => decide ((efsDNamei s.efs [slash, 0x66]).toOption.map
        (fun r => r.1.map fun i => (r.2.inode i).di.size) = some (some 24) ∧
      (s.exec (.fileOpen [slash, 0x66] 3)).toOption.map (fun s => s.handles 0) = some 1))
    (by decide +kernel)
  obtain ⟨hsize, hopen⟩ := of_decide_eq_true heval
  obtain ⟨s, hexec, hhandles⟩ := exists_of_map_toOption hopen
  have hundisturbed : Undisturbed s₀ (.fileOpen [slash, 0x66] 3) := by
    refine ⟨hstart.inRange, fun i st hst _ => ?_⟩
    rw [hst] at hsize
    have hsize' : (st.inode i).di.size = 24 := Option.some.inj (Option.some.inj hsize)
    rw [hsize']
    decide
  have hreach : Reachable FileRun.Start (guarded Undisturbed FileRun.Step) s :=
    (Reachable.start hstart).next (a := FileEvent.fileOpen [slash, 0x66] 3)
      ⟨hundisturbed, trivial, hexec⟩
  exact ⟨s, hreach, offsetsOk_of_reachable hreach, hhandles⟩

/-- The file `f` is read to its end. Its bytes are then looked up as entries, and the entry that is
found is unlinked: the size of the file is 0, and the offset is 24. -/
theorem exists_offset_beyond_size : ∃ s : FileRun, Reachable FileRun.Start FileRun.Step s ∧
    0 < s.handles 0 ∧ (s.sys.file 0).ip = some 1 ∧ (s.efs.inode 1).di.type = .fReg ∧
      (s.efs.inode 1).di.size.toNat < (s.sys.file 0).off.toNat := by
  obtain ⟨s₀, hstart, heval⟩ := exists_start_fileImage
    (P := fun s => decide ((FileRun.run [.fileOpen [slash, 0x66] 3, .fileRead 0 24,
        .fileOpen [slash, 0x66, slash, 0x78] 3, .fileClose 1, .efsDUnlink (some 4)] s).map
      (fun s => decide (0 < s.handles 0 ∧ (s.sys.file 0).ip = some 1 ∧
        (s.efs.inode 1).di.type = .fReg ∧
          (s.efs.inode 1).di.size.toNat < (s.sys.file 0).off.toNat)) = some true))
    (by decide +kernel)
  obtain ⟨s, hrun, hs⟩ := Option.map_eq_some_iff.mp (of_decide_eq_true heval)
  exact ⟨s, reachable_run (.start hstart) hrun, of_decide_eq_true hs⟩

end RiscvLab.Fs
