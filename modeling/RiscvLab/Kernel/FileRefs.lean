import RiscvLab.Fs.PathWalk
import RiscvLab.Kernel.File
import RiscvLab.Library.Reachable

/-!
# References to inodes and files

The counter of an inode is the number of references to it: one of each open file, those that
`efs_d_namei` has returned, and one to the root. Every other operation gives back the references
that it takes. The counters are 32-bit integers, so that this holds as long as fewer than `2^31 - 1`
references to any inode, and to any file, are held when an operation begins.

## Main definitions

* `FileRun.RefsMatch` : the counters are the numbers of references; a file is freed when the last
  reference to it is given up, and only then; no assertion about counters fails; an inode that is
  released is not referred to.
* `FileRun.InRange` : one more reference can be counted.

## Main results

* `exec_spec` : what one call preserves.
* `refsMatch_of_reachable` : the counters match in every run in range.
* `exists_dup_panic` : a counter that has overflowed makes `file_dup` panic.

Source: `kernel/file.c`, lines 5–55; `fs/easyfs/dentry.c`, lines 230–249 and 313–467.
-/

namespace RiscvLab.Fs

open Library

namespace FileRun

/-- One more reference to each inode and to each file can be counted. -/
def InRange (s : FileRun) : Prop :=
  (∀ i, s.refsTo i < 2 ^ 31 - 1) ∧ ∀ f, s.handles f < 2 ^ 31 - 1

/-- The counters of inodes and files match the references that are held. -/
structure RefsMatch (s : FileRun) : Prop where
  refcnt : ∀ i < s.efs.inodes, (s.efs.inode i).refcnt.toInt = s.refsTo i
  freed : ∀ f, s.sys.freed f = if f < s.sys.files ∧ s.handles f = 0 then 1 else 0
  asserts : s.InRange → ∀ e, s.Balanced e → ∀ p, s.exec e = .error p →
    p ≠ .iPut ∧ p ≠ .fileDup ∧ p ≠ .fileClose
  unlink : s.InRange → ∀ d < s.efs.dentries, ∀ st, efsDUnlink s.efs (some d) = .ok st →
    st.sb ≠ s.efs.sb → ∃ i, (st.dentry d).inode = some i ∧ s.openFiles i = ∅ ∧ s.held i = 0

/-- The files of a run. The counters are below `2^31`, so that they are not negative. -/
structure HandleInv (s : FileRun) : Prop where
  ref : ∀ f < s.sys.files, (s.sys.file f).ref = BitVec.ofNat 32 (s.handles f)
  handle : ∀ f, s.handles f < 2 ^ 31
  unused : ∀ f, s.sys.files ≤ f → s.handles f = 0
  ip : ∀ f < s.sys.files, ∃ i, (s.sys.file f).ip = some i
  freed : ∀ f, s.sys.freed f = if f < s.sys.files ∧ s.handles f = 0 then 1 else 0

/-- The files and inodes of a run. -/
structure RefInv (s : FileRun) : Prop extends HandleInv s where
  wf : s.efs.Wf
  refs : ∀ i, s.efs.refs i = BitVec.ofNat 32 (s.refsTo i)
  bound : ∀ i, s.refsTo i < 2 ^ 31

end FileRun

open FileRun

section Inv

variable {s s' : FileRun} {f i : ℕ}

theorem FileRun.RefInv.toInt_refs (h : RefInv s) (i : ℕ) : (s.efs.refs i).toInt = s.refsTo i := by
  rw [h.refs i, toInt_ofNat (h.bound i)]

theorem FileRun.HandleInv.toInt_ref (h : HandleInv s) (hf : f < s.sys.files) :
    (s.sys.file f).ref.toInt = s.handles f := by
  rw [h.ref f hf, toInt_ofNat (h.handle f)]

theorem FileRun.RefInv.refsOk (h : RefInv s) (hr : s.InRange) : s.efs.RefsOk := by
  intro i
  rw [h.toInt_refs]
  have := hr.1 i
  omega

/-- A file that is referred to has been allocated. -/
theorem FileRun.HandleInv.lt_files (h : HandleInv s) (hf : 0 < s.handles f) : f < s.sys.files := by
  by_contra hn
  have := h.unused f (by omega)
  omega

theorem FileRun.HandleInv.mem_openFiles (h : HandleInv s) :
    f ∈ s.openFiles i ↔ 0 < s.handles f ∧ (s.sys.file f).ip = some i := by
  rw [openFiles, Finset.mem_filter, Finset.mem_range]
  constructor
  · rintro ⟨hf, href, hip⟩
    rw [h.toInt_ref hf] at href
    exact ⟨by omega, hip⟩
  · rintro ⟨hpos, hip⟩
    have hf := h.lt_files hpos
    refine ⟨hf, ?_, hip⟩
    rw [h.toInt_ref hf]
    omega

theorem FileRun.RefInv.lt_inodes (h : RefInv s) (hi : 0 < s.refsTo i) : i < s.efs.inodes := by
  by_contra hn
  have hrefs := h.toInt_refs i
  rw [Efs.refs, if_neg hn] at hrefs
  have : (0 : BitVec 32).toInt = 0 := rfl
  omega

theorem refsTo_pos_of_mem (hf : f ∈ s.openFiles i) : 0 < s.refsTo i := by
  have := Finset.card_pos.mpr ⟨f, hf⟩
  rw [refsTo]
  omega

theorem FileRun.RefInv.exists_ip (h : RefInv s) (hf : 0 < s.handles f) :
    ∃ i, (s.sys.file f).ip = some i ∧ i < s.efs.inodes ∧ f ∈ s.openFiles i := by
  obtain ⟨i, hi⟩ := h.ip f (h.lt_files hf)
  have hmem := h.mem_openFiles.mpr ⟨hf, hi⟩
  exact ⟨i, hi, h.lt_inodes (refsTo_pos_of_mem hmem), hmem⟩

/-! ### What the invariant depends on -/

/-- The files are the same but for their offsets and flags. -/
structure SameFiles (s s' : FileSys) : Prop where
  files : s'.files = s.files
  freed : s'.freed = s.freed
  ref : ∀ f, (s'.file f).ref = (s.file f).ref
  ip : ∀ f, (s'.file f).ip = (s.file f).ip

theorem sameFiles_refl {s : FileSys} (efs : Efs) : SameFiles s { s with efs := efs } :=
  ⟨rfl, rfl, fun _ => rfl, fun _ => rfl⟩

theorem sameFiles_setOff {s : FileSys} (efs : Efs) (f : ℕ) (g : BitVec 32 → BitVec 32) :
    SameFiles s ({ s with efs := efs }.modFile f fun x => { x with off := g x.off }) := by
  refine ⟨rfl, rfl, fun f' => ?_, fun f' => ?_⟩ <;>
  · by_cases hf : f' = f
    · subst hf
      simp [FileSys.modFile]
    · simp [FileSys.modFile, hf]

theorem refsTo_congr (hopen : ∀ i, s'.openFiles i = s.openFiles i) (hheld : s'.held = s.held) :
    s'.refsTo = s.refsTo := by
  funext i
  rw [refsTo, hopen, hheld, refsTo]

theorem FileRun.RefInv.congr (h : RefInv s) (hhandle : HandleInv s') (hwf : s'.efs.Wf)
    (hrefs : s'.efs.refs = s.efs.refs) (hto : s'.refsTo = s.refsTo) : RefInv s' where
  toHandleInv := hhandle
  wf := hwf
  refs i := by
    rw [hrefs, hto, h.refs]
  bound i := by
    rw [hto]
    exact h.bound i

/-- An operation that keeps the counters keeps the invariant. -/
theorem FileRun.RefInv.of_sameFiles {sys : FileSys} {I : Set ℕ} (h : RefInv s)
    (hsame : SameFiles s.sys sys) (hkeeps : Keeps I 0 s.efs sys.efs) :
    RefInv { s with sys := sys } := by
  refine h.congr ?_ hkeeps.wf (hkeeps.refs.trans (add_zero _)) (refsTo_congr (fun i => ?_) rfl)
  · exact
      { ref := fun f hf => by
          rw [hsame.ref]
          exact h.ref f (by rwa [← hsame.files])
        handle := h.handle
        unused := fun f hf => h.unused f (by rwa [← hsame.files])
        ip := fun f hf => by
          rw [hsame.ip]
          exact h.ip f (by rwa [← hsame.files])
        freed := fun f => by
          rw [hsame.freed, hsame.files]
          exact h.freed f }
  · simp only [openFiles, hsame.files, hsame.ref, hsame.ip]

theorem FileRun.RefInv.setEfs {st : Efs} {I : Set ℕ} (h : RefInv s) (hkeeps : Keeps I 0 s.efs st) :
    RefInv (s.setEfs st) :=
  h.of_sameFiles (sameFiles_refl st) hkeeps

/-! ### A file is changed -/

/-- The file `f` gets `n` references, and the others stay. -/
structure FileChange (f n : ℕ) (s s' : FileRun) : Prop where
  files : ∀ g, g < s'.sys.files ↔ g < s.sys.files ∨ g = f
  handles : s'.handles = Function.update s.handles f n
  ref : (s'.sys.file f).ref = BitVec.ofNat 32 n
  ip : ∃ i, (s'.sys.file f).ip = some i
  freed : s'.sys.freed f = if n = 0 then 1 else 0
  file : ∀ g, g ≠ f → s'.sys.file g = s.sys.file g ∧ s'.sys.freed g = s.sys.freed g
  bound : n < 2 ^ 31

namespace FileChange

variable {n : ℕ}

variable (hc : FileChange f n s s')

include hc

theorem handles_self : s'.handles f = n := by
  rw [hc.handles, Function.update_self]

theorem handles_of_ne {g : ℕ} (hg : g ≠ f) : s'.handles g = s.handles g := by
  rw [hc.handles, Function.update_of_ne hg]

theorem handleInv (h : HandleInv s) : HandleInv s' where
  ref g hg := by
    by_cases hgf : g = f
    · subst hgf
      rw [hc.ref, hc.handles_self]
    · rw [(hc.file g hgf).1, hc.handles_of_ne hgf]
      exact h.ref g (((hc.files g).mp hg).resolve_right hgf)
  handle g := by
    by_cases hgf : g = f
    · subst hgf
      rw [hc.handles_self]
      exact hc.bound
    · rw [hc.handles_of_ne hgf]
      exact h.handle g
  unused g hg := by
    have hn := mt (hc.files g).mpr (Nat.not_lt.mpr hg)
    rw [not_or] at hn
    rw [hc.handles_of_ne hn.2]
    exact h.unused g (Nat.not_lt.mp hn.1)
  ip g hg := by
    by_cases hgf : g = f
    · subst hgf
      exact hc.ip
    · rw [(hc.file g hgf).1]
      exact h.ip g (((hc.files g).mp hg).resolve_right hgf)
  freed g := by
    by_cases hgf : g = f
    · subst hgf
      have hlt : g < s'.sys.files := (hc.files g).mpr (.inr rfl)
      simp only [hc.freed, hc.handles_self, hlt, true_and]
    · simp only [(hc.file g hgf).2, h.freed g, hc.handles_of_ne hgf, hc.files g, hgf, or_false]

/-- The file `f` is open on its inode if it is referred to, and the other files are open on what
they have been. -/
theorem openFiles_eq (h : HandleInv s) (j : ℕ) :
    s'.openFiles j = if 0 < n ∧ (s'.sys.file f).ip = some j then insert f (s.openFiles j)
      else (s.openFiles j).erase f := by
  have h' := hc.handleInv h
  ext g
  rw [h'.mem_openFiles]
  by_cases hgf : g = f
  · subst hgf
    rw [hc.handles_self]
    split_ifs with hopen
    · exact iff_of_true hopen (Finset.mem_insert_self ..)
    · exact iff_of_false hopen (Finset.notMem_erase _ _)
  · rw [hc.handles_of_ne hgf, (hc.file g hgf).1, ← h.mem_openFiles]
    split_ifs with hopen
    · rw [Finset.mem_insert, or_iff_right hgf]
    · rw [Finset.mem_erase, and_iff_right hgf]

theorem openFiles_of_mem (h : HandleInv s) (hn : 0 < n) (hmem : f ∈ s.openFiles i)
    (hip : (s'.sys.file f).ip = some i) (j : ℕ) : s'.openFiles j = s.openFiles j := by
  rw [hc.openFiles_eq h]
  split_ifs with hopen
  · obtain rfl : i = j := Option.some.inj (hip.symm.trans hopen.2)
    exact Finset.insert_eq_of_mem hmem
  · refine Finset.erase_eq_of_notMem fun hj => hopen ⟨hn, ?_⟩
    rw [hip, ← (h.mem_openFiles.mp hmem).2]
    exact (h.mem_openFiles.mp hj).2

end FileChange

/-- The invariant after a step that changes the references to the inode `i` by `δ`. -/
theorem FileRun.RefInv.of_refsTo {δ : BitVec 32} {m : ℕ} (h : RefInv s) (hhandle : HandleInv s')
    (hwf : s'.efs.Wf) (hrefs : s'.efs.refs = s.efs.refs + Pi.single i δ)
    (hself : s'.refsTo i = m) (hm : BitVec.ofNat 32 m = BitVec.ofNat 32 (s.refsTo i) + δ)
    (hbound : m < 2 ^ 31) (hoff : ∀ j, j ≠ i → s'.refsTo j = s.refsTo j) : RefInv s' where
  toHandleInv := hhandle
  wf := hwf
  refs j := by
    rw [hrefs, Pi.add_apply, h.refs]
    by_cases hj : j = i
    · subst hj
      rw [Pi.single_eq_same, hself, hm]
    · rw [Pi.single_eq_of_ne hj, hoff j hj, add_zero]
  bound j := by
    by_cases hj : j = i
    · subst hj
      rwa [hself]
    · rw [hoff j hj]
      exact h.bound j

end Inv

/-! ### Calls -/

section Calls

variable {s : FileRun} {f i : ℕ}

theorem openFiles_setHeld {st : Efs} {held : ℕ → ℕ} (j : ℕ) :
    openFiles { s.setEfs st with held := held } j = s.openFiles j :=
  rfl

theorem held_le_refsTo (i : ℕ) : s.held i ≤ s.refsTo i := by
  rw [refsTo]
  omega

variable (h : RefInv s)

include h

theorem fileDup_spec (hr : s.InRange) (hf : 0 < s.handles f) :
    Ensures Panic.Balanced (s.exec (.fileDup f)) RefInv := by
  obtain ⟨i, hip, hi, hmem⟩ := h.exists_ip hf
  have hlt := h.lt_files hf
  have href := h.toInt_ref hlt
  rw [exec, fileDup, if_pos (by omega)]
  refine .ok ?_
  have hc : FileChange f (s.handles f + 1) s
      { s with
        sys := s.sys.modFile f fun x => { x with ref := x.ref + 1 }
        handles := Function.update s.handles f (s.handles f + 1) } :=
    { files := fun g => ⟨.inl, fun hg => hg.elim id fun hg => hg ▸ hlt⟩
      handles := rfl
      ref := by simp [FileSys.modFile, h.ref f hlt, BitVec.ofNat_add]
      ip := ⟨i, by simpa [FileSys.modFile] using hip⟩
      freed := by
        rw [if_neg (Nat.succ_ne_zero _)]
        exact (h.freed f).trans (if_neg fun hz => by omega)
      file := fun g hg => ⟨by simp [FileSys.modFile, hg], rfl⟩
      bound := by
        have := hr.2 f
        omega }
  have hopen := hc.openFiles_of_mem h.toHandleInv (Nat.succ_pos _) hmem
    (by simpa [FileSys.modFile] using hip)
  exact h.congr (hc.handleInv h.toHandleInv) h.wf rfl (refsTo_congr hopen rfl)

/-- The last reference to a file takes its reference to the inode along. -/
theorem fileClose_spec (hf : 0 < s.handles f) :
    Ensures Panic.Balanced (s.exec (.fileClose f)) RefInv := by
  obtain ⟨i, hip, hi, hmem⟩ := h.exists_ip hf
  have hlt := h.lt_files hf
  have href := h.toInt_ref hlt
  have hbound := h.handle f
  have href' : (s.sys.file f).ref - 1 = BitVec.ofNat 32 (s.handles f - 1) := by
    rw [h.ref f hlt, ofNat_sub_one hf, sub_eq_add_neg]
  have hzero : (s.sys.file f).ref - 1 = 0 ↔ s.handles f = 1 := by
    rw [href', ← BitVec.toNat_inj, BitVec.toNat_ofNat, Nat.mod_eq_of_lt (by omega)]
    change _ = 0 ↔ _
    omega
  have hfile : ((s.sys.modFile f fun x => { x with ref := x.ref - 1 }).file f) =
      { s.sys.file f with ref := (s.sys.file f).ref - 1 } := by
    simp [FileSys.modFile]
  rw [exec, fileClose, if_pos (by omega)]
  simp only [hfile, hip]
  by_cases hlast : s.handles f = 1
  · rw [if_pos (hzero.mpr hlast)]
    have hpos : 0 < (s.efs.refs i).toInt := by
      rw [h.toInt_refs]
      exact_mod_cast refsTo_pos_of_mem hmem
    have hput := (efsIPut_spec (D := ∅) h.wf hi hpos).bind (f := fun st => .ok (fileFree
      { s.sys.modFile f fun x => { x with ref := x.ref - 1 } with efs := st } f))
      (R := fun sys => ∃ st, Loads ∅ (-Pi.single i 1) s.efs st ∧ sys = fileFree
        { s.sys.modFile f fun x => { x with ref := x.ref - 1 } with efs := st } f)
      fun st hst => .ok ⟨st, hst, rfl⟩
    refine hput.bind fun sys hsys => .ok ?_
    obtain ⟨st, hst, rfl⟩ := hsys
    have hc : FileChange f 0 s
        { s with
          sys := fileFree
            { s.sys.modFile f fun x => { x with ref := x.ref - 1 } with efs := st } f
          handles := Function.update s.handles f (s.handles f - 1) } :=
      { files := fun g => ⟨.inl, fun hg => hg.elim id fun hg => hg ▸ hlt⟩
        handles := by rw [hlast]
        ref := (congrArg File.ref hfile).trans (hzero.mpr hlast)
        ip := ⟨i, (congrArg File.ip hfile).trans hip⟩
        freed := by
          have hzero : s.sys.freed f = 0 := (h.freed f).trans (if_neg fun hz => by omega)
          simp [fileFree, FileSys.modFile, hzero]
        file := fun g hg => ⟨by simp [fileFree, FileSys.modFile, hg],
          by simp [fileFree, FileSys.modFile, hg]⟩
        bound := by omega }
    have hopen := hc.openFiles_eq h.toHandleInv
    simp only [lt_irrefl, false_and, if_false] at hopen
    refine h.of_refsTo (i := i) (δ := -1) (m := s.refsTo i - 1) (hc.handleInv h.toHandleInv) hst.wf
      ?_ ?_ ?_ ?_ fun j hj => ?_
    · rw [Pi.single_neg]
      exact hst.refs
    · rw [refsTo, hopen, Finset.card_erase_of_mem hmem, refsTo]
      have := Finset.card_pos.mpr ⟨f, hmem⟩
      dsimp only
      omega
    · exact ofNat_sub_one (refsTo_pos_of_mem hmem)
    · have := h.bound i
      omega
    · have hnot : f ∉ s.openFiles j := fun hmem' =>
        hj (Option.some.inj ((h.mem_openFiles.mp hmem').2.symm.trans hip))
      rw [refsTo, hopen, Finset.erase_eq_of_notMem hnot, refsTo]
  · rw [if_neg (mt hzero.mp hlast)]
    refine .ok ?_
    have hc : FileChange f (s.handles f - 1) s
        { s with
          sys := s.sys.modFile f fun x => { x with ref := x.ref - 1 }
          handles := Function.update s.handles f (s.handles f - 1) } :=
      { files := fun g => ⟨.inl, fun hg => hg.elim id fun hg => hg ▸ hlt⟩
        handles := rfl
        ref := by rw [hfile, href']
        ip := ⟨i, by rw [hfile, hip]⟩
        freed := by
          rw [if_neg (by omega)]
          exact (h.freed f).trans (if_neg fun hz => by omega)
        file := fun g hg => ⟨by simp [FileSys.modFile, hg], rfl⟩
        bound := by omega }
    have hopen := hc.openFiles_of_mem h.toHandleInv (by omega) hmem (by rw [hfile, hip])
    exact h.congr (hc.handleInv h.toHandleInv) h.wf rfl (refsTo_congr hopen rfl)

/-- A file that is opened keeps the reference that `efs_d_namei` has taken. -/
theorem fileOpen_spec {path : List (BitVec 8)} {flags : BitVec 32} (hr : s.InRange) :
    Ensures Panic.Balanced (s.exec (.fileOpen path flags)) RefInv := by
  have hnamei := @efsDNamei_spec s.efs path h.wf (h.refsOk hr)
  rw [efs] at hnamei
  rw [exec, fileOpen_eq]
  rcases hst : efsDNamei s.sys.efs path with p | ⟨_ | i, st⟩
  · exact .error (hnamei.of_eq_error hst)
  · obtain ⟨-, hload⟩ | ⟨i, hi, -⟩ := hnamei.of_eq_ok hst
    · exact .ok (h.of_sameFiles (sameFiles_refl st) (hload.keeps (I := ∅)))
    · cases hi
  · obtain ⟨hi, -⟩ | ⟨i', hi, -, hload⟩ := hnamei.of_eq_ok hst
    · cases hi
    obtain rfl : i = i' := Option.some.inj hi
    refine .ok ?_
    have hunused : s.handles s.sys.files = 0 := h.unused _ le_rfl
    have hc : FileChange s.sys.files 1 s
        { s with
          sys := s.sys.opened st flags i
          handles := Function.update s.handles s.sys.files (s.handles s.sys.files + 1) } :=
      { files := fun g => Nat.lt_succ_iff_lt_or_eq
        handles := by rw [hunused]
        ref := by simp [FileSys.opened]
        ip := ⟨i, by simp [FileSys.opened]⟩
        freed := (h.freed _).trans (if_neg fun hz => lt_irrefl _ hz.1)
        file := fun g hg => ⟨by simp [FileSys.opened, hg], rfl⟩
        bound := by decide }
    have hnew : ∀ j, s.sys.files ∉ s.openFiles j := fun j hmem => by
      have := (h.mem_openFiles.mp hmem).1
      omega
    have hopen := hc.openFiles_eq h.toHandleInv
    simp only [FileSys.opened, Function.update_self, Nat.one_pos, true_and,
      Option.some.injEq] at hopen
    refine h.of_refsTo (i := i) (δ := 1) (m := s.refsTo i + 1) (hc.handleInv h.toHandleInv) hload.wf
      hload.refs ?_ (BitVec.ofNat_add ..) ?_ fun j hj => ?_
    · rw [refsTo, FileSys.opened, hopen, if_pos rfl, Finset.card_insert_of_notMem (hnew i), refsTo]
      dsimp only
      omega
    · have := hr.1 i
      omega
    · rw [refsTo, FileSys.opened, hopen, if_neg (Ne.symm hj), Finset.erase_eq_of_notMem (hnew j),
        refsTo]

theorem FileRun.RefInv.setHeld {st : Efs} {m : ℕ} {δ : BitVec 32} (hwf : st.Wf)
    (hrefs : st.refs = s.efs.refs + Pi.single i δ)
    (hm : BitVec.ofNat 32 (s.refsTo i - s.held i + m) = BitVec.ofNat 32 (s.refsTo i) + δ)
    (hbound : s.refsTo i - s.held i + m < 2 ^ 31) :
    RefInv { s.setEfs st with held := Function.update s.held i m } := by
  refine h.of_refsTo (i := i) (m := s.refsTo i - s.held i + m)
    ⟨h.ref, h.handle, h.unused, h.ip, h.freed⟩ hwf hrefs ?_ hm hbound fun j hj => ?_
  · simp only [refsTo, openFiles_setHeld, Function.update_self]
    omega
  · simp only [refsTo, openFiles_setHeld, Function.update_of_ne hj]

theorem efsDNamei_refInv {path : List (BitVec 8)} (hr : s.InRange) :
    Ensures Panic.Balanced (s.exec (.efsDNamei path)) RefInv := by
  refine (efsDNamei_spec h.wf (h.refsOk hr)).bind fun r hnamei => ?_
  obtain ⟨r, st⟩ := r
  obtain ⟨rfl, hload⟩ | ⟨i, rfl, -, hload⟩ := hnamei
  · exact .ok (h.setEfs (hload.keeps (I := ∅)))
  · have hle := held_le_refsTo (s := s) i
    have := hr.1 i
    refine .ok (h.setHeld hload.wf hload.refs ?_ (by omega))
    rw [← Nat.add_assoc, Nat.sub_add_cancel hle]
    exact BitVec.ofNat_add ..

theorem efsIPut_refInv (hi : 0 < s.held i) :
    Ensures Panic.Balanced (s.exec (.efsIPut i)) RefInv := by
  have hle := held_le_refsTo (s := s) i
  have hpos : 0 < (s.efs.refs i).toInt := by
    rw [h.toInt_refs]
    omega
  refine (efsIPut_spec (D := ∅) h.wf (h.lt_inodes (by omega)) hpos).bind fun st hst => .ok ?_
  have := h.bound i
  refine h.setHeld (δ := -1) hst.wf ?_ ?_ (by omega)
  · rw [Pi.single_neg]
    exact hst.refs
  · rw [← ofNat_sub_one (show 0 < s.refsTo i by omega)]
    congr 1
    omega

theorem fileRead_spec {len : BitVec 32} (hf : 0 < s.handles f) :
    Ensures Panic.Balanced (s.exec (.fileRead f len)) RefInv := by
  obtain ⟨i, hip, hi, -⟩ := h.exists_ip hf
  refine Ensures.bind (P := fun r => SameFiles s.sys r.2 ∧ Keeps ∅ 0 s.efs r.2.efs) ?_
    fun r hr => .ok (h.of_sameFiles hr.1 hr.2)
  rw [fileRead]
  split
  · exact .ok ⟨sameFiles_refl _, (Loads.refl (D := ∅) h.wf).keeps⟩
  simp only [hip]
  refine (efsIRead_spec (D := ∅) h.wf hi).bind fun r hr => ?_
  split
  · exact .ok ⟨sameFiles_setOff r.2 f fun off => off + BitVec.ofNat 32 r.1.length, hr.keeps⟩
  · exact .error (by decide)

theorem fileWrite_spec {vaddr : ℕ → BitVec 8} {len : BitVec 32} (hf : 0 < s.handles f) :
    Ensures Panic.Balanced (s.exec (.fileWrite f vaddr len)) RefInv := by
  obtain ⟨i, hip, -⟩ := h.exists_ip hf
  refine Ensures.bind (P := fun r => SameFiles s.sys r.2 ∧ Keeps {i} 0 s.efs r.2.efs) ?_
    fun r hr => .ok (h.of_sameFiles hr.1 hr.2)
  rw [fileWrite]
  split
  · exact .ok ⟨sameFiles_refl _, (Loads.refl (D := ∅) h.wf).keeps⟩
  simp only [hip]
  refine (efsIWrite_spec h.wf).bind fun r hr => ?_
  split
  · exact .ok ⟨sameFiles_setOff r.2 f fun off => off + BitVec.ofInt 32 r.1, hr.1⟩
  · exact .error (by decide)

theorem fileLlseek_spec {offset : BitVec 32} {whence : Seek} (hf : 0 < s.handles f) :
    Ensures Panic.Balanced (s.exec (.fileLlseek f offset whence)) RefInv := by
  obtain ⟨i, hip, -⟩ := h.exists_ip hf
  have hrefl : Keeps ∅ 0 s.efs s.efs := (Loads.refl (D := ∅) h.wf).keeps
  have hset : ∀ off, SameFiles s.sys (setOffset s.sys f i off).2 ∧
      Keeps ∅ 0 s.efs (setOffset s.sys f i off).2.efs := by
    intro off
    rw [setOffset]
    split
    · exact ⟨sameFiles_refl _, hrefl⟩
    · exact ⟨sameFiles_setOff s.sys.efs f fun _ => off, hrefl⟩
  refine Ensures.bind (P := fun r => SameFiles s.sys r.2 ∧ Keeps ∅ 0 s.efs r.2.efs) ?_
    fun r hr => .ok (h.of_sameFiles hr.1 hr.2)
  simp only [fileLlseek, hip]
  cases whence with
  | seekSet => exact .ok (hset _)
  | seekCur => exact .ok (hset _)
  | seekEnd => exact .ok (hset _)
  | other => exact .ok ⟨sameFiles_refl _, hrefl⟩

/-- One call: the invariant is kept, and no assertion about counters fails as long as they are in
range and the caller closes only what it has opened or duplicated. -/
theorem exec_spec (hr : s.InRange) (e : FileEvent) (hb : s.Balanced e) :
    Ensures Panic.Balanced (s.exec e) RefInv := by
  have hok := h.refsOk hr
  cases e with
  | fileOpen path flags => exact fileOpen_spec h hr
  | fileDup f => exact fileDup_spec h hr hb
  | fileClose f => exact fileClose_spec h hb
  | fileRead f len => exact fileRead_spec h hb
  | fileWrite f vaddr len => exact fileWrite_spec h hb
  | fileLlseek f offset whence => exact fileLlseek_spec h hb
  | efsDNamei path => exact efsDNamei_refInv h hr
  | efsIPut i => exact efsIPut_refInv h hb
  | efsDRead d offset len =>
    cases d with
    | none => exact .ok h
    | some d =>
      exact (efsDRead_spec h.wf hok (hb d rfl)).bind fun r hload =>
        .ok (h.setEfs (hload.keeps (I := ∅)))
  | efsDWrite d offset len vaddr =>
    cases d with
    | none => exact .ok h
    | some d =>
      exact (efsDWrite_spec h.wf hok (hb d rfl)).bind fun r hkeeps => .ok (h.setEfs hkeeps)
  | efsDFsize d =>
    exact (efsDFsize_spec h.wf hok hb).bind fun r hload => .ok (h.setEfs (hload.keeps (I := ∅)))
  | efsDRename d rename =>
    exact (efsDRename_spec h.wf hok hb).bind fun r hload => .ok (h.setEfs (hload.keeps (I := ∅)))
  | efsDUnlink d =>
    cases d with
    | none => exact .ok h
    | some d =>
      exact (efsDUnlink_spec h.wf hok (hb d rfl)).bind fun r hu => .ok (h.setEfs hu.toKeeps)

end Calls

/-! ### Runs -/

/-- A file system that has just been mounted, without open files. -/
def FileRun.Start (s : FileRun) : Prop :=
  s.efs.Mounted ∧ s.sys.files = 0 ∧ s.sys.freed = 0 ∧ s.handles = 0 ∧ s.held = 0

section Runs

variable {s : FileRun}

/-- At the start only the root is referred to. -/
theorem FileRun.Start.refsTo (h : s.Start) (i : ℕ) : s.refsTo i = if i = 0 then 1 else 0 := by
  obtain ⟨-, hfiles, -, -, hheld⟩ := h
  rw [FileRun.refsTo, openFiles, hfiles, hheld]
  simp

theorem FileRun.Start.inRange (h : s.Start) : s.InRange := by
  refine ⟨fun i => ?_, fun f => ?_⟩
  · rw [h.refsTo]
    split <;> decide
  · rw [h.2.2.2.1]
    exact Nat.sub_pos_of_lt (by decide)

theorem FileRun.Start.refInv (h : s.Start) : RefInv s := by
  have hto := h.refsTo
  obtain ⟨hmounted, hfiles, hfreed, hhandles, hheld⟩ := h
  obtain ⟨hwf, hrefs⟩ := hmounted.wf_refs
  exact
    { ref := fun f hf => by omega
      handle := fun f => by rw [hhandles]; exact Nat.two_pow_pos 31
      unused := fun f _ => by rw [hhandles]; rfl
      ip := fun f hf => by omega
      freed := fun f => by
        rw [hfreed, if_neg (by omega)]
        rfl
      wf := hwf
      refs := fun i => by
        rw [hrefs, hto]
        by_cases hi : i = 0
        · subst hi
          rw [Pi.single_eq_same, if_pos rfl]
          rfl
        · rw [Pi.single_eq_of_ne hi, if_neg hi]
          rfl
      bound := fun i => by
        rw [hto]
        split <;> decide }

theorem FileRun.RefInv.refsMatch (h : RefInv s) : s.RefsMatch where
  refcnt i hi := by
    have := h.toInt_refs i
    rwa [Efs.refs, if_pos hi] at this
  freed := h.freed
  asserts hr e hb _ hp := (exec_spec h hr e hb).of_eq_error hp
  unlink hr d hd st hst hsb := by
    obtain ⟨i, hi, hrefs⟩ := ((efsDUnlink_spec h.wf (h.refsOk hr) hd).of_eq_ok hst).released hsb
    rw [h.toInt_refs, refsTo] at hrefs
    exact ⟨i, hi, Finset.card_eq_zero.mp (by omega), by omega⟩

/-- The call is made when one more reference can be counted. -/
def CallInRange (s : FileRun) (_ : FileEvent) : Prop := s.InRange

/-- **References.** In every run of balanced callers that starts with a mounted file system and
stays in range, the counters are the numbers of references. -/
theorem refsMatch_of_reachable (h : Reachable FileRun.Start (guarded CallInRange FileRun.Step) s) :
    s.RefsMatch := by
  have hinv : RefInv s := h.invariant (P := RefInv) (fun s hs => hs.refInv) fun s e s' hs hstep =>
    (exec_spec hs hstep.1 e hstep.2.1).of_eq_ok hstep.2.2
  exact hinv.refsMatch

end Runs

/-- The file `f` of the disk `fileImage` is opened. -/
private theorem exists_opened : ∃ s₀ s : FileRun, s₀.Start ∧
    s₀.exec (.fileOpen [slash, 0x66] 3) = .ok s ∧ s.handles 0 = 1 ∧ (s.sys.file 0).ref = 1 ∧
      (s.sys.file 0).ip = some 1 := by
  have heval : (efsMount fileImage 0 (fun _ => 0) (fun _ => 0) fun _ _ => 0).toOption.map
      (fun st => decide (((FileRun.mk ⟨st, fun _ => ⟨0, 0, none, 0⟩, 0, 0⟩ 0 0).exec
        (.fileOpen [slash, 0x66] 3)).toOption.map (fun s => decide (s.handles 0 = 1 ∧
          (s.sys.file 0).ref = 1 ∧ (s.sys.file 0).ip = some 1)) = some true)) = some true := by
    decide +kernel
  obtain ⟨st, hmount, hst⟩ := exists_of_map_toOption heval
  obtain ⟨s, hs, hfile⟩ := exists_of_map_toOption (of_decide_eq_true hst)
  exact ⟨⟨⟨st, _, _, _⟩, _, _⟩, s, ⟨mounted_fileImage hmount, rfl, rfl, rfl, rfl⟩, hs,
    of_decide_eq_true hfile⟩

theorem refsMatch_one_file : ∃ s : FileRun,
    Reachable FileRun.Start (guarded CallInRange FileRun.Step) s ∧ s.RefsMatch ∧
      (s.sys.file 0).ip = some 1 ∧ s.handles 0 = 1 := by
  obtain ⟨s₀, s, hstart, hopen, hhandles, -, hip⟩ := exists_opened
  have hreach : Reachable FileRun.Start (guarded CallInRange FileRun.Step) s :=
    (Reachable.start hstart).next (a := FileEvent.fileOpen [slash, 0x66] 3)
      ⟨hstart.inRange, trivial, hopen⟩
  exact ⟨s, hreach, refsMatch_of_reachable hreach, hip, hhandles⟩

/-- A file is duplicated again and again. -/
private theorem exists_reachable_dups {n : ℕ} (hn : n < 2 ^ 31) : ∃ s : FileRun,
    Reachable FileRun.Start FileRun.Step s ∧ s.handles 0 = n + 1 ∧
      (s.sys.file 0).ref = BitVec.ofNat 32 (n + 1) := by
  induction n with
  | zero =>
    obtain ⟨s₀, s, hstart, hopen, hhandles, href, -⟩ := exists_opened
    exact ⟨s, (Reachable.start hstart).next (a := FileEvent.fileOpen [slash, 0x66] 3)
      ⟨trivial, hopen⟩, hhandles, href⟩
  | succ n ih =>
    obtain ⟨s, hreach, hhandles, href⟩ := ih (by omega)
    have hpos : 0 < (s.sys.file 0).ref.toInt := by
      rw [href, toInt_ofNat hn]
      omega
    have hdup : s.exec (.fileDup 0) = .ok { s with
        sys := s.sys.modFile 0 fun x => { x with ref := x.ref + 1 }
        handles := Function.update s.handles 0 (s.handles 0 + 1) } := by
      rw [exec, fileDup, if_pos hpos]
      rfl
    have hbalanced : s.Balanced (.fileDup 0) := by
      rw [FileRun.Balanced]
      omega
    refine ⟨_, hreach.next ⟨hbalanced, hdup⟩, ?_, ?_⟩
    · simp [hhandles]
    · simp [FileSys.modFile, href, BitVec.ofNat_add]

/-- A file with `2^31` references cannot be duplicated: the counter has become negative. -/
theorem exists_dup_panic : ∃ s : FileRun, Reachable FileRun.Start FileRun.Step s ∧
    s.Balanced (.fileDup 0) ∧ s.exec (.fileDup 0) = .error .fileDup := by
  obtain ⟨s, hreach, hhandles, href⟩ := exists_reachable_dups (n := 2 ^ 31 - 1) (by decide)
  refine ⟨s, hreach, ?_, ?_⟩
  · rw [FileRun.Balanced]
    omega
  · have hneg : ¬0 < (s.sys.file 0).ref.toInt := by
      rw [href]
      decide
    rw [exec, fileDup, if_neg hneg]
    rfl

end RiscvLab.Fs
