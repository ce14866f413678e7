import Mathlib.Data.Finset.Card
import Mathlib.Data.Finset.Range
import RiscvLab.Fs.Dentry

/-!
# Open files

An open file is a reference to an inode with an offset. `file_open` looks the path up, which takes a
reference to the inode, and `file_close` gives it back when the last reference to the file is
dropped. Files are numbered in the order of their allocation. `f_mutex` is left out: a call is one
step.

Sizes and offsets are words of 32 bits, and `file_llseek` compares them as unsigned numbers: its
tests for `new_offset < 0` are never true.

Source: `kernel/file.c`; `include/fs/file.h`.
-/

namespace RiscvLab.Fs

/-- `FILE_READ`. -/
def fileReadFlag : BitVec 32 := 1

/-- `FILE_WRITE`. -/
def fileWriteFlag : BitVec 32 := 2

/-- `enum SEEK`; `whence` may have any other value. -/
inductive Seek
  | seekSet
  | seekCur
  | seekEnd
  | other
  deriving DecidableEq

/-- `struct file`. -/
structure File where
  ref : BitVec 32
  flags : BitVec 32
  ip : Option ℕ
  off : BitVec 32

/-- The file system and the open files. -/
structure FileSys where
  efs : Efs
  file : ℕ → File
  /-- The number of files that have been allocated. -/
  files : ℕ
  /-- How often each file has been given back to its cache. -/
  freed : ℕ → ℕ

/-- The file `f` is changed. -/
def FileSys.modFile (s : FileSys) (f : ℕ) (g : File → File) : FileSys :=
  { s with file := Function.update s.file f (g (s.file f)) }

/-- `file_alloc`. -/
def fileAlloc (s : FileSys) : ℕ × FileSys :=
  (s.files, { s with file := Function.update s.file s.files ⟨0, 0, none, 0⟩, files := s.files + 1 })

/-- `file_free`. -/
def fileFree (s : FileSys) (f : ℕ) : FileSys :=
  { s with freed := Function.update s.freed f (s.freed f + 1) }

/-- `file_dup`. -/
def fileDup (s : FileSys) (f : ℕ) : Except Panic FileSys :=
  if 0 < (s.file f).ref.toInt then .ok (s.modFile f fun x => { x with ref := x.ref + 1 })
  else .error .fileDup

/-- `file_open`. -/
def fileOpen (s : FileSys) (filePath : List (BitVec 8)) (flags : BitVec 32) :
    Except Panic (Option ℕ × FileSys) := do
  let (i, efs) ← efsDNamei s.efs filePath
  let s := { s with efs := efs }
  match i with
  | none => .ok (none, s)
  | some i =>
    let (f, s) := fileAlloc s
    .ok (some f, s.modFile f fun x =>
      { x with ref := 1, flags := x.flags ||| flags, ip := some i, off := 0 })

/-- The file system after a file has been opened on the inode `i`. -/
def FileSys.opened (s : FileSys) (efs : Efs) (flags : BitVec 32) (i : ℕ) : FileSys :=
  { s with
    efs := efs
    file := Function.update s.file s.files ⟨1, flags, some i, 0⟩
    files := s.files + 1 }

theorem fileOpen_eq (s : FileSys) (filePath : List (BitVec 8)) (flags : BitVec 32) :
    fileOpen s filePath flags = (efsDNamei s.efs filePath).map fun r =>
      match r.1 with
      | none => (none, { s with efs := r.2 })
      | some i => (some s.files, s.opened r.2 flags i) := by
  rw [fileOpen]
  rcases efsDNamei s.efs filePath with p | ⟨_ | i, st⟩
  · rfl
  · rfl
  · simp [bind, Except.bind, Except.map, fileAlloc, FileSys.modFile, FileSys.opened]

/-- `file_close`. -/
def fileClose (s : FileSys) (f : ℕ) : Except Panic FileSys :=
  if 0 < (s.file f).ref.toInt then
    let s := s.modFile f fun x => { x with ref := x.ref - 1 }
    if (s.file f).ref = 0 then
      match (s.file f).ip with
      | none => .error .null
      | some i => do
        let efs ← efsIPut s.efs i
        .ok (fileFree { s with efs := efs } f)
    else .ok s
  else .error .fileClose

/-- `file_read`: the bytes that are read, or `none` for the result -1. -/
def fileRead (s : FileSys) (f : ℕ) (len : BitVec 32) :
    Except Panic (Option (List (BitVec 8)) × FileSys) :=
  if (s.file f).flags &&& fileReadFlag = 0 then .ok (none, s)
  else
    match (s.file f).ip with
    | none => .error .null
    | some i => do
      let (bytes, efs) ← efsIRead s.efs i (s.file f).off len
      let r := BitVec.ofNat 32 bytes.length
      if 0 < r.toInt then
        .ok (some bytes, { s with efs := efs }.modFile f fun x => { x with off := x.off + r })
      else .error .fileRead

/-- `file_write`. -/
def fileWrite (s : FileSys) (f : ℕ) (vaddr : ℕ → BitVec 8) (len : BitVec 32) :
    Except Panic (ℤ × FileSys) :=
  if (s.file f).flags &&& fileWriteFlag = 0 then .ok (-1, s)
  else
    match (s.file f).ip with
    | none => .error .null
    | some i => do
      let (r, efs) ← efsIWrite s.efs i (s.file f).off len vaddr
      if 0 < r then
        .ok (r, { s with efs := efs }.modFile f fun x =>
          { x with off := x.off + BitVec.ofInt 32 r })
      else .error .fileWrite

/-- The offset of the file `f` is set, unless it is behind the end of the file `i`. -/
def setOffset (s : FileSys) (f i : ℕ) (newOffset : BitVec 32) : ℤ × FileSys :=
  if (s.efs.inode i).di.size < newOffset then (-1, s)
  else (0, s.modFile f fun x => { x with off := newOffset })

/-- `file_llseek`. -/
def fileLlseek (s : FileSys) (f : ℕ) (offset : BitVec 32) (whence : Seek) :
    Except Panic (ℤ × FileSys) :=
  match (s.file f).ip with
  | none => .error .null
  | some i =>
    match whence with
    | .seekSet => .ok (setOffset s f i offset)
    | .seekCur => .ok (setOffset s f i ((s.file f).off + offset))
    | .seekEnd => .ok (setOffset s f i ((s.efs.inode i).di.size + offset))
    | .other => .ok (-1, s)

/-! ### Runs -/

/-- The calls. -/
inductive FileEvent
  | fileOpen (path : List (BitVec 8)) (flags : BitVec 32)
  | fileDup (f : ℕ)
  | fileClose (f : ℕ)
  | fileRead (f : ℕ) (len : BitVec 32)
  | fileWrite (f : ℕ) (vaddr : ℕ → BitVec 8) (len : BitVec 32)
  | fileLlseek (f : ℕ) (offset : BitVec 32) (whence : Seek)
  | efsDNamei (path : List (BitVec 8))
  | efsIPut (i : ℕ)
  | efsDRead (d : Option ℕ) (offset len : BitVec 32)
  | efsDWrite (d : Option ℕ) (offset len : BitVec 32) (vaddr : ℕ → BitVec 8)
  | efsDFsize (d : ℕ)
  | efsDRename (d : ℕ) (rename : ℕ → BitVec 8)
  | efsDUnlink (d : Option ℕ)

/-- The open files, and the references that the callers hold: to files, and to inodes that
`efs_d_namei` has returned. -/
structure FileRun where
  sys : FileSys
  handles : ℕ → ℕ
  held : ℕ → ℕ

namespace FileRun

/-- The file system of the run. -/
def efs (s : FileRun) : Efs := s.sys.efs

/-- The file system is changed. -/
def setEfs (s : FileRun) (efs : Efs) : FileRun := { s with sys := { s.sys with efs := efs } }

/-- A call. -/
def exec (s : FileRun) : FileEvent → Except Panic FileRun
  | .fileOpen path flags => do
    let (f, sys) ← Fs.fileOpen s.sys path flags
    match f with
    | none => .ok { s with sys := sys }
    | some f =>
      .ok { s with sys := sys, handles := Function.update s.handles f (s.handles f + 1) }
  | .fileDup f => do
    let sys ← Fs.fileDup s.sys f
    .ok { s with sys := sys, handles := Function.update s.handles f (s.handles f + 1) }
  | .fileClose f => do
    let sys ← Fs.fileClose s.sys f
    .ok { s with sys := sys, handles := Function.update s.handles f (s.handles f - 1) }
  | .fileRead f len => do
    let (_, sys) ← Fs.fileRead s.sys f len
    .ok { s with sys := sys }
  | .fileWrite f vaddr len => do
    let (_, sys) ← Fs.fileWrite s.sys f vaddr len
    .ok { s with sys := sys }
  | .fileLlseek f offset whence => do
    let (_, sys) ← Fs.fileLlseek s.sys f offset whence
    .ok { s with sys := sys }
  | .efsDNamei path => do
    let (i, efs) ← Fs.efsDNamei s.efs path
    match i with
    | none => .ok (s.setEfs efs)
    | some i => .ok { s.setEfs efs with held := Function.update s.held i (s.held i + 1) }
  | .efsIPut i => do
    let efs ← Fs.efsIPut s.efs i
    .ok { s.setEfs efs with held := Function.update s.held i (s.held i - 1) }
  | .efsDRead d offset len => do
    let (_, efs) ← Fs.efsDRead s.efs d offset len
    .ok (s.setEfs efs)
  | .efsDWrite d offset len vaddr => do
    let (_, efs) ← Fs.efsDWrite s.efs d offset len vaddr
    .ok (s.setEfs efs)
  | .efsDFsize d => do
    let (_, efs) ← Fs.efsDFsize s.efs d
    .ok (s.setEfs efs)
  | .efsDRename d rename => do
    let efs ← Fs.efsDRename s.efs d rename
    .ok (s.setEfs efs)
  | .efsDUnlink d => do
    let efs ← Fs.efsDUnlink s.efs d
    .ok (s.setEfs efs)

/-- The callers are balanced: they use the references that they hold, and entries that there are. -/
def Balanced (s : FileRun) : FileEvent → Prop
  | .fileOpen _ _ | .efsDNamei _ => True
  | .fileDup f | .fileClose f | .fileRead f _ | .fileWrite f _ _ | .fileLlseek f _ _ =>
    0 < s.handles f
  | .efsIPut i => 0 < s.held i
  | .efsDRead d _ _ | .efsDWrite d _ _ _ | .efsDUnlink d => ∀ e, d = some e → e < s.efs.dentries
  | .efsDFsize d | .efsDRename d _ => d < s.efs.dentries

instance (s : FileRun) (e : FileEvent) : Decidable (s.Balanced e) :=
  match e with
  | .fileOpen _ _ | .efsDNamei _ => inferInstanceAs (Decidable True)
  | .fileDup f | .fileClose f | .fileRead f _ | .fileWrite f _ _ | .fileLlseek f _ _ =>
    inferInstanceAs (Decidable (0 < s.handles f))
  | .efsIPut i => inferInstanceAs (Decidable (0 < s.held i))
  | .efsDRead d _ _ | .efsDWrite d _ _ _ | .efsDUnlink d =>
    match d with
    | none => isTrue fun e he => by cases he
    | some e => decidable_of_iff (e < s.efs.dentries)
        ⟨fun h e' he' => Option.some.inj he' ▸ h, fun h => h e rfl⟩
  | .efsDFsize d | .efsDRename d _ => inferInstanceAs (Decidable (d < s.efs.dentries))

/-- The step of the system: a balanced call that returns. -/
def Step (s : FileRun) (e : FileEvent) (s' : FileRun) : Prop := s.Balanced e ∧ s.exec e = .ok s'

/-- A sequence of balanced calls. -/
def run : List FileEvent → FileRun → Option FileRun
  | [], s => some s
  | e :: es, s => if s.Balanced e then (s.exec e).toOption.bind (run es) else none

/-- The open files that refer to the inode `i`. -/
def openFiles (s : FileRun) (i : ℕ) : Finset ℕ :=
  (Finset.range s.sys.files).filter fun f =>
    0 < (s.sys.file f).ref.toInt ∧ (s.sys.file f).ip = some i

/-- The references to the inode `i`: those of open files, those that `efs_d_namei` has returned and
that have not been put, and one to the root. -/
def refsTo (s : FileRun) (i : ℕ) : ℕ :=
  (s.openFiles i).card + s.held i + if i = 0 then 1 else 0

end FileRun

end RiscvLab.Fs
