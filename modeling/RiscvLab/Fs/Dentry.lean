import RiscvLab.Fs.Inode
import RiscvLab.Lib.String

/-!
# Directory entries

The operations on directory entries. The entries of a directory are read from its file when they are
first needed; from then on `d_child` is the directory. `efs_d_fill` does not look at the type of the
entry: the file of any entry is read as an array of `struct easy_dirent`.

Only entries that have been read from the disk, and the root, are in the hash table; `efs_d_creat`
does not put a new entry there.

A name of `DIR_MAXLEN` bytes or more is stored without a zero. Names are compared on `DIR_MAXLEN`
bytes, so that neither what the field held before nor what lies behind it matters
(`efsDNamecmp_stored`).

Source: `fs/easyfs/dentry.c`; `fs/easyfs/fs.c`, lines 7–43.
-/

namespace RiscvLab.Fs

open Library

/-- The character `/`. -/
def slash : BitVec 8 := 0x2F

/-- `efs_d_namecmp`. -/
def efsDNamecmp (s t : ℕ → BitVec 8) : ℤ := strncmp s t dirMaxlen

/-- `efs_d_sdirty`. -/
def efsDSdirty (st : Efs) (d : ℕ) : Efs :=
  let st := st.modDentry d fun x => { x with dirty := true }
  if d ∈ st.ddirty then st else { st with ddirty := d :: st.ddirty }

/-- `efs_d_addsb`. -/
def efsDAddsb (st : Efs) (d : ℕ) : Efs :=
  let b := strhash (st.dentry d).dd.name dirMaxlen % buckets
  { st with dhash := Function.update st.dhash b (d :: st.dhash b) }

/-- `efs_d_alloc`. -/
def efsDAlloc (st : Efs) : ℕ × Efs :=
  let d := st.dentries
  (d, { st with
    dentry := Function.update st.dentry d ⟨.read (st.junk d), none, none, [], false, false⟩
    dentries := d + 1 })

/-- `efs_d_conn`. -/
def efsDConn (st : Efs) (d pd : ℕ) : Efs :=
  (st.modDentry d fun x => { x with parent := some pd }).modDentry pd fun x =>
    { x with child := x.child ++ [d] }

/-- The body of the loop in `efs_d_fill`, for the entry `k` of the file of the inode `i`. -/
def efsDFillEntry (st : Efs) (pd i k : ℕ) : Except Panic Efs := do
  let (d, st) := efsDAlloc st
  let (bytes, st) ← efsIRead st i (BitVec.ofNat 32 (k * direntSize)) (BitVec.ofNat 32 direntSize)
  let st := st.modDentry d fun x => { x with dd := .read (patch (st.junk d) 0 bytes) }
  .ok (efsDAddsb (efsDConn st d pd) d)

/-- The loop in `efs_d_fill`, from the entry `k` on. -/
def efsDFillLoop (pd i : ℕ) : ℕ → ℕ → Efs → Except Panic Efs
  | 0, _, st => .ok st
  | n + 1, k, st => do
    let st ← efsDFillEntry st pd i k
    efsDFillLoop pd i n (k + 1) st

/-- `efs_d_fill`. -/
def efsDFill (st : Efs) (pd : ℕ) : Except Panic Efs := do
  let (i, st) ← efsIGet st (st.dentry pd).dd.ino
  let st := st.modDentry pd fun x => { x with inode := some i }
  let st ← efsDFillLoop pd i ((st.inode i).di.size.toNat / direntSize) 0 st
  efsIPut st i

/-- The children are read if they have not been: the start of `efs_d_name_check`, and a part of
`efs_d_unlink`. -/
def efsDLoad (st : Efs) (pd : ℕ) : Except Panic Efs :=
  if (st.dentry pd).filled then .ok st
  else do
    let st ← efsDFill st pd
    .ok (st.modDentry pd fun x => { x with filled := true })

/-- The first child with the name. -/
def findChild (st : Efs) (pd : ℕ) (name : ℕ → BitVec 8) : Option ℕ :=
  (st.dentry pd).child.find? fun d => efsDNamecmp (st.dentry d).dd.name name = 0

/-- `efs_d_name_check`, also `efs_d_namex`. -/
def efsDNameCheck (st : Efs) (pd : ℕ) (name : ℕ → BitVec 8) : Except Panic (Option ℕ × Efs) := do
  let st ← efsDLoad st pd
  .ok (findChild st pd name, st)

/-- The loop of `efs_d_named` and the last component: `name` is the component so far, and `p` are
the bytes that follow. -/
def efsDWalk : ℕ → List (BitVec 8) → List (BitVec 8) → Efs → Except Panic (Option ℕ × Efs)
  | d, name, [], st => if name = [] then .ok (some d, st) else efsDNameCheck st d (cstr name)
  | d, name, c :: p, st =>
    if c = slash then do
      let (r, st) ← efsDNameCheck st d (cstr name)
      match r with
      | none => .ok (none, st)
      | some d => efsDWalk d [] p st
    else efsDWalk d (name ++ [c]) p st

/-- `MAX_PATH_LEN`. -/
def maxPathLen : ℕ := 256

/-- `efs_d_named`. -/
def efsDNamed (st : Efs) (path : List (BitVec 8)) : Except Panic (Option ℕ × Efs) :=
  let bucket := st.dhash (strhash (cstr path) path.length % buckets)
  match bucket.find? fun d => efsDNamecmp (st.dentry d).dd.name (cstr path) = 0 with
  | some d => .ok (some d, st)
  | none =>
    match chars (cstr path) maxPathLen with
    | [] => .error .relativePath
    | c :: p => if c = slash then efsDWalk 0 [] p st else .error .relativePath

/-- The inode of an entry, with one more reference. -/
def efsDInode (st : Efs) (d : ℕ) : Except Panic (ℕ × Efs) :=
  match (st.dentry d).inode with
  | some i => .ok (i, efsIDup st i)
  | none => do
    let (i, st) ← efsIGet st (st.dentry d).dd.ino
    .ok (i, st.modDentry d fun x => { x with inode := some i })

/-- `efs_d_namei`. -/
def efsDNamei (st : Efs) (path : List (BitVec 8)) : Except Panic (Option ℕ × Efs) := do
  let (d, st) ← efsDNamed st path
  match d with
  | none => .ok (none, st)
  | some d => do
    let (i, st) ← efsDInode st d
    .ok (some i, st)

/-- The last part of `efs_d_creat`: an entry for the inode `i` is made. -/
def efsDCreatEntry (st : Efs) (pd i : ℕ) (name : ℕ → BitVec 8) (type : FileType) :
    Except Panic (Option ℕ × Efs) :=
  let (d, st) := efsDAlloc st
  let st := st.modDentry d fun x => { x with dd :=
    ⟨(st.inode i).di.no, type, (strncpy x.dd.name 0 name dirMaxlen).1⟩ }
  let st := efsIType st i type
  let st := efsDConn st d pd
  match (st.dentry pd).inode with
  | none => .error .null
  | some pi =>
    let st := st.modDi pi fun x => { x with size := x.size + BitVec.ofNat 32 direntSize }
    .ok (some d, efsDSdirty st pd)

/-- `efs_d_creat`. -/
def efsDCreat (st : Efs) (pd : Option ℕ) (name : ℕ → BitVec 8) (type : FileType) :
    Except Panic (Option ℕ × Efs) :=
  match pd with
  | none => .ok (none, st)
  | some pd =>
    if (st.dentry pd).dd.type ≠ .fDir then .ok (none, st)
    else do
      let (r, st) ← efsDNameCheck st pd name
      if r ≠ none then .ok (none, st)
      else
        let (i, st) ← efsINew st
        efsDCreatEntry st pd i name type

/-- The last part of `efs_d_unlink`: the entry is taken out of its directory. -/
def efsDRemove (st : Efs) (d : ℕ) : Except Panic Efs :=
  match (st.dentry d).parent with
  | none => .error .null
  | some pd =>
    let st := st.modDentry pd fun x => { x with child := x.child.erase d }
    match (st.dentry pd).inode with
    | none => .error .null
    | some pi =>
      let st := st.modDi pi fun x => { x with size := x.size - BitVec.ofNat 32 direntSize }
      .ok (efsDSdirty st pd)

/-- `efs_d_unlink` after the check that a directory is empty. -/
def efsDUnlinkEmpty (st : Efs) (d : ℕ) : Except Panic Efs :=
  if (st.dentry d).dd.ino = 1 then .ok st
  else do
    let (i, st) ← efsDInode st d
    let st ← efsIPut st i
    let (r, st) ← efsIUnlink st i
    if r = 0 then efsDRemove st d else .ok st

/-- `efs_d_unlink`. -/
def efsDUnlink (st : Efs) (d : Option ℕ) : Except Panic Efs :=
  match d with
  | none => .ok st
  | some d =>
    if (st.dentry d).dd.type = .fDir then do
      let st ← efsDLoad st d
      if (st.dentry d).child ≠ [] then .ok st else efsDUnlinkEmpty st d
    else efsDUnlinkEmpty st d

/-- `efs_d_rename`. A name of 15 bytes makes `strncpy` clear the lowest byte of `d_inode`, which is
zero already unless the inode is `root_m_inode`: that one is not allocated like the others. -/
def efsDRename (st : Efs) (d : ℕ) (rename : ℕ → BitVec 8) : Except Panic Efs :=
  match (st.dentry d).parent with
  | none => .error .null
  | some pd => do
    let (r, st) ← efsDNameCheck st pd rename
    if r ≠ none then .ok st
    else
      let (i, st) ← efsDInode st d
      if i = 0 ∧ (chars rename dirMaxlen).length = dirMaxlen - 1 then .error .overrun
      else
        let st := st.modDentry d fun x =>
          { x with dd := { x.dd with name := (strncpy x.dd.name 0 rename dirMaxlen).1 } }
        efsIPut st i

/-- The inode of an entry, as `efs_d_read` and `efs_d_write` find it. -/
def efsDCache (st : Efs) (d : ℕ) : Except Panic (ℕ × Efs) :=
  match (st.dentry d).inode with
  | some i => .ok (i, st)
  | none => do
    let (i, st) ← efsIGet st (st.dentry d).dd.ino
    let st := st.modDentry d fun x => { x with inode := some i }
    let st ← efsIPut st i
    .ok (i, st)

/-- `efs_d_read`: the bytes that are read, or `none` for the result -1. -/
def efsDRead (st : Efs) (d : Option ℕ) (offset len : BitVec 32) :
    Except Panic (Option (List (BitVec 8)) × Efs) :=
  match d with
  | none => .ok (none, st)
  | some d => do
    let (i, st) ← efsDCache st d
    let st := efsIDup st i
    let (bytes, st) ← efsIRead st i offset len
    let st ← efsIPut st i
    .ok (some bytes, st)

/-- `efs_d_write`. -/
def efsDWrite (st : Efs) (d : Option ℕ) (offset len : BitVec 32) (vaddr : ℕ → BitVec 8) :
    Except Panic (ℤ × Efs) :=
  match d with
  | none => .ok (-1, st)
  | some d =>
    if (st.dentry d).dd.type = .fDir then .ok (-1, st)
    else do
      let (i, st) ← efsDCache st d
      let st := efsIDup st i
      let (res, st) ← efsIWrite st i offset len vaddr
      let st ← efsIPut st i
      .ok (res, st)

/-- `efs_d_fsize`. -/
def efsDFsize (st : Efs) (d : ℕ) : Except Panic (BitVec 32 × Efs) := do
  let (i, st) ← efsDInode st d
  let fsize := (st.inode i).di.size
  let st ← efsIPut st i
  .ok (fsize, st)

/-- `root_dentry`. -/
def rootDentry : Dentry := ⟨⟨1, .fDir, cstr [slash]⟩, none, none, [], false, false⟩

/-- `efs_d_root_init`. -/
def efsDRootInit (st : Efs) : Except Panic Efs := do
  let st := { st with dentry := Function.update st.dentry 0 rootDentry, dentries := 1 }
  let st ← efsDFill st 0
  let st := st.modDentry 0 fun x => { x with filled := true }
  .ok (efsDAddsb st 0)

/-- What the memory holds when the superblock has been read. -/
def Efs.blank (disk : Disk) (sb : Super) (dev : BitVec 16) (junk : ℕ → ℕ → BitVec 8) : Efs where
  disk := disk
  sb := sb
  dev := dev
  junk := junk
  inode _ := ⟨⟨0, .fNone, 0, 0, fun _ => 0, 0⟩, 0, false, false, none⟩
  inodes := 0
  dentry _ := rootDentry
  dentries := 0
  ihash _ := []
  dhash _ := []
  idirty := []
  ddirty := []

/-- `efs_mount`. -/
def efsMount (disk : Disk) (dev : BitVec 16) (ipages bpages : ℕ → BitVec 64)
    (junk : ℕ → ℕ → BitVec 8) : Except Panic Efs := do
  let sb ← efsSbInit disk ipages bpages
  let st ← efsIRootInit (.blank disk sb dev junk)
  efsDRootInit st

/-! ### Stored names -/

/-- A name that has been copied into the field `d_name` of an entry compares equal to a string
exactly if both agree on their first `DIR_MAXLEN` bytes, where the zero of a string counts and
nothing behind it does. -/
theorem efsDNamecmp_stored {a b : ℕ → BitVec 8} {la lb : ℕ} (ha : HasLength a la)
    (hb : HasLength b lb) (mem : ℕ → BitVec 8) (dName : ℕ) :
    efsDNamecmp (fun i => (strncpy mem dName a dirMaxlen).1 (dName + i)) b = 0 ↔
      (slice a 0 (la + 1)).take dirMaxlen = (slice b 0 (lb + 1)).take dirMaxlen := by
  rw [efsDNamecmp, strncmp_eq_zero_iff, chars_strncpy_add, chars_eq_iff_take ha hb]

/-- Names of 16 and of 17 bytes that agree on the first 16. -/
theorem efsDNamecmp_stored_16_17 :
    HasLength (cstr (List.replicate 16 97)) 16 ∧ HasLength (cstr (List.replicate 17 97)) 17 ∧
      efsDNamecmp (fun i =>
        (strncpy (fun _ => 1) 8 (cstr (List.replicate 16 97)) dirMaxlen).1 (8 + i))
        (cstr (List.replicate 17 97)) = 0 := by
  have h₁₆ : HasLength (cstr (List.replicate 16 97)) 16 := by
    unfold HasLength
    decide
  have h₁₇ : HasLength (cstr (List.replicate 17 97)) 17 := by
    unfold HasLength
    decide
  exact ⟨h₁₆, h₁₇, (efsDNamecmp_stored h₁₆ h₁₇ _ _).2 (by decide)⟩

end RiscvLab.Fs
