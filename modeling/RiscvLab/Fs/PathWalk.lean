import RiscvLab.Fs.Consistent
import RiscvLab.Fs.Mount

/-!
# Looking up paths

`efs_d_named` takes an absolute path apart at its slashes and looks up one component after the other
(`walkNames`). It does not look at the types of the entries that it meets, and `efs_d_fill` reads
the file of any entry as an array of `struct easy_dirent`. A path that goes on behind the name of a
regular file therefore is looked up in the bytes of that file. Before that, it looks for an entry
with the whole path as its name in the hash table, where only entries that have been read from a
regular file can have one.

What a path names is said by `Efs.lookup` on the tree of names, which memory and the bytes on the
disk make up, and which the functions of the source have no part in. `efs_d_named` finds just that,
reading directories as it comes to them, unless it comes to a file that is not a directory and whose
bytes, read as entries, have the next component as a name.

## Main definitions

* `pathOf` : the path with given components.
* `walkNames` : the lookup of components below an entry, through any entries.
* `Efs.Strays` : a path goes on behind a file that is not a directory, in whose bytes the next
  component is found.

## Main results

* `efsDWalk_pathTail` : `efs_d_named` looks up the components of a path.
* `efsDNamed_resolves` : it finds what the path names in the tree if the path does not stray.

Source: `fs/easyfs/dentry.c`, lines 99–226.
-/

namespace RiscvLab.Fs

open Library

/-! ### Paths -/

/-- The bytes of a component of a path. -/
structure IsComponent (c : List (BitVec 8)) : Prop where
  ne_nil : c ≠ []
  no_slash : slash ∉ c
  no_zero : 0 ∉ c

/-- A path behind its first slash, with a slash at its end if `trailing` is set. -/
def pathTail (trailing : Bool) : List (List (BitVec 8)) → List (BitVec 8)
  | [] => []
  | [c] => c ++ if trailing then [slash] else []
  | c :: cs => c ++ slash :: pathTail trailing cs

/-- The absolute path with the components; it is `/` if there are none. -/
def pathOf (trailing : Bool) (cs : List (List (BitVec 8))) : List (BitVec 8) :=
  slash :: pathTail trailing cs

/-- The entry that the hash table has under the path. -/
def cachedAs (st : Efs) (path : List (BitVec 8)) : Option ℕ :=
  (st.dhash (strhash (cstr path) path.length % buckets)).find? fun d =>
    efsDNamecmp (st.dentry d).dd.name (cstr path) = 0

/-- The components are looked up one after the other, from the entry `d` on. -/
def walkNames : ℕ → List (List (BitVec 8)) → Efs → Except Panic (Option ℕ × Efs)
  | d, [], st => .ok (some d, st)
  | d, c :: cs, st => do
    let (r, st) ← efsDNameCheck st d (cstr c)
    match r with
    | none => .ok (none, st)
    | some e => walkNames e cs st

/-- Below `x`, the components come to a file that is not a directory before they end, and one of the
entries that its bytes are read as has the next component as its name. This is also said of a file
with holes, since it is not known what its bytes are read as. -/
def Efs.Strays (st : Efs) : Node → List (List (BitVec 8)) → Prop
  | _, [] => False
  | x, c :: cs =>
    if st.IsDir x then ∃ y, st.named c (st.members x) = some y ∧ st.Strays y cs
    else ¬st.Readable x ∨ st.named c (st.members x) ≠ none

section Paths

variable {st st₁ : Efs} {d e : ℕ} {r : Option ℕ} {c p : List (BitVec 8)}
  {cs : List (List (BitVec 8))} {trailing : Bool}

theorem chars_cstr (hc : 0 ∉ c) (n : ℕ) : chars (cstr c) n = c.take n := by
  induction n generalizing c with
  | zero => rw [chars, List.take_zero]
  | succ n ih =>
    cases c with
    | nil => rfl
    | cons a c =>
      have ha : cstr (a :: c) 0 ≠ 0 := fun h => hc (List.mem_cons.mpr (.inl h.symm))
      rw [chars, if_neg ha, List.take_succ_cons]
      exact congrArg _ (ih fun h => hc (List.mem_cons_of_mem _ h))

/-- Bytes before the next slash belong to the component. -/
theorem efsDWalk_append (hc : slash ∉ c) (name : List (BitVec 8)) :
    efsDWalk d name (c ++ p) st = efsDWalk d (name ++ c) p st := by
  induction c generalizing name with
  | nil => rw [List.nil_append, List.append_nil]
  | cons a c ih =>
    rw [List.mem_cons, not_or] at hc
    rw [List.cons_append, efsDWalk, if_neg (Ne.symm hc.1), ih hc.2, List.append_assoc,
      List.singleton_append]

theorem walkNames_singleton : walkNames d [c] st = efsDNameCheck st d (cstr c) := by
  rw [walkNames]
  rcases efsDNameCheck st d (cstr c) with _ | ⟨_ | e, st₁⟩ <;> rfl

/-- The loop over the characters of a path is one over its components. A slash at the end makes no
difference, since no name follows it. -/
theorem efsDWalk_pathTail (hcs : ∀ c ∈ cs, IsComponent c) :
    efsDWalk d [] (pathTail trailing cs) st = walkNames d cs st := by
  induction cs generalizing d st with
  | nil => rfl
  | cons c cs ih =>
    have hc := hcs c List.mem_cons_self
    have htail := fun e st => @ih st e fun c' h => hcs c' (List.mem_cons_of_mem _ h)
    cases cs with
    | nil =>
      rw [walkNames_singleton, pathTail, efsDWalk_append hc.no_slash, List.nil_append]
      cases trailing with
      | false => rw [if_neg Bool.false_ne_true, efsDWalk, if_neg hc.ne_nil]
      | true =>
        rw [if_pos rfl, efsDWalk, if_pos rfl]
        rcases efsDNameCheck st d (cstr c) with _ | ⟨_ | e, st₁⟩ <;> rfl
    | cons c' cs =>
      rw [pathTail, efsDWalk_append hc.no_slash, List.nil_append, efsDWalk, if_pos rfl, walkNames]
      · rcases efsDNameCheck st d (cstr c) with _ | ⟨_ | e, st₁⟩
        · rfl
        · rfl
        · exact htail e st₁
      · exact List.cons_ne_nil _ _

theorem zero_notMem_pathTail (hcs : ∀ c ∈ cs, IsComponent c) : 0 ∉ pathTail trailing cs := by
  have hslash : (0 : BitVec 8) ≠ slash := by decide
  induction cs with
  | nil => exact List.not_mem_nil
  | cons c cs ih =>
    have hc := (hcs c List.mem_cons_self).no_zero
    have htail := ih fun c' h => hcs c' (List.mem_cons_of_mem _ h)
    cases cs with
    | nil =>
      rw [pathTail, List.mem_append, not_or]
      refine ⟨hc, ?_⟩
      split
      · exact fun h => hslash (List.mem_singleton.mp h)
      · exact List.not_mem_nil
    | cons c' cs =>
      rw [pathTail, List.mem_append, List.mem_cons, not_or, not_or]
      · exact ⟨hc, hslash, htail⟩
      · exact List.cons_ne_nil _ _

theorem zero_notMem_pathOf (hcs : ∀ c ∈ cs, IsComponent c) : 0 ∉ pathOf trailing cs := by
  rw [pathOf, List.mem_cons, not_or]
  exact ⟨by decide, zero_notMem_pathTail hcs⟩

/-- A path that is not in the hash table is looked up by its components. -/
theorem efsDNamed_eq_walkNames (hcs : ∀ c ∈ cs, IsComponent c)
    (hlen : (pathOf trailing cs).length ≤ maxPathLen)
    (hcached : cachedAs st (pathOf trailing cs) = none) :
    efsDNamed st (pathOf trailing cs) = walkNames 0 cs st := by
  have hchars : chars (cstr (pathOf trailing cs)) maxPathLen = slash :: pathTail trailing cs := by
    rw [chars_cstr (zero_notMem_pathOf hcs), List.take_of_length_le hlen, pathOf]
  rw [cachedAs] at hcached
  simp only [efsDNamed, hcached, hchars, if_true]
  exact efsDWalk_pathTail hcs

theorem efsDNamed_of_cachedAs {path : List (BitVec 8)} (h : cachedAs st path = some d) :
    efsDNamed st path = .ok (some d, st) := by
  rw [cachedAs] at h
  simp only [efsDNamed, h]

end Paths

/-! ### Components -/

section Components

variable {st st₁ : Efs} {d : ℕ} {x y : Node} {c : List (BitVec 8)} {cs : List (List (BitVec 8))}
  {trailing : Bool}

theorem takeWhile_slice (s : ℕ → BitVec 8) (n : ℕ) :
    (slice s 0 n).takeWhile (· ≠ 0) = chars s n := by
  induction n generalizing s with
  | zero => rfl
  | succ n ih =>
    have hslice : slice s 0 (n + 1) = s 0 :: slice (fun i => s (i + 1)) 0 n := by
      simp [slice, List.range_succ_eq_map]
    rw [hslice, chars, List.takeWhile_cons, ih]
    by_cases h : s 0 = 0 <;> simp [h]

/-- Names are compared on their first 16 bytes. -/
theorem efsDNamecmp_cstr_iff (dd : Dirent) (hc : 0 ∉ c) :
    efsDNamecmp dd.name (cstr c) = 0 ↔ Efs.hasName c dd.entry = true := by
  rw [efsDNamecmp, strncmp_eq_zero_iff, chars_cstr hc, Efs.hasName, Dirent.entry, takeWhile_slice,
    decide_eq_true_iff]

/-- `findChild` finds the entry that has the name in the tree. -/
theorem named_of_filled (hc : 0 ∉ c) (hfilled : (st.dentry d).filled = true) :
    st.named c (st.members (.mem d)) = (findChild st d (cstr c)).map .mem := by
  rw [Efs.members_of_filled hfilled, Efs.named, List.find?_map, findChild]
  congr 2
  funext e
  exact Bool.eq_iff_iff.2 (by rw [decide_eq_true_iff, efsDNamecmp_cstr_iff _ hc]; rfl)

/-- What is found behind a directory is found there after the directory has been read. -/
theorem NodeSim.named {R : Node → Node → Prop} (h : NodeSim R st st₁) (hxy : R x y) {z : Node}
    (hz : st₁.named c (st₁.members y) = some z) :
    ∃ w, st.named c (st.members x) = some w ∧ R w z :=
  exists_find?_of_forall₂ (h.members x y hxy) (fun a b hab => by rw [h.label a b hab]) hz

/-- A path that strays after a directory has been read has strayed before. -/
theorem NodeSim.strays {R : Node → Node → Prop} (h : NodeSim R st st₁) (hxy : R x y)
    (hs : st₁.Strays y cs) : st.Strays x cs := by
  induction cs generalizing x y with
  | nil => exact hs
  | cons c cs ih =>
    rw [Efs.Strays] at hs ⊢
    rw [if_congr (h.isDir_iff hxy) rfl rfl] at hs
    split
    · next hdir =>
      rw [if_pos hdir] at hs
      obtain ⟨z, hz, hs⟩ := hs
      obtain ⟨w, hw, hwz⟩ := h.named hxy hz
      exact ⟨w, hw, ih hwz hs⟩
    · next hdir =>
      rw [if_neg hdir] at hs
      refine hs.imp (fun hread hx => hread (h.readable x y hxy hx)) fun hne => ?_
      obtain ⟨z, hz⟩ := Option.ne_none_iff_exists'.1 hne
      obtain ⟨w, hw, -⟩ := h.named hxy hz
      rw [hw]
      exact Option.some_ne_none w

/-- A directory on the way, and what the component names in it, stay in memory. -/
theorem Kept.named (h : Kept st st₁) (hwf : st.Wf) (hd : d < st.dentries)
    (hfilled : (st.dentry d).filled = true) (c : List (BitVec 8)) :
    st₁.named c (st₁.kids (.mem d)) = st.named c (st.kids (.mem d)) := by
  obtain ⟨hfilled', hchild⟩ := h.filled d hd hfilled
  have hlabel (e : ℕ) (he : e < st.dentries) : st₁.label (.mem e) = st.label (.mem e) := by
    rw [Efs.label, Efs.label, h.dd e he]
  have hdir : st₁.IsDir (.mem d) ↔ st.IsDir (.mem d) := by
    rw [Efs.IsDir, Efs.IsDir, hlabel d hd]
  rw [Efs.kids, Efs.kids, if_congr hdir rfl rfl, Efs.members_of_filled hfilled,
    Efs.members_of_filled hfilled', hchild]
  split
  · rw [Efs.named, Efs.named, List.find?_map, List.find?_map]
    refine congrArg _ (List.find?_congr fun e he => ?_)
    exact congrArg (Efs.hasName c) (hlabel e (hwf.child d hd e he))
  · rfl

/-- The components lead from `d` to what the tree has there, and the directories on the way are read
into memory. -/
theorem walkNames_resolves (hst : st.Consistent) (hd : st.InTree (.mem d))
    (hcs : ∀ c ∈ cs, IsComponent c) (hs : ¬st.Strays (.mem d) cs) :
    ∃ r st', walkNames d cs st = .ok (r, st') ∧ Unchanged st st' ∧ st'.Consistent ∧ Kept st st' ∧
      st'.lookup (.mem d) cs = r.map .mem := by
  induction cs generalizing d st with
  | nil => exact ⟨some d, st, rfl, .refl, hst, .refl, rfl⟩
  | cons c cs ih =>
    have hc := (hcs c List.mem_cons_self).no_zero
    have hread : st.Readable (.mem d) := by
      by_cases hdir : st.IsDir (.mem d)
      · exact (hst.node _ hd).readable hdir
      · rw [Efs.Strays, if_neg hdir] at hs
        exact not_not.1 fun h => hs (.inl h)
    obtain ⟨st₁, hload, hloaded⟩ := hst.load hd hread
    obtain ⟨R, hsim, hR⟩ := hloaded.sim
    have hnamed := named_of_filled hc hloaded.filled
    have hcheck : efsDNameCheck st d (cstr c) = .ok (findChild st₁ d (cstr c), st₁) := by
      rw [efsDNameCheck, hload]
      rfl
    rw [walkNames, hcheck]
    by_cases hdir : st.IsDir (.mem d)
    · have hkids : st₁.kids (.mem d) = st₁.members (.mem d) := if_pos ((hsim.isDir_iff hR).2 hdir)
      cases hfind : findChild st₁ d (cstr c) with
      | none =>
        refine ⟨none, st₁, rfl, hloaded.unchanged, hloaded.consistent, hloaded.kept, ?_⟩
        rw [Efs.lookup_cons, hkids, hnamed, hfind]
        rfl
      | some e =>
        rw [hfind] at hnamed
        have he : st₁.InTree (.mem e) := by
          refine hloaded.inTree.kid ?_
          rw [hkids]
          exact List.mem_of_find?_eq_some hnamed
        have hs₁ : ¬st₁.Strays (.mem e) cs := by
          intro hstray
          obtain ⟨w, hw, hwe⟩ := hsim.named hR hnamed
          rw [Efs.Strays, if_pos hdir] at hs
          exact hs ⟨w, hw, hsim.strays hwe hstray⟩
        obtain ⟨r, st', hwalk, hsame, hst', hkept, hlookup⟩ := ih hloaded.consistent he
          (fun c' h => hcs c' (List.mem_cons_of_mem _ h)) hs₁
        refine ⟨r, st', hwalk, hloaded.unchanged.trans hsame, hst', hloaded.kept.trans hkept, ?_⟩
        have hlt := hloaded.inTree.lt hloaded.consistent.wf d rfl
        rw [Efs.lookup_cons, hkept.named hloaded.consistent.wf hlt hloaded.filled, hkids, hnamed]
        exact hlookup
    · -- the entry is not a directory, and the component is not found in its bytes
      have hnone : findChild st₁ d (cstr c) = none := by
        cases hfind : findChild st₁ d (cstr c) with
        | none => rfl
        | some e =>
          rw [hfind] at hnamed
          obtain ⟨w, hw, -⟩ := hsim.named hR hnamed
          rw [Efs.Strays, if_neg hdir, hw] at hs
          exact absurd (.inr (Option.some_ne_none w)) hs
      rw [hnone]
      refine ⟨none, st₁, rfl, hloaded.unchanged, hloaded.consistent, hloaded.kept, ?_⟩
      have hkids : st₁.kids (.mem d) = [] := if_neg fun h => hdir ((hsim.isDir_iff hR).1 h)
      rw [Efs.lookup_cons, hkids]
      rfl

theorem pathTail_eq_nil (hcs : ∀ c ∈ cs, IsComponent c) (h : pathTail trailing cs = []) :
    cs = [] := by
  cases cs with
  | nil => rfl
  | cons c cs =>
    have hne := (hcs c List.mem_cons_self).ne_nil
    cases cs with
    | nil => exact absurd (List.append_eq_nil_iff.mp h).1 hne
    | cons c' cs => exact absurd (List.append_eq_nil_iff.mp h).1 hne

/-- What is cached under a path has the first bytes of the path as its name. -/
theorem chars_of_cachedAs {path : List (BitVec 8)} (hpath : 0 ∉ path)
    (h : cachedAs st path = some d) :
    chars (st.dentry d).dd.name dirMaxlen = path.take dirMaxlen := by
  rw [cachedAs] at h
  have hcmp := List.find?_some h
  rwa [decide_eq_true_iff, efsDNamecmp, strncmp_eq_zero_iff, chars_cstr hpath] at hcmp

/-- **Paths.** In a consistent file system, `efs_d_named` returns an entry exactly if the components
of the path lead to a node through directories, each of them naming a child of the one before on 16
bytes, and the entry is that node. Directories are read from the disk on the way, which changes
nothing else. The condition is that only the root is cached under the whole path, and that the path
does not go on behind a file that is not a directory and has the next component in its bytes. -/
theorem efsDNamed_resolves (hst : st.Consistent)
    (hroot : chars (st.dentry 0).dd.name dirMaxlen = [slash]) (hcs : ∀ c ∈ cs, IsComponent c)
    (hlen : (pathOf trailing cs).length ≤ maxPathLen)
    (hcached : ∀ d, cachedAs st (pathOf trailing cs) = some d → d = 0)
    (hs : ¬st.Strays (.mem 0) cs) :
    ∃ r st', efsDNamed st (pathOf trailing cs) = .ok (r, st') ∧ Unchanged st st' ∧
      st'.lookup (.mem 0) cs = r.map .mem ∧
        r.map (fun d => (st'.dentry d).dd.entry) = (st.lookup (.mem 0) cs).map st.label := by
  -- the entry that is returned has the label of the node before the call
  have hlabel {st' : Efs} {r : Option ℕ} (hsame : Unchanged st st')
      (hlookup : st'.lookup (.mem 0) cs = r.map .mem) :
      r.map (fun d => (st'.dentry d).dd.entry) = (st.lookup (.mem 0) cs).map st.label := by
    rw [← hsame.lookup, hlookup, Option.map_map]
    rfl
  cases hfind : cachedAs st (pathOf trailing cs) with
  | none =>
    obtain ⟨r, st', hwalk, hsame, -, -, hlookup⟩ := walkNames_resolves hst .root hcs hs
    refine ⟨r, st', ?_, hsame, hlookup, hlabel hsame hlookup⟩
    rw [efsDNamed_eq_walkNames hcs hlen hfind, hwalk]
  | some d =>
    obtain rfl := hcached d hfind
    have htake := hroot.symm.trans (chars_of_cachedAs (zero_notMem_pathOf hcs) hfind)
    have hnil : cs = [] := by
      refine @pathTail_eq_nil _ trailing hcs ?_
      have htail : (pathTail trailing cs).take 15 = [] := (List.cons.inj htake).2.symm
      exact (List.take_eq_nil_iff.mp htail).resolve_left (by decide)
    subst hnil
    exact ⟨some 0, st, efsDNamed_of_cachedAs hfind, .refl, rfl, hlabel .refl rfl⟩

/-- A path that names a node does not stray. -/
theorem not_strays_of_lookup (h : st.lookup x cs = some y) : ¬st.Strays x cs := by
  induction cs generalizing x with
  | nil => exact id
  | cons c cs ih =>
    rw [Efs.lookup_cons, Efs.kids] at h
    rw [Efs.Strays]
    split at h
    · next hdir =>
      rw [if_pos hdir]
      rintro ⟨z, hz, hs⟩
      rw [hz] at h
      exact ih h hs
    · cases h

end Components

/-! ### A regular file in a path -/

/-- A disk with the regular files `f` and `g` and the directory `d`, in which there is a regular
file `h`. The files `g` and `h` are empty, and `f` holds 24 bytes: they are a directory entry for
the inode of `g`, with the name `x`. -/
def fileImage : Disk :=
  [(superBlockLocation * blockSize,
      DSuper.words ⟨63, 58, 128, 2, 3, 64, 51, 4096, 5, 6, easyfsMagic⟩ easySbName),
    (2 * blockSize, [0x3e]), (5 * blockSize, [0x1fff]),
    (3 * blockSize + 128, [1, 2, 0, 72, 10]), (3 * blockSize + 196, [1]),
    (3 * blockSize + 256, [2, 1, 0, 24, 11]), (3 * blockSize + 324, [1]),
    (3 * blockSize + 384, [3, 1, 0, 0]), (3 * blockSize + 452, [1]),
    (3 * blockSize + 512, [4, 2, 0, 24, 12]), (3 * blockSize + 580, [1]),
    (3 * blockSize + 640, [5, 1, 0, 0]), (3 * blockSize + 708, [1]),
    (10 * blockSize, [2, 1, 0x66]), (10 * blockSize + 24, [3, 1, 0x67]),
    (10 * blockSize + 48, [4, 2, 0x64]), (11 * blockSize, [3, 1, 0x78]),
    (12 * blockSize, [5, 1, 0x68])].foldl
    (fun f p => patch f p.1 (p.2.flatMap bytes32)) fun _ => 0

theorem mounted_fileImage {st : Efs}
    (h : efsMount fileImage 0 (fun _ => 0) (fun _ => 0) (fun _ _ => 0) = .ok st) : st.Mounted :=
  ⟨_, _, _, _, _, by decide +kernel, h⟩

/-- The nodes of the image after mount; `h` is on the disk only. -/
def imageNodes : List Node :=
  [.mem 0, .mem 1, .mem 2, .mem 3, .disk (5, 1, 0x68 :: List.replicate 15 0)]

/-- What is evaluated for a node: the inode, and the one block of the file of a directory. -/
def Efs.nodeCheck (st : Efs) (x : Node) : Bool :=
  decide (∀ y ∈ st.kids x, y ∈ imageNodes) &&
  (decide (0 < (st.label x).1.toInt ∧ (hashFindInode st (st.label x).1 = none →
    (DInode.read st.disk (inodeAddr st.sb.ds (st.label x).1)).no = (st.label x).1)) &&
  (decide ((st.inodeOf (st.label x).1).di.nlink = 1 ∧ (st.IsDir x →
    (st.inodeOf (st.label x).1).di.size.toNat ≤ blockSize ∧
      (st.inodeOf (st.label x).1).block st.disk 0 ≠ 0)) &&
  match x with
  | .mem d => decide (((st.dentry d).inode = none ∨
      (st.dentry d).inode = hashFindInode st (st.dentry d).dd.ino) ∧
        ((st.dentry d).filled = true ∨ (st.dentry d).child = []))
  | .disk _ => true))

section Image

variable {st : Efs} {x : Node}

private theorem mem_imageNodes (h : ∀ x ∈ imageNodes, st.nodeCheck x = true) (hx : st.InTree x) :
    x ∈ imageNodes := by
  induction hx with
  | root => exact List.mem_cons_self
  | @kid x y _ hy ih =>
    have hcheck := h x ih
    rw [Efs.nodeCheck.eq_def, Bool.and_eq_true] at hcheck
    exact of_decide_eq_true hcheck.1 y hy

private theorem nodeOk_of_nodeCheck (h : st.nodeCheck x = true) : NodeOk st x := by
  rw [Efs.nodeCheck.eq_def, Bool.and_eq_true, Bool.and_eq_true, Bool.and_eq_true] at h
  obtain ⟨hnumber, hrecord⟩ := of_decide_eq_true h.2.1
  obtain ⟨hnlink, hblock⟩ := of_decide_eq_true h.2.2.1
  refine ⟨hnumber, hrecord, hnlink, fun hdir => ?_⟩
  obtain ⟨hsize, hne⟩ := hblock hdir
  have hholes : st.NoHoles (st.label x).1 := by
    intro l hl
    obtain rfl : l = 0 := by
      simp only [blockSize] at hl hsize
      omega
    exact hne
  cases x with
  | mem d => exact fun _ => hholes
  | disk e => exact hholes

private theorem consistent_of_nodeCheck (hwf : st.Wf) (hrefs : st.refs = Pi.single 0 1)
    (hroot : (st.dentry 0).dd.ino = 1) (h : ∀ x ∈ imageNodes, st.nodeCheck x = true) :
    st.Consistent := by
  have hmem (d : ℕ) (hd : st.InTree (.mem d)) : ((st.dentry d).inode = none ∨
      (st.dentry d).inode = hashFindInode st (st.dentry d).dd.ino) ∧
        ((st.dentry d).filled = true ∨ (st.dentry d).child = []) := by
    have hcheck := h _ (mem_imageNodes h hd)
    rw [Efs.nodeCheck, Bool.and_eq_true, Bool.and_eq_true, Bool.and_eq_true] at hcheck
    exact of_decide_eq_true hcheck.2.2.2
  refine ⟨hwf, fun i => ?_, hroot, fun x hx => nodeOk_of_nodeCheck (h x (mem_imageNodes h hx)),
    fun d hd i hi => ?_, fun d hd hfilled => ?_⟩
  · rw [hrefs]
    by_cases hi : i = 0
    · subst hi
      rw [Pi.single_eq_same]
      decide
    · rw [Pi.single_eq_of_ne hi]
      decide
  · rcases (hmem d hd).1 with hnone | hfind
    · rw [hnone] at hi
      cases hi
    · rw [← hfind, hi]
  · exact (hmem d hd).2.resolve_left (by rw [hfilled]; exact Bool.false_ne_true)

/-- The image can be mounted, and the file system is consistent. The path `/d/h` names a file on the
disk, and the path `/f/x` names nothing, but an entry is found. -/
private theorem exists_imageMounted : ∃ st : Efs, st.Mounted ∧ st.Consistent ∧
    chars (st.dentry 0).dd.name dirMaxlen = [slash] ∧
    (cachedAs st (pathOf true [[0x64], [0x68]]) = none ∧ (st.dentry 3).filled = false ∧
      st.lookup (.mem 0) [[0x64], [0x68]] =
        some (.disk (5, 1, 0x68 :: List.replicate 15 0))) ∧
    cachedAs st (pathOf false [[0x66], [0x78]]) = none ∧
      st.lookup (.mem 0) [[0x66], [0x78]] = none ∧
        ∃ st₁, efsDNamed st (pathOf false [[0x66], [0x78]]) = .ok (some 4, st₁) := by
  have heval : (efsMount fileImage 0 (fun _ => 0) (fun _ => 0) fun _ _ => 0).toOption.map
      (fun st => decide (∀ x ∈ imageNodes, st.nodeCheck x = true) &&
        (decide ((st.dentry 0).dd.ino = 1 ∧
          chars (st.dentry 0).dd.name dirMaxlen = [slash]) &&
        (decide (cachedAs st (pathOf true [[0x64], [0x68]]) = none ∧
          (st.dentry 3).filled = false ∧ st.lookup (.mem 0) [[0x64], [0x68]] =
            some (.disk (5, 1, 0x68 :: List.replicate 15 0))) &&
        decide (cachedAs st (pathOf false [[0x66], [0x78]]) = none ∧
          st.lookup (.mem 0) [[0x66], [0x78]] = none ∧
          (efsDNamed st (pathOf false [[0x66], [0x78]])).toOption.map Prod.fst =
            some (some 4))))) = some true := by
    decide +kernel
  obtain ⟨st, hmount, hst⟩ := exists_of_map_toOption heval
  rw [Bool.and_eq_true, Bool.and_eq_true, Bool.and_eq_true] at hst
  obtain ⟨hnodes, hroot, hdir, hfile⟩ := hst
  obtain ⟨hino, hname⟩ := of_decide_eq_true hroot
  obtain ⟨hcached, hnone, hstray⟩ := of_decide_eq_true hfile
  obtain ⟨⟨_, st₁⟩, hst₁, rfl⟩ := exists_of_map_toOption hstray
  have hmounted := mounted_fileImage hmount
  obtain ⟨hwf, hrefs⟩ := hmounted.wf_refs
  exact ⟨st, hmounted, consistent_of_nodeCheck hwf hrefs hino (of_decide_eq_true hnodes), hname,
    of_decide_eq_true hdir, hcached, hnone, st₁, hst₁⟩

/-- The directory `d` is read from the disk on the way to `h`. -/
theorem efsDNamed_resolves_nested : ∃ st : Efs, st.Mounted ∧ (st.dentry 3).filled = false ∧
    ∃ d st₁, efsDNamed st (pathOf true [[0x64], [0x68]]) = .ok (some d, st₁) ∧
      (st₁.dentry d).dd.ino = 5 ∧ Unchanged st st₁ := by
  obtain ⟨st, hmounted, hst, hroot, ⟨hcached, hfilled, hlookup⟩, -⟩ := exists_imageMounted
  have hcs : ∀ c ∈ [[(0x64 : BitVec 8)], [0x68]], IsComponent c := by
    intro c hc
    rcases List.mem_cons.1 hc with rfl | hc
    · exact ⟨by decide, by decide, by decide⟩
    · rw [List.mem_singleton.1 hc]
      exact ⟨by decide, by decide, by decide⟩
  have hlen : (pathOf true [[0x64], [0x68]]).length ≤ maxPathLen := by decide
  obtain ⟨r, st₁, hnamed, hsame, -, hlabel⟩ := efsDNamed_resolves hst hroot hcs hlen
    (by rw [hcached]; rintro d ⟨⟩) (not_strays_of_lookup hlookup)
  rw [hlookup] at hlabel
  obtain ⟨d, rfl, hd⟩ := Option.map_eq_some_iff.1 hlabel
  exact ⟨st, hmounted, hfilled, d, st₁, hnamed, congrArg Prod.fst hd, hsame⟩

/-- The path `/f/x` names nothing, as `f` is a regular file, but an entry is found. -/
theorem exists_lookup_in_file : ∃ st : Efs, st.Mounted ∧ st.Consistent ∧
    chars (st.dentry 0).dd.name dirMaxlen = [slash] ∧
    cachedAs st (pathOf false [[0x66], [0x78]]) = none ∧
      st.lookup (.mem 0) [[0x66], [0x78]] = none ∧
        ∃ d st₁, efsDNamed st (pathOf false [[0x66], [0x78]]) = .ok (some d, st₁) := by
  obtain ⟨st, hmounted, hst, hroot, -, hcached, hnone, st₁, hstray⟩ := exists_imageMounted
  exact ⟨st, hmounted, hst, hroot, hcached, hnone, 4, st₁, hstray⟩

end Image

end RiscvLab.Fs
