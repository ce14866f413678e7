import RiscvLab.Fs.InodeRuns

/-!
# The directories on the disk after write-back

When the passes of `efs_sync` have emptied `s_idirty_list` and `s_ddirty_list`, `efs_d_fill` reads
for each directory the entries that it has in memory. `efs_d_rename` breaks this: it changes the
name in memory and does not put the directory on `s_ddirty_list`, so that the old name stays on the
disk unless the directory was on the list anyway. The conditions of the records are needed too,
since the size and the blocks of a directory are read from its record.

## Main definitions

* `DirsWritten` : the property.
* `View.Stored` : a file holds a sequence of bytes.
* `DirsOk` : the directory of an entry that is renamed is on `s_ddirty_list`.

## Main results

* `View.Stored.rounds` : the loop of `efs_i_write` adds to what is stored.
* `View.Dirs.step` : the entries of a directory that is not on the list are in its file.
* `dirsWritten_of_reachable`

Source: `fs/easyfs/dentry.c`, lines 96–136 and 268–380; `fs/easyfs/super.c`, lines 89–170.
-/

namespace RiscvLab.Fs

open Library Relation

/-- The file system as if the entry `d` had not been read and no inode were in memory. -/
def Efs.forget (st : Efs) (d : ℕ) : Efs :=
  { st with
    ihash := fun _ => []
    dentry := Function.update st.dentry d
      { st.dentry d with inode := none, child := [], filled := false } }

theorem Efs.forget_dentry_self (st : Efs) (d : ℕ) : (st.forget d).dentry d =
    { st.dentry d with inode := none, child := [], filled := false } := Function.update_self ..

/-- From the disk, `efs_d_fill` reads the entries that a directory has in memory. -/
def DirsWritten (st : Efs) : Prop :=
  ∀ d, Live st d → (st.dentry d).dd.type = .fDir →
    ∃ st', efsDFill (st.forget d) d = .ok st' ∧ st'.entries d = st.entries d

namespace View

variable {v v' v₀ : View} {i j k l l' s e o d p pi : ℕ} {data src : List (BitVec 8)}

/-! ### The blocks of a file -/

/-- The slot of the block `l` of a file. -/
def blockSlot (l : ℕ) : Option Slot :=
  if h : l < nDirect then some (.addr ⟨l, Nat.lt_succ_of_lt h⟩)
  else if h : l - nDirect < nIndirect then some (.entry ⟨l - nDirect, h⟩)
  else none

theorem block_eq : v.block i l = (blockSlot l).elim 0 (v.slot i) := by
  by_cases hd : l < nDirect
  · rw [block, blockSlot, if_pos hd, dif_pos hd]
    rfl
  · by_cases hl : l - nDirect < nIndirect
    · rw [block, blockSlot, if_neg hd, if_pos (by omega), dif_neg hd, dif_pos hl]
      rfl
    · rw [block, blockSlot, if_neg hd, if_neg (by omega), dif_neg hd, dif_neg hl]
      rfl

theorem blockSlot_inj {t : Slot} (h : blockSlot l = some t) (h' : blockSlot l' = some t) :
    l = l' := by
  rw [← h'] at h
  unfold blockSlot at h
  split_ifs at h with hd hd' hl' hl hd' hl' hd' hl'
  · simpa using h
  · simp at h
  · simp at h
  · have heq : l - nDirect = l' - nDirect := by simpa using h
    omega
  · rw [blockSlot, dif_neg hd', dif_neg hl'] at h'
    cases h'

theorem blockSlot_ne_pageSlot {t : Slot} (h : blockSlot l = some t) : t ≠ pageSlot := by
  unfold blockSlot at h
  split_ifs at h with hd hl <;> cases h
  · intro heq
    cases heq
    exact absurd hd (lt_irrefl _)
  · exact Slot.noConfusion

theorem exists_slot_of_block (hne : v.block i l ≠ 0) :
    ∃ t, blockSlot l = some t ∧ ∀ (w : View) (j : ℕ), w.block j l = w.slot j t := by
  cases ht : blockSlot l with
  | none =>
    rw [block_eq, ht] at hne
    exact absurd rfl hne
  | some t => exact ⟨t, rfl, fun w j => by rw [block_eq, ht]; rfl⟩

theorem Owned.block_inj (h : v.Owned) (hi : v.LiveInode i) (hj : v.LiveInode j)
    (hne : v.block i l ≠ 0) (heq : v.block i l = v.block j l') : i = j ∧ l = l' := by
  obtain ⟨t, ht, hslot⟩ := exists_slot_of_block hne
  obtain ⟨t', ht', hslot'⟩ := exists_slot_of_block (heq ▸ hne)
  rw [hslot] at hne heq
  rw [hslot'] at heq
  obtain ⟨hij, rfl⟩ := h.unique i j t t' hi hj hne heq
  exact ⟨hij, blockSlot_inj ht ht'⟩

theorem slot_of_mapSteps {t : Slot} (h : ReflTransGen (MapStep i s e) v v')
    (hne : v.slot j t ≠ 0) : v'.slot j t = v.slot j t := by
  induction h with
  | refl => rfl
  | tail _ hstep ih =>
    rw [← ih]
    exact hstep.slot (by rwa [ih])

theorem block_of_mapSteps (h : ReflTransGen (MapStep i s e) v v') (hne : v.block j l ≠ 0) :
    v'.block j l = v.block j l := by
  obtain ⟨t, -, hslot⟩ := exists_slot_of_block hne
  rw [hslot] at hne ⊢
  rw [hslot]
  exact slot_of_mapSteps h hne

/-- A write leaves the blocks of the other inodes alone. -/
theorem Along.disk_of_ne {t : Slot} (h : Along v₀ i s v) (hi : v.LiveInode i) (hj : v.LiveInode j)
    (hji : j ≠ i) (hne : v.slot j t ≠ 0) (hk : k < blockSize) :
    v.disk ((v.slot j t).toNat * blockSize + k) = v₀.disk ((v.slot j t).toNat * blockSize + k) :=
  h.disk _ (fun t' _ heq => hji (h.owned.unique j i t t' hj hi hne heq.symm).1) k hk

/-! ### What a file holds -/

/-- The file of the inode `i` starts with `data`. -/
structure Stored (v : View) (i : ℕ) (data : List (BitVec 8)) : Prop where
  mapped : ∀ x < data.length, v.block i (x / blockSize) ≠ 0
  bytes : ∀ x (hx : x < data.length),
    v.disk ((v.block i (x / blockSize)).toNat * blockSize + x % blockSize) = data[x]

theorem stored_nil : v.Stored i [] := ⟨fun _ hx => absurd hx (Nat.not_lt_zero _), by simp⟩

/-- The blocks of the file stay in their places and keep their contents. -/
theorem Stored.transfer (h : v.Stored i data)
    (hblock : ∀ l, v.block i l ≠ 0 → v'.block i l = v.block i l ∧ ∀ k < blockSize,
      v'.disk ((v.block i l).toNat * blockSize + k) =
        v.disk ((v.block i l).toNat * blockSize + k)) :
    v'.Stored i data := by
  refine ⟨fun x hx => ?_, fun x hx => ?_⟩
  · rw [(hblock _ (h.mapped x hx)).1]
    exact h.mapped x hx
  · obtain ⟨hsame, hdisk⟩ := hblock _ (h.mapped x hx)
    rw [hsame, hdisk _ (Nat.mod_lt _ (by decide))]
    exact h.bytes x hx

/-- The bytes `part` are written behind `data`, to one block. -/
theorem Stored.append {part : List (BitVec 8)} (h : v.Stored i data) (howned : v.Owned)
    (hi : v.LiveInode i) (hne : v.block i (data.length / blockSize) ≠ 0)
    (hlen : data.length % blockSize + part.length ≤ blockSize) :
    { v with
      disk := patch v.disk ((v.block i (data.length / blockSize)).toNat * blockSize +
        data.length % blockSize) part }.Stored i (data ++ part) := by
  have hdiv (x : ℕ) (hge : data.length ≤ x) (hlt : x < data.length + part.length) :
      x / blockSize = data.length / blockSize ∧
        x % blockSize = data.length % blockSize + (x - data.length) := by
    simp only [blockSize] at hlen ⊢
    omega
  have hmod (x : ℕ) : x % blockSize < blockSize := Nat.mod_lt _ (by decide)
  refine ⟨fun x hx => ?_, fun x hx => ?_⟩
  · rw [List.length_append] at hx
    rcases Nat.lt_or_ge x data.length with hlt | hge
    · exact h.mapped x hlt
    · rw [(hdiv x hge hx).1]
      exact hne
  · rcases Nat.lt_or_ge x data.length with hlt | hge
    · rw [List.getElem_append_left hlt, ← h.bytes x hlt]
      by_cases hl : x / blockSize = data.length / blockSize
      · have hle : x % blockSize < data.length % blockSize := by
          simp only [blockSize] at hl ⊢
          omega
        exact patch_of_lt (by rw [← hl]; exact Nat.add_lt_add_left hle _)
      · refine patch_of_block_ne (fun heq => hl ?_) hlen (hmod x)
        exact (howned.block_inj hi hi (h.mapped x hlt) heq).2
    · rw [List.length_append] at hx
      obtain ⟨hl, hx'⟩ := hdiv x hge hx
      rw [List.getElem_append_right hge]
      change patch v.disk _ part ((v.block i (x / blockSize)).toNat * blockSize + _) = _
      rw [hl, hx', patch_of_mem (by omega) (by omega)]
      congr 1
      omega

/-- The loop of `efs_i_write` behind `data`. It does not stop, since it gets no block zero, and a
block that it takes is no block of `data`: the file is `data` and what has been written. -/
theorem Stored.rounds (hrounds : Rounds i s e o src v v') (h : v.Stored i data)
    (ho : data.length = o) (halong : Along v₀ i s v) (hi : v.LiveInode i)
    (hzeros : v₀.TakesZeros i s e) : v'.Stored i (data ++ src) := by
  induction hrounds generalizing data with
  | done => rwa [List.append_nil]
  | stop hsteps hsteps₁ hzero =>
    obtain ⟨no, sb, halloc, hno⟩ := hzero
    exact absurd hno ((halong.steps hi hzeros hsteps₁).owned.guarded.alloc halloc).2.2.1
  | @round o part rest v v₁ v' hsteps hdisk hne hlen hrest ih =>
    subst ho
    have halong₁ := halong.steps hi hzeros hsteps
    have hi₁ : v₁.LiveInode i := (fileFrame_of_mapSteps hsteps).1.liveInode.2 hi
    have h₁ : v₁.Stored i data := by
      refine h.transfer fun l hl => ⟨block_of_mapSteps hsteps hl, fun k _ => ?_⟩
      rw [hdisk]
    have hput : MapStep i s e v₁ _ := .data hne (maps_block hne) hlen
    rw [← List.append_assoc]
    refine ih (h₁.append halong₁.owned hi₁ hne hlen) (List.length_append ..)
      (halong₁.step hi₁ hzeros hput) ?_
    exact hput.fileFrame.liveInode.2 hi₁

/-! ### What is not in its file is on the list -/

/-- The contents of the entries `ds`, as `efs_d_update` writes them. -/
def dirents (v : View) (ds : List ℕ) : List (BitVec 8) := ds.flatMap fun e => (v.entry e).dd.bytes

/-- The indirect block on the disk is the one in memory. -/
def Paged (v : View) (i : ℕ) : Prop :=
  ∀ blk, v.indir i = some blk → ∀ k < nIndirect, v.diskPage ((v.di i).addrs nDirect) k = blk k

/-- What runs keep of the files of directories. The directories in `X` are left out. -/
structure Dirs (X : Set ℕ) (v : View) : Prop where
  stored : ∀ d i, (v.tree dirSize).Linked d → v.find (v.ino d) = some i → d ∉ X →
    d ∈ v.ddirty ∨ v.Stored i (v.dirents (v.entry d).child)
  paged : ∀ i, v.LiveInode i → i ∈ v.idirty ∨ v.Paged i

/-- The indirect block of an inode that has been given up, and that is still to be written, is a
block of no live inode. -/
def Unclaimed (v : View) : Prop :=
  ∀ j ∈ v.idirty, ¬v.LiveInode j → (v.indir j).isSome → ∀ i t, v.LiveInode i →
    v.slot i t ≠ (v.di j).addrs nDirect

variable {X Y : Set ℕ}

theorem length_dirents (ds : List ℕ) : (v.dirents ds).length = ds.length * direntSize := by
  simp [dirents, List.length_flatMap]

theorem dirents_congr {ds : List ℕ} (h : ∀ e ∈ ds, (v'.entry e).dd = (v.entry e).dd) :
    v'.dirents ds = v.dirents ds := by
  induction ds with
  | nil => rfl
  | cons e ds ih =>
    have hrest := ih fun c hc => h c (List.mem_cons_of_mem _ hc)
    rw [dirents, dirents] at hrest ⊢
    rw [List.flatMap_cons, List.flatMap_cons, hrest, h e List.mem_cons_self]

/-- The inode `j` has its blocks in the same places. -/
theorem block_congr (haddrs : (v'.di j).addrs = (v.di j).addrs) (hindir : v'.indir j = v.indir j)
    (l : ℕ) : v'.block j l = v.block j l := by
  rw [block, block, haddrs, hindir]

theorem Paged.transfer (h : v.Paged j) (haddrs : (v'.di j).addrs = (v.di j).addrs)
    (hindir : v'.indir j = v.indir j)
    (hdisk : (v.indir j).isSome → ∀ k < blockSize,
      v'.disk (((v.di j).addrs nDirect).toNat * blockSize + k) =
        v.disk (((v.di j).addrs nDirect).toNat * blockSize + k)) : v'.Paged j := by
  intro blk hblk k hk
  rw [hindir] at hblk
  rw [← h blk hblk k hk, diskPage, diskPage, haddrs]
  refine word32_congr fun m hm => ?_
  simp only [Nat.add_assoc]
  refine hdisk (Option.isSome_of_mem hblk) _ ?_
  simp only [nIndirect, blockSize] at hk ⊢
  omega

/-! ### The calls -/

/-- The calls do not change the disk, and a directory that they change is on the list. -/
theorem Dirs.congr (h : Dirs X v) (hdisk : v'.disk = v.disk) (hddirty : v.ddirty ⊆ v'.ddirty)
    (hidirty : v.idirty ⊆ v'.idirty)
    (hdir : ∀ e j, (v'.tree dirSize).Linked e → v'.find (v'.ino e) = some j →
      (v'.entry e).child = [] ∨ e ∈ v'.ddirty ∨ (v.tree dirSize).Linked e ∧
        v.find (v.ino e) = some j ∧
          v'.dirents (v'.entry e).child = v.dirents (v.entry e).child)
    (hnew : ∀ j, v'.LiveInode j → v.LiveInode j ∨ v'.indir j = none)
    (hold : ∀ j, v'.LiveInode j → v.LiveInode j →
      (v'.di j).addrs = (v.di j).addrs ∧ v'.indir j = v.indir j) : Dirs X v' := by
  refine ⟨fun e j he hf hX => ?_, fun j hj => ?_⟩
  · rcases hdir e j he hf with hnil | hmem | ⟨he', hf', hdirents⟩
    · rw [hnil]
      exact .inr stored_nil
    · exact .inl hmem
    · obtain ⟨haddrs, hindir⟩ := hold j ⟨e, he, hf⟩ ⟨e, he', hf'⟩
      refine (h.stored e j he' hf' hX).imp (@hddirty e) fun hstored => ?_
      rw [hdirents]
      refine hstored.transfer fun l _ => ⟨block_congr haddrs hindir l, fun _ _ => ?_⟩
      rw [hdisk]
  · rcases hnew j hj with hj' | hnone
    · obtain ⟨haddrs, hindir⟩ := hold j hj hj'
      refine (h.paged j hj').imp (@hidirty j) fun hpaged => ?_
      refine hpaged.transfer haddrs hindir fun _ _ _ => ?_
      rw [hdisk]
    · refine .inr fun blk hblk => ?_
      rw [hnone] at hblk
      cases hblk

/-- Only entries have changed, and the directories that have are on the list. -/
theorem Dirs.setEntry {entry : ℕ → Dentry} (h : Dirs X v)
    (hsame : v.Same { v with entry := entry })
    (hdirents : ∀ e, (v.tree dirSize).Linked e → e ∈ v.ddirty ∨
      { v with entry := entry }.dirents (entry e).child = v.dirents (v.entry e).child) :
    Dirs X { v with entry := entry } := by
  refine h.congr rfl (List.Subset.refl _) (List.Subset.refl _) (fun e j he hf => ?_)
    (fun j hj => .inl (hsame.liveInode hj)) fun _ _ _ => ⟨rfl, rfl⟩
  have he' := hsame.linked e he
  rw [hsame.find, hsame.ino] at hf
  exact .inr ((hdirents e he').imp_right fun heq => ⟨he', hf, heq⟩)

theorem Dirs.load {full : Bool} (h : Dirs X v) : Dirs X (v.load d i full) := by
  refine h.setEntry same_load fun e _ => .inr ?_
  have hchild : ((v.load d i full).entry e).child = (v.entry e).child := (load_entry full e).2.1
  change (v.load d i full).dirents ((v.load d i full).entry e).child = _
  rw [hchild]
  exact dirents_congr fun c _ => (load_entry full c).1

theorem Dirs.renames (h : Dirs X v) (hs : v.Sane) (hren : v.Renames d v')
    (hlisted : ∀ p, (v.entry d).parent = some p → p ∈ v.ddirty) : Dirs X v' := by
  have hsame := same_of_renames hren
  cases hren with
  | same => exact h
  | @rename i p name hf hp hd hname =>
    refine h.setEntry hsame fun e he => ?_
    by_cases hep : e = p
    · subst hep
      exact .inl (hlisted e (hs.tree.parent e hp d hd))
    · refine .inr ?_
      change ((v.load d i false).rename d name).dirents
        (((v.load d i false).rename d name).entry e).child = _
      rw [(rename_entry e).2.1]
      refine dirents_congr fun c hc => (rename_entry c).2.2.trans (if_neg ?_)
      -- an entry is in one directory only
      rintro rfl
      have hparent := hs.tree.parent e (hs.tree.lt_dentries he) c hc
      rw [hs.tree.parent p hp c hd] at hparent
      exact hep (Option.some.inj hparent).symm

theorem Dirs.create {sb : Super} {type : FileType} {name : ℕ → BitVec 8} (h : Dirs X v)
    (hc : v.Enters p pi k sb) : Dirs X (v.create p pi k sb type name) := by
  have hI := hc.sane.tree
  refine h.congr rfl (fun e he => List.mem_insert_of_mem he)
    (fun j hj => mem_idirty_create.2 (.inr hj)) (fun e j he hf => ?_) (fun j hj => ?_)
    fun j _ hj => ?_
  · obtain ⟨he, hf⟩ | ⟨rfl, -⟩ := hc.cases he hf
    · have helt : e < v.dentries := hI.lt_dentries he
      by_cases hep : e = p
      · subst hep
        exact .inr (.inl (List.mem_insert_self ..))
      · refine .inr (.inr ⟨he, hf, ?_⟩)
        have hchild : ((v.create p pi k sb type name).entry e).child = (v.entry e).child := by
          rw [entry_create helt]
          exact if_neg hep
        rw [hchild]
        refine dirents_congr fun c hc => ?_
        rw [entry_create (hI.lt e helt c hc).1]
    · exact .inl (by rw [entry_create_new hc.lt])
  · rcases hc.liveInode.1 hj with hj | rfl
    · exact .inl hj
    · exact .inr (by rw [indir_create, if_pos rfl])
  · have hne : j ≠ v.inodes := (hj.lt hI).ne
    rw [addrs_create, indir_create, if_neg hne, if_neg hne]
    exact ⟨rfl, rfl⟩

theorem Dirs.creates {type : FileType} (h : Dirs X v) (hs : v.Sane)
    (hd : (v.tree dirSize).Linked d) (hcr : v.Creates d type v') : Dirs X v' := by
  obtain rfl | ⟨pi, hf, rfl | ⟨k, sb, name, hc, rfl⟩⟩ := hcr.cases hs hd
  · exact h
  · exact h.load
  · exact h.load.create hc

theorem Dirs.release {sb : Super} (h : Dirs X v) :
    Dirs X ((v.release i sb).remove d p pi) := by
  have hsame : v.Same ((v.release i sb).remove d p pi) := same_released
  refine h.congr rfl (fun e he => List.mem_insert_of_mem he)
    (fun j hj => mem_idirty_release.2 (.inr hj)) (fun e j he hf => ?_)
    (fun j hj => .inl (hsame.liveInode hj)) fun j _ _ => ⟨addrs_release j, rfl⟩
  by_cases hep : e = p
  · subst hep
    exact .inr (.inl (List.mem_insert_self ..))
  · rw [hsame.find, hsame.ino] at hf
    have hentry : ((v.release i sb).remove d p pi).entry e = v.entry e :=
      Function.update_of_ne hep ..
    refine .inr (.inr ⟨hsame.linked e he, hf, ?_⟩)
    rw [hentry]
    refine dirents_congr fun c _ => ?_
    by_cases hcp : c = p
    · subst hcp
      simp [View.remove, View.release, modEntry, modDi, View.iSdirty, View.dSdirty]
    · simp [View.remove, View.release, modEntry, modDi, View.iSdirty, View.dSdirty, hcp]

theorem Dirs.removes (h : Dirs X v) (hs : v.Sane) (hd : (v.tree dirSize).Linked d)
    (hrem : v.Removes d v') : Dirs X v' := by
  obtain rfl | ⟨i, full, hf, rfl | ⟨p, pi, sb, sb', hr, rfl⟩⟩ := hrem.cases hs hd
  · exact h
  · exact h.load
  · exact h.load.release

/-! ### Inodes that have been given up -/

theorem Unclaimed.setEntry {entry : ℕ → Dentry} (h : v.Unclaimed)
    (hsame : v.Same { v with entry := entry })
    (hlive : ∀ j, v.LiveInode j → { v with entry := entry }.LiveInode j) :
    { v with entry := entry }.Unclaimed :=
  fun j hj hdead hsome i t hi => h j hj (fun hlive' => hdead (hlive j hlive')) hsome i t
    (hsame.liveInode hi)

theorem Unclaimed.load {full : Bool} (h : v.Unclaimed) : (v.load d i full).Unclaimed :=
  h.setEntry same_load fun _ => same_load.liveInode_of fun _ he => Tree.linked_load.2 he

theorem Unclaimed.renames (h : v.Unclaimed) (hren : v.Renames d v') : v'.Unclaimed := by
  have hsame := same_of_renames hren
  have hlive (j : ℕ) (hj : v.LiveInode j) : v'.LiveInode j := liveInode_of_renames hren hj
  cases hren with
  | same => exact h
  | rename hf hp hd hname => exact h.setEntry hsame hlive

theorem Unclaimed.create {sb : Super} {type : FileType} {name : ℕ → BitVec 8} (h : v.Unclaimed)
    (hrec : Records Y v) (hc : v.Enters p pi k sb) :
    (v.create p pi k sb type name).Unclaimed := by
  have hlive (j : ℕ) : (v.create p pi k sb type name).LiveInode j ↔
      v.LiveInode j ∨ j = v.inodes := hc.liveInode
  intro j hj hdead hsome i t hi
  have hji : j ≠ v.inodes := fun hji => hdead ((hlive j).2 (.inr hji))
  have hj' : j ∈ v.idirty := (mem_idirty_create.1 hj).resolve_left hji
  rw [indir_create, if_neg hji] at hsome
  rw [slot_create, addrs_create, if_neg hji]
  rcases (hlive i).1 hi with hi' | rfl
  · rw [if_neg (hi'.lt hc.sane.tree).ne]
    exact h j hj' (fun hlive' => hdead ((hlive j).2 (.inl hlive'))) hsome i t hi'
  · rw [if_pos rfl]
    intro hzero
    have hpage := hrec.page j hj' hsome
    rw [← hzero] at hpage
    exact absurd hpage (Nat.not_le.2 hrec.arranged.laid.area_pos)

theorem Unclaimed.creates {type : FileType} (h : v.Unclaimed) (hrec : Records Y v) (hs : v.Sane)
    (hd : (v.tree dirSize).Linked d) (hcr : v.Creates d type v') : v'.Unclaimed := by
  obtain rfl | ⟨pi, hf, rfl | ⟨k, sb, name, hc, rfl⟩⟩ := hcr.cases hs hd
  · exact h
  · exact h.load
  · exact h.load.create (hrec.load hs hf) hc

/-- The blocks of the inode that is given up were blocks of no other one. -/
theorem Unclaimed.release {sb sb' : Super} (h : v.Unclaimed) (howned : v.Owned)
    (hr : v.Releases d i p pi sb sb') : ((v.release i sb').remove d p pi).Unclaimed := by
  have hslot (j : ℕ) (t : Slot) : ((v.release i sb').remove d p pi).slot j t = v.slot j t := by
    cases t with
    | addr k => exact congrFun (addrs_release j) k
    | entry k => rfl
  intro j hj hdead hsome a t ha
  obtain ⟨ha', hai⟩ := hr.liveInode.1 ha
  rw [hslot, addrs_release]
  by_cases hji : j = i
  · subst hji
    intro heq
    have hne : v.slot j pageSlot ≠ 0 := howned.page_ne hr.live hsome
    exact hai (howned.unique j a pageSlot t hr.live ha' hne heq.symm).1.symm
  · exact h j ((mem_idirty_release.1 hj).resolve_left hji)
      (fun hlive => hdead (hr.liveInode.2 ⟨hlive, hji⟩)) hsome a t ha'

theorem Unclaimed.removes (h : v.Unclaimed) (hs : v.Sane) (howned : v.Owned)
    (hd : (v.tree dirSize).Linked d) (hrem : v.Removes d v') : v'.Unclaimed := by
  obtain rfl | ⟨i, full, hf, rfl | ⟨p, pi, sb, sb', hr, rfl⟩⟩ := hrem.cases hs hd
  · exact h
  · exact h.load
  · exact h.load.release howned.load hr

/-! ### Writing the inodes -/

/-- The disk changes outside of the blocks of the files, but for the indirect blocks of inodes that
were on the list. -/
theorem Dirs.setDisk {disk : Disk} {sb : Super} {l : List ℕ} (h : Dirs X v) (howned : v.Owned)
    (hdisk : ∀ j t, v.LiveInode j → v.slot j t ≠ 0 → t ≠ pageSlot ∨ j ∉ v.idirty →
      ∀ k < blockSize, disk ((v.slot j t).toNat * blockSize + k) =
        v.disk ((v.slot j t).toNat * blockSize + k))
    (hpaged : ∀ j ∈ v.idirty, v.LiveInode j →
      j ∈ l ∨ { v with disk := disk, sb := sb, idirty := l }.Paged j) :
    Dirs X { v with disk := disk, sb := sb, idirty := l } := by
  refine ⟨fun d i hd hf hX => ?_, fun j hj => ?_⟩
  · refine (h.stored d i hd hf hX).imp_right fun hstored => hstored.transfer fun l hl => ?_
    refine ⟨rfl, fun k hk => ?_⟩
    obtain ⟨t, ht, hslot⟩ := exists_slot_of_block hl
    rw [hslot] at hl ⊢
    exact hdisk i t ⟨d, hd, hf⟩ hl (.inl (blockSlot_ne_pageSlot ht)) k hk
  · by_cases hmem : j ∈ v.idirty
    · exact hpaged j hmem hj
    · refine .inr (((h.paged j hj).resolve_left hmem).transfer rfl rfl fun hsome k hk => ?_)
      exact hdisk j pageSlot hj (howned.page_ne hj hsome) (.inr hmem) k hk

theorem Dirs.inodeStep (h : Dirs X v) (hun : v.Unclaimed) (howned : v.Owned) (hrec : Records Y v)
    (hstep : InodeStep v v') : Dirs X v' ∧ v'.Unclaimed := by
  cases hstep with
  | @mk i l pad hlist hno =>
    have hi : i ∈ v.idirty := by
      rw [hlist]
      exact List.mem_cons_self
    refine ⟨h.setDisk howned (fun j t hj hne hjt k hk => ?_) fun j hmem hj => ?_, fun j hj => ?_⟩
    · refine hrec.arranged.updatedDisk_of_ne (hrec.number i (.inr hi)) (howned.area j t hj hne)
        (fun hsome heq => ?_) hk
      by_cases hlive : v.LiveInode i
      · obtain ⟨rfl, rfl⟩ := howned.unique j i t pageSlot hj hlive hne heq
        exact hjt.elim (fun hne => hne rfl) fun hmem => hmem hi
      · exact hun i hi hlive hsome j t hj heq
    · by_cases hji : j = i
      · subst hji
        refine .inr fun blk hblk k hk => ?_
        have hblk' : v.indir j = some blk := hblk
        have hk' : k < (pageWords blk).length := by
          rw [pageWords, List.length_map, List.length_range]
          exact hk
        change word32 (v.updatedDisk j pad) _ = _
        rw [updatedDisk, hblk']
        refine (word32_patch hk').trans ?_
        simp [pageWords]
      · rw [hlist] at hmem
        exact .inl ((List.mem_cons.1 hmem).resolve_left hji)
    · refine hun j ?_
      rw [hlist]
      exact List.mem_cons_of_mem _ hj

theorem Dirs.inodeSteps (h : Dirs X v) (hun : v.Unclaimed) (howned : v.Owned)
    (hrec : Records Y v) (hsteps : ReflTransGen InodeStep v v') : Dirs X v' := by
  have hboth : Dirs X v' ∧ v'.Unclaimed := by
    induction hsteps with
    | refl => exact ⟨h, hun⟩
    | tail hsteps hstep ih =>
      exact ih.1.inodeStep ih.2 (howned.inodeSteps hsteps) (hrec.inodeSteps hsteps) hstep
  exact hboth.1

/-! ### Writing the file of a directory -/

/-- A write to the file of the inode `i` leaves the other files alone. -/
theorem Dirs.writes (h : Dirs X v) (howned : v.Owned) (hi : v.LiveInode i)
    (hX : ∀ d, (v.tree dirSize).Linked d → v.find (v.ino d) = some i → d ∈ X)
    (hzeros : v.TakesZeros i s e) (hwrites : v.Writes i s e v') : Dirs X v' := by
  have hframe := hwrites.fileFrame
  cases hwrites with
  | rejected => exact h
  | @written v₁ size hsteps hsize =>
    obtain ⟨hframe₁, hidirty⟩ := fileFrame_of_mapSteps hsteps
    have halong := howned.along.steps hi hzeros hsteps
    have hdisk (j : ℕ) (t : Slot) (hj : v.LiveInode j) (hji : j ≠ i) (hne : v.slot j t ≠ 0)
        (k : ℕ) (hk : k < blockSize) : v₁.disk ((v.slot j t).toNat * blockSize + k) =
          v.disk ((v.slot j t).toNat * blockSize + k) := by
      have hslot := slot_of_mapSteps hsteps hne
      rw [← hslot] at hne ⊢
      exact halong.disk_of_ne (hframe₁.liveInode.2 hi) (hframe₁.liveInode.2 hj) hji hne hk
    refine ⟨fun d j hd hf hdX => ?_, fun j hj => ?_⟩
    · have hd' := hframe.same.linked d hd
      rw [hframe.same.find, hframe.same.ino] at hf
      have hji : j ≠ i := by
        rintro rfl
        exact hdX (hX d hd' hf)
      obtain ⟨hdi, hindir⟩ := hframe.other j hji
      rw [hframe.ddirty, hframe.entry, dirents_congr (v := v) fun _ _ => by rw [hframe.entry]]
      refine (h.stored d j hd' hf hdX).imp_right fun hstored => hstored.transfer fun l hl => ?_
      refine ⟨block_congr (by rw [hdi]) hindir l, fun k hk => ?_⟩
      obtain ⟨t, -, hslot⟩ := exists_slot_of_block hl
      rw [hslot] at hl ⊢
      exact hdisk j t ⟨d, hd', hf⟩ hji hl k hk
    · have hj' := hframe.liveInode.1 hj
      by_cases hji : j = i
      · exact .inl (List.mem_insert_iff.2 (.inl hji))
      · obtain ⟨hdi, hindir⟩ := hframe.other j hji
        refine (h.paged j hj').imp (fun hmem => ?_) fun hpaged => ?_
        · refine List.mem_insert_of_mem ?_
          rw [show (v₁.modDi i _).idirty = v.idirty from hidirty]
          exact hmem
        · exact hpaged.transfer (by rw [hdi]) hindir fun hsome k hk =>
            hdisk j pageSlot hj' hji (howned.page_ne hj' hsome) k hk

/-- While the file of the inode `i` is written, which is that of a directory in `X`, it starts with
`data`. The inodes that are to be written back are live. -/
structure Updating (X : Set ℕ) (i : ℕ) (data : List (BitVec 8)) (v : View) : Prop where
  owned : v.Owned
  dirs : Dirs X v
  live : ∀ j ∈ v.idirty, v.LiveInode j
  self : v.LiveInode i
  mem : ∀ d, (v.tree dirSize).Linked d → v.find (v.ino d) = some i → d ∈ X
  stored : v.Stored i data

end View

section Pass

variable {st st' : Efs} {X : Set ℕ} {i : ℕ} {data : List (BitVec 8)}

/-- The superblock and the bitmaps are written before the block area. -/
theorem disk_efsSyncSuper_of_ge {a : ℕ} (hlaid : Laid st.sb.ds)
    (hge : st.sb.ds.blockAreaStart.toNat * blockSize ≤ a) :
    (efsSyncSuper st).disk a = st.disk a := by
  have himap := hlaid.imap
  have hiarea := hlaid.iarea
  have hbmap := hlaid.bmap
  have hbarea := hlaid.barea
  obtain ⟨hinodes, hblocks⟩ := hlaid.counts
  have hle (n : ℕ) (hn : n ≤ st.sb.ds.blockAreaStart.toNat) : n * blockSize ≤ a :=
    (Nat.mul_le_mul_right _ hn).trans hge
  rw [efsSyncSuper]
  split
  · refine (writeWords_of_not (.inr ?_)).trans ((writeWords_of_not (.inr ?_)).trans ?_)
    · exact hle _ (by rw [hblocks]; omega)
    · exact hle _ (by rw [hinodes]; omega)
    · exact writeSuper_of_ge (hle _ (by omega))
  · rfl

theorem View.Dirs.syncSuper (h : st.view.Dirs X) (howned : st.view.Owned)
    (hlaid : Laid st.sb.ds) : (efsSyncSuper st).view.Dirs X := by
  have hdisk (a : ℕ) := @disk_efsSyncSuper_of_ge st a hlaid
  rw [view_efsSyncSuper]
  refine h.setDisk howned (fun j t hj hne _ k _ => hdisk _ ?_) fun j hmem _ => .inl hmem
  exact (Nat.mul_le_mul_right _ (howned.area j t hj hne)).trans (Nat.le_add_right ..)

/-- A call of `efs_i_write` at the end of `data`. -/
theorem View.Updating.efsIWrite {offset len : BitVec 32} {vaddr : ℕ → BitVec 8} {r : ℤ}
    (h : st.view.Updating X i data) (ho : data.length = offset.toNat)
    (hacc : ¬Rejected st i offset len) (hzeros : st.TakesZeros i offset len)
    (hwrite : efsIWrite st i offset len vaddr = .ok (r, st')) :
    st'.view.Updating X i (data ++ slice vaddr 0 len.toNat) := by
  have hwrites := writes_efsIWrite hwrite
  have hframe := hwrites.fileFrame
  obtain ⟨v₁, size, hrounds, -, hv⟩ := rounds_efsIWrite hacc hwrite
  have hidirty := (fileFrame_of_mapSteps hrounds.mapSteps).2
  refine
    { owned := h.owned.writes h.self (hzeros hacc) hwrites
      dirs := h.dirs.writes h.owned h.self h.mem (hzeros hacc) hwrites
      live := fun j hj => hframe.liveInode.2 ?_
      self := hframe.liveInode.2 h.self
      mem := fun d hd hf => ?_
      stored := ?_ }
  · rw [hv] at hj
    rcases List.mem_insert_iff.1 hj with rfl | hj
    · exact h.self
    · rw [show (v₁.modDi i _).idirty = st.view.idirty from hidirty] at hj
      exact h.live j hj
  · rw [hframe.same.find, hframe.same.ino] at hf
    exact h.mem d (hframe.same.linked d hd) hf
  · have hstored := h.stored.rounds hrounds ho h.owned.along h.self (hzeros hacc)
    have haddrs : (((v₁.modDi i fun x => { x with size := size }).iSdirty i).di i).addrs =
        (v₁.di i).addrs := modDi_congr (f := fun x => { x with size := size }) DInode.addrs rfl i
    rw [hv]
    exact hstored.transfer fun l _ => ⟨block_congr haddrs rfl l, fun _ _ => rfl⟩

/-- `efs_d_update` writes the entries one behind the other. -/
theorem View.Updating.efsDUpdateLoop {ds : List ℕ} {offset : ℕ} (h : st.view.Updating X i data)
    (ho : data.length = offset) (hmeets : UpdateMeets Efs.TakesZeros i ds offset st)
    (hsize : offset + ds.length * direntSize ≤ (st.view.di i).size.toNat)
    (hmax : (st.view.di i).size.toNat ≤ maxFileSize)
    (hloop : efsDUpdateLoop i ds offset st = .ok st') :
    st'.view.Updating X i (data ++ st.view.dirents ds) := by
  induction ds generalizing st offset data with
  | nil =>
    obtain rfl := Except.ok.inj hloop
    rw [dirents, List.flatMap_nil, List.append_nil]
    exact h
  | cons d ds ih =>
    rw [List.length_cons, Nat.add_mul, Nat.one_mul] at hsize
    rw [Fs.efsDUpdateLoop] at hloop
    obtain ⟨⟨r, st₁⟩, hwrite, hloop⟩ := bind_eq_ok.1 hloop
    have hmax' : maxFileSize < 2 ^ 32 := by decide
    have hoffset : (BitVec.ofNat 32 offset).toNat = offset := by
      rw [BitVec.toNat_ofNat, Nat.mod_eq_of_lt (by omega)]
    have hdirent : (BitVec.ofNat 32 direntSize).toNat = direntSize := rfl
    have hacc : ¬Rejected st i (BitVec.ofNat 32 offset) (BitVec.ofNat 32 direntSize) := by
      have hsize' : offset + (ds.length * direntSize + direntSize) ≤
        (st.inode i).di.size.toNat := hsize
      rw [Rejected, hoffset, hdirent]
      omega
    have h₁ := h.efsIWrite (ho.trans hoffset.symm) hacc hmeets.1 hwrite
    have hbytes := slice_getD (st.dentry d).dd.bytes 0
    rw [Dirent.length_bytes] at hbytes
    rw [hdirent, hbytes] at h₁
    have hwrites := writes_efsIWrite hwrite
    have hsame := hwrites.size_eq (by rw [hoffset, hdirent]; omega)
    have hlen : (data ++ (st.dentry d).dd.bytes).length = offset + direntSize := by
      rw [List.length_append, ho, Dirent.length_bytes]
    have hdone := ih h₁ hlen (hmeets.2 r st₁ hwrite) (by rw [hsame]; omega) (by rw [hsame]; omega)
      hloop
    rwa [dirents_congr (v := st.view) fun _ _ => by rw [hwrites.fileFrame.entry],
      List.append_assoc] at hdone

/-- The loop over `s_ddirty_list` writes the files of the directories on it. -/
theorem View.Dirs.syncDentries {l : List ℕ} (h : st.view.Dirs ∅) (hs : st.view.Sane)
    (howned : st.view.Owned) (hlive : ∀ j ∈ st.view.idirty, st.view.LiveInode j)
    (hl : st.ddirty = l) (hmeets : DentriesMeet Efs.TakesZeros l st)
    (hsync : efsSyncDentries l st = .ok st') :
    st'.view.Dirs ∅ ∧ ∀ j ∈ st'.view.idirty, st'.view.LiveInode j := by
  refine (efsSyncDentries_keeps (Q := fun v => v.Owned ∧ v.Dirs ∅ ∧ ∀ j ∈ v.idirty, v.LiveInode j)
    ?_ ?_ hs hl hmeets ⟨howned, h, hlive⟩ hsync).2
  · rintro v d l ⟨howned, h, hlive⟩ hl hchild
    refine ⟨howned.setDdirty, ⟨fun e i he hf hX => ?_, h.paged⟩, hlive⟩
    by_cases hed : e = d
    · subst hed
      refine .inr ?_
      change Stored _ i (v.dirents (v.entry e).child)
      rw [hchild]
      exact stored_nil
    · refine (h.stored e i he hf hX).imp (fun hmem => ?_) fun hstored => ⟨hstored.1, hstored.2⟩
      rw [hl] at hmem
      exact (List.mem_cons.1 hmem).resolve_left hed
  · rintro st st' d l i ⟨howned, h, hlive⟩ hs hl hi hchild hmeets hloop
    have hdlt := (hs.lists.head hl).1
    obtain ⟨hf, hlinked, hsize⟩ := hs.size_eq hdlt hchild hi
    have hstart : ({ st with ddirty := l } : Efs).view.Updating {d} i [] := by
      refine
        { owned := howned.setDdirty
          dirs := ⟨fun e j he hfe hX => ?_, h.paged⟩
          live := hlive
          self := hs.liveInode_of_ddirty hl hi hchild
          mem := fun e he hfe => hs.tree.eq_of_find he hlinked hfe hf
          stored := stored_nil }
      refine (h.stored e j he hfe (Set.notMem_empty e)).imp (fun hmem => ?_) fun hstored =>
        ⟨hstored.1, hstored.2⟩
      rw [show st.view.ddirty = d :: l from hl] at hmem
      exact (List.mem_cons.1 hmem).resolve_left hX
    have hmax := hs.length_child_le hdlt
    have hdone := hstart.efsDUpdateLoop List.length_nil hmeets
      (by rw [Nat.zero_add]; exact hsize.ge) (hsize.le.trans hmax) hloop
    have hframe := fileFrame_of_writes (writes_efsDUpdateLoop (e := maxFileSize)
      (by rw [Nat.zero_add]; exact hmax) hloop)
    refine ⟨hdone.owned, ⟨fun e j he hfe _ => ?_, hdone.dirs.paged⟩, hdone.live⟩
    by_cases hed : e = d
    · subst hed
      rw [hframe.same.find, hframe.same.ino] at hfe
      obtain rfl := Option.some.inj (hf.symm.trans hfe)
      refine .inr ?_
      rw [hframe.entry, dirents_congr (v := st.view) fun _ _ => by rw [hframe.entry]; rfl]
      exact hdone.stored
    · exact hdone.dirs.stored e j he hfe hed

end Pass

/-! ### Reading from the disk -/

theorem View.Sane.size_of_dir {v : View} {d i : ℕ} (h : v.Sane) (hd : (v.tree dirSize).Linked d)
    (hdir : (v.entry d).dd.type = .fDir) (hf : v.find (v.ino d) = some i) :
    (v.di i).size.toNat = (v.entry d).child.length * direntSize := by
  have hlt := h.tree.lt_dentries hd
  have hseen : dirSize (v.di i) = (v.di i).size := h.seesDirs d i hd hdir hf (v.di i) rfl
  by_cases hfilled : (v.entry d).filled = true
  · obtain ⟨j, hj, hsize⟩ := h.tree.sized d hlt hfilled
    obtain rfl := Option.some.inj (hf.symm.trans ((h.tree.cached d hlt j hj).2.1 hd))
    rw [← hseen, Nat.mul_comm]
    exact hsize
  · have hfilled' : (v.entry d).filled = false := Bool.eq_false_of_not_eq_true hfilled
    have hchild : (v.entry d).child = [] := h.tree.unfilled d hlt hfilled'
    obtain ⟨j, hj, hzero⟩ := h.tree.found d hd
    obtain rfl := Option.some.inj (hf.symm.trans hj)
    have hsize : dirSize (v.di i) = 0 := hzero hfilled'
    rw [hchild, ← hseen, hsize]
    rfl

section Reading

variable {st : Efs} {i d : ℕ} {ino : BitVec 32} {data : List (BitVec 8)}

/-- The blocks of an inode that is read are those of the inode in memory. -/
theorem block_read (howned : st.view.Owned) (hi : st.view.LiveInode i) (hpaged : st.view.Paged i)
    (hrec : Recorded st.disk st.sb.ds ino (st.inode i).di) (l : ℕ) :
    (MInode.mk (.read st.disk (inodeAddr st.sb.ds ino)) 0 false true none).block st.disk l =
      st.view.block i l := by
  have haddrs (k : ℕ) (hk : k < nDirect + 1) :
      (DInode.read st.disk (inodeAddr st.sb.ds ino)).addrs k = (st.view.di i).addrs k :=
    hrec.addrs hk
  have hpage := haddrs nDirect (Nat.lt_succ_self _)
  rw [MInode.block, View.block]
  by_cases hd : l < nDirect
  · rw [if_pos hd, if_pos hd]
    exact haddrs l (Nat.lt_succ_of_lt hd)
  rw [if_neg hd, if_neg hd]
  by_cases hl : l < nDirect + nIndirect
  · rw [if_pos hl]
    cases hindir : st.view.indir i with
    | none =>
      have hzero := (howned.loaded i hi).2 hindir
      rw [if_neg fun h => h.2 (hpage.trans hzero)]
      rfl
    | some blk =>
      have hne : (st.view.di i).addrs nDirect ≠ 0 :=
        howned.page_ne hi (Option.isSome_of_mem hindir)
      rw [if_pos ⟨hl, fun hzero => hne (hpage.symm.trans hzero)⟩]
      change word32 st.disk (((DInode.read st.disk (inodeAddr st.sb.ds ino)).addrs nDirect).toNat *
        blockSize + 4 * (l - nDirect)) = blk (l - nDirect)
      rw [hpage]
      exact hpaged blk hindir (l - nDirect) (by omega)
  · rw [if_neg hl, if_neg fun h => hl h.1]

/-- What a file holds is read through the inode on the disk. -/
theorem View.Stored.holds (h : st.view.Stored i data) (howned : st.view.Owned)
    (hi : st.view.LiveInode i) (hpaged : st.view.Paged i)
    (hrec : Recorded st.disk st.sb.ds ino (st.inode i).di)
    (hsize : (st.inode i).di.size.toNat = data.length) :
    Holds ((st.forget d).withInode ino) st.inodes 0 data := by
  have hinode : ((st.forget d).withInode ino).inode st.inodes =
      ⟨.read st.disk (inodeAddr st.sb.ds ino), 0, false, true, none⟩ := Function.update_self ..
  have hblock (l : ℕ) : ((st.forget d).withInode ino).block st.inodes l = st.view.block i l := by
    rw [Efs.block, hinode]
    exact block_read howned hi hpaged hrec l
  have hsize' : (((st.forget d).withInode ino).inode st.inodes).di.size.toNat = data.length := by
    rw [hinode, ← hsize, ← hrec.size]
    rfl
  refine ⟨fun l hl => ?_, ?_⟩
  · rw [hsize'] at hl
    rw [hblock]
    have hmapped := h.mapped _ hl
    rwa [Nat.mul_div_cancel _ (by decide)] at hmapped
  · rw [Nat.zero_mul, List.drop_zero, Efs.file, MInode.file, hsize']
    refine List.ext_getElem (length_slice ..) fun x _ hx => ?_
    rw [← h.bytes x hx, ← hblock]
    simp [slice, Efs.byte_eq]
    rfl

theorem hashFindInode_forget (hno : word32 st.disk (inodeAddr st.sb.ds ino) = ino) :
    hashFindInode ((st.forget d).withInode ino) ino = some st.inodes := by
  have hbucket : ((st.forget d).withInode ino).ihash (ino.toNat % buckets) = [st.inodes] :=
    Function.update_self ..
  have hinode : (((st.forget d).withInode ino).inode st.inodes).di.no = ino :=
    (congrArg (fun x : MInode => x.di.no) (Function.update_self ..)).trans hno
  rw [hashFindInode, hbucket]
  simp [hinode]

/-- `efs_d_fill` of an entry whose inode is not in memory. -/
theorem efsDFill_forget (hino : (st.dentry d).dd.ino = ino) (hpos : 0 < ino.toInt)
    (hno : word32 st.disk (inodeAddr st.sb.ds ino) = ino) :
    efsDFill (st.forget d) d = efsDFill ((st.forget d).withInode ino) d := by
  have hnone : hashFindInode (st.forget d) ino = none := rfl
  have hdd : ((st.forget d).dentry d).dd.ino = ino := by rw [st.forget_dentry_self, ← hino]
  have hdd' : (((st.forget d).withInode ino).dentry d).dd.ino = ino := hdd
  rw [efsDFill, efsDFill, hdd, hdd', efsIGet_of_none hnone hpos,
    efsIGet_of_find hpos.le (hashFindInode_forget hno)]
  rfl

/-- The entries in the file of a directory are read from the disk. -/
theorem exists_efsDFill_forget {dds : List Dirent}
    (hstored : st.view.Stored i (dds.flatMap Dirent.bytes)) (howned : st.view.Owned)
    (hi : st.view.LiveInode i) (hpaged : st.view.Paged i)
    (hrec : Recorded st.disk st.sb.ds ino (st.inode i).di) (hno : (st.inode i).di.no = ino)
    (hsize : (st.inode i).di.size.toNat = (dds.flatMap Dirent.bytes).length)
    (hd : d < st.dentries) (hino : (st.dentry d).dd.ino = ino) (hpos : 0 < ino.toInt) :
    ∃ st', efsDFill (st.forget d) d = .ok st' ∧ st'.entries d = dds.map Dirent.entry := by
  have hword := hrec.no.trans hno
  have hinode : ((st.forget d).withInode ino).inode st.inodes =
      ⟨.read st.disk (inodeAddr st.sb.ds ino), 0, false, true, none⟩ := Function.update_self ..
  have hdentry : ((st.forget d).withInode ino).dentry d =
      { st.dentry d with inode := none, child := [], filled := false } := st.forget_dentry_self d
  have hrefcnt : (((st.forget d).withInode ino).inode st.inodes).refcnt.toNat < 2 ^ 31 - 1 := by
    rw [hinode]
    change (0 : BitVec 32).toNat < 2 ^ 31 - 1
    decide
  have hsize' : (((st.forget d).withInode ino).inode st.inodes).di.size.toNat =
      (dds.flatMap Dirent.bytes).length := by
    rw [hinode, ← hsize, ← hrec.size]
    rfl
  have hknown : d < ((st.forget d).withInode ino).dentries := hd
  obtain ⟨st₁, ds, hfill, hfilled⟩ := efsDFill_of_find hknown (by rw [hdentry]; exact hino)
    (hashFindInode_forget hword) hpos.le hrefcnt (hstored.holds howned hi hpaged hrec hsize)
    hsize'
  have hentries := hfilled.entries_eq (by
    rw [Efs.modDentry_dentry_self]
    exact congrArg Dentry.child hdentry)
  exact ⟨_, (efsDFill_forget hino hpos hword).trans hfill, hentries⟩

/-- When the lists are empty, the directories are on the disk. -/
theorem View.Dirs.dirsWritten (h : st.view.Dirs ∅) (hs : st.view.Sane) (howned : st.view.Owned)
    (hrec : st.view.Records ∅) (hidirty : st.idirty = []) (hddirty : st.ddirty = []) :
    DirsWritten st := by
  intro d hlive hdir
  have hd := hlive.linked_view hs.tree
  obtain ⟨i, hf, -⟩ := hs.tree.found d hd
  have hi : st.view.LiveInode i := ⟨d, hd, hf⟩
  have hno : (st.inode i).di.no = (st.dentry d).dd.ino :=
    (Tree.find_mem (t := st.view.tree dirSize) hf).2
  have hrecorded : Recorded st.disk st.sb.ds (st.dentry d).dd.ino (st.inode i).di := by
    rw [← hno]
    exact hrec.recorded hidirty hddirty hi
  have hpos : 0 < (st.dentry d).dd.ino.toInt := by
    obtain ⟨hpos, hle⟩ := hrec.number i (.inl hi)
    have hbound : st.view.sb.imap.size ≤ 2 ^ 15 := hs.tree.bound
    rw [show (st.view.di i).no = _ from hno] at hpos hle
    rw [BitVec.toInt_eq_toNat_of_lt (by omega)]
    omega
  have hpaged : st.view.Paged i := (h.paged i hi).resolve_left (by
    rw [show st.view.idirty = [] from hidirty]
    exact List.not_mem_nil)
  have hstored := (h.stored d i hd hf (Set.notMem_empty d)).resolve_left (by
    rw [show st.view.ddirty = [] from hddirty]
    exact List.not_mem_nil)
  have hbytes : st.view.dirents (st.view.entry d).child =
      ((st.dentry d).child.map fun e => (st.dentry e).dd).flatMap Dirent.bytes := by
    rw [List.flatMap_map]
    rfl
  have hsize := hs.size_of_dir hd hdir hf
  rw [← length_dirents, hbytes] at hsize
  rw [hbytes] at hstored
  obtain ⟨st', hfill, hentries⟩ := exists_efsDFill_forget hstored howned hi hpaged hrecorded hno
    hsize (hs.tree.lt_dentries hd) rfl hpos
  rw [List.map_map] at hentries
  exact ⟨st', hfill, hentries⟩

end Reading

/-! ### Runs -/

/-- The directory of the entry `d` is on `s_ddirty_list`. -/
def Efs.Listed (st : Efs) (d : ℕ) : Prop := ∀ p, (st.dentry d).parent = some p → p ∈ st.ddirty

/-- The conditions on a step, in the state before it. The runs are those of the calls that change
directories. -/
def DirsOk (st : Efs) (ev : FsEvent) : Prop :=
  RecordsOk st ev ∧
    match ev with
    | .rename d _ => st.Listed d
    | .write _ _ _ _ => False
    | _ => True

/-- Every step keeps the entries in the file of the directory, or the directory on the list. A call
only changes directories that it puts there, and a pass writes those on the list. -/
theorem View.Dirs.step {st st' : Efs} {ev : FsEvent} (h : st.view.Dirs ∅)
    (hun : st.view.Unclaimed) (hs : st.view.Sane) (howned : st.view.Owned)
    (hrec : st.view.Records ∅) (hok : DirsOk st ev) (hstep : FsStep st ev st') :
    st'.view.Dirs ∅ ∧ st'.view.Unclaimed := by
  cases ev with
  | creat pd name type =>
    obtain ⟨hlive, r, hstep⟩ := hstep
    have hd := hlive.linked_view hs.tree
    have hcr := creates_efsDCreat hs.tree hs.seesDirs hd hstep
    exact ⟨h.creates hs hd hcr, hun.creates hrec hs hd hcr⟩
  | write d offset len vaddr => exact hok.2.elim
  | unlink d =>
    have hd := hstep.1.linked_view hs.tree
    have hrem := removes_efsDUnlink hs.tree hs.seesDirs hd hstep.2
    exact ⟨h.removes hs hd hrem, hun.removes hs howned hd hrem⟩
  | rename d name =>
    have hren := renames_efsDRename hs.tree (hstep.1.linked_view hs.tree) hstep.2
    exact ⟨h.renames hs hren hok.2, hun.renames hren⟩
  | sync pad =>
    obtain ⟨st₁, hinodes, hdentries⟩ := bind_eq_ok.1 hstep
    obtain ⟨hsteps, hnil, hs₁⟩ := hs.syncInodes hinodes
    have hun₀ : (efsSyncSuper st).view.Unclaimed := by
      rw [view_efsSyncSuper]
      exact hun
    have h₁ := (h.syncSuper howned hrec.arranged.laid).inodeSteps hun₀ howned.syncSuper
      hrec.syncSuper hsteps
    have hlive₁ : ∀ j ∈ st₁.view.idirty, st₁.view.LiveInode j := by
      rw [hnil]
      exact fun j hj => absurd hj List.not_mem_nil
    obtain ⟨h', hlive'⟩ := h₁.syncDentries hs₁ (howned.syncSuper.inodeSteps hsteps) hlive₁ rfl
      (hok.1.1 st₁ hinodes) hdentries
    exact ⟨h', fun j hj hdead => absurd (hlive' j hj) hdead⟩

/-- The root directory has no entries after mount. -/
theorem View.Mounted.dirs {v : View} {disk : Disk} {diskSize : ℕ} {ipages bpages : ℕ → BitVec 64}
    (h : v.Mounted disk diskSize ipages bpages) : v.Dirs ∅ ∧ v.Unclaimed := by
  refine ⟨⟨fun d i hd hf _ => .inr ?_, fun i hi => .inr fun blk hblk => ?_⟩, fun j hj => ?_⟩
  · obtain rfl := h.linked hd
    rw [h.entry]
    exact stored_nil
  · obtain rfl := h.liveInode hi
    rw [h.indir] at hblk
    cases hblk
  · rw [h.idirty] at hj
    cases hj

/-- In every run of calls and passes from a fresh disk whose steps meet the conditions, whenever
both lists are empty, `efs_d_fill` reads from the disk the entries that each directory has in
memory. -/
theorem dirsWritten_of_reachable {st : Efs}
    (h : Reachable Efs.Fresh (guarded DirsOk FsStep) st) (hidirty : st.idirty = [])
    (hddirty : st.ddirty = []) : DirsWritten st := by
  have hinv : st.view.Sane ∧ st.view.Owned ∧ st.view.Records ∅ ∧ st.view.Dirs ∅ ∧
      st.view.Unclaimed := by
    refine h.invariant (P := fun st => st.view.Sane ∧ st.view.Owned ∧ st.view.Records ∅ ∧
      st.view.Dirs ∅ ∧ st.view.Unclaimed) ?_ ?_
    · rintro st ⟨disk, hfresh⟩
      obtain ⟨diskSize, ipages, bpages, hmounted⟩ := hfresh.mounted
      exact ⟨hmounted.sane, hmounted.owned, hmounted.records, hmounted.dirs⟩
    · rintro st ev st' ⟨hs, howned, hrec, hdirs, hun⟩ ⟨hok, hstep⟩
      exact ⟨hs.step hok.1.1.filesOnly hstep, howned.step hs hok.1.1 hstep,
        hrec.step hs howned hok.1 hstep, hdirs.step hun hs howned hrec hok hstep⟩
  obtain ⟨hs, howned, hrec, hdirs, -⟩ := hinv
  exact hdirs.dirsWritten hs howned hrec hidirty hddirty

/-- The file `a` is created on a disk of 400 blocks and written back. -/
theorem dirsWritten_400_blocks : ∃ st, Reachable Efs.Fresh (guarded DirsOk FsStep) st ∧
    st.idirty = [] ∧ st.ddirty = [] ∧ (st.dentry 0).child = [1] ∧ DirsWritten st := by
  obtain ⟨st₀, st₁, st₂, st₃, hfresh, hok₀, hcreat, hok₁, hsync₁, hok₂, hsync₂, hidirty, hddirty,
    hchild⟩ := exists_creat_sync_sync
  have hreach : Reachable Efs.Fresh (guarded DirsOk FsStep) st₃ :=
    (((Reachable.start hfresh).next ⟨⟨hok₀, trivial⟩, hcreat⟩).next
      ⟨⟨hok₁, trivial⟩, hsync₁⟩).next ⟨⟨hok₂, trivial⟩, hsync₂⟩
  exact ⟨st₃, hreach, hidirty, hddirty, hchild, dirsWritten_of_reachable hreach hidirty hddirty⟩

/-- The file `a` is created and written back, and then gets the name `b`. -/
def renameRun : List FsEvent :=
  [.creat 0 (cstr [97]) .fReg, .sync fun _ => 0, .sync fun _ => 0, .rename 1 (cstr [98]),
    .sync fun _ => 0]

/-- The name on the disk is still `a`. -/
theorem exists_dir_not_written : ∃ st₀ st, Efs.Fresh st₀ ∧ fsRun renameRun st₀ = .ok st ∧
    Reachable Efs.Fresh FsStep st ∧ st.idirty = [] ∧ st.ddirty = [] ∧ ¬DirsWritten st := by
  have hends : endsWith (fsRun renameRun) (fun st => st.idirty = [] ∧ st.ddirty = [] ∧
      (st.dentry 0).dd.type = .fDir ∧ (efsDFill (st.forget 0) 0).toOption.any
        (fun st' => st'.entries 0 ≠ st.entries 0)) = true := by decide +kernel
  obtain ⟨st₀, st, hfresh, hrun, hend⟩ := exists_of_endsWith hends
  obtain ⟨hidirty, hddirty, htype, hfill⟩ := of_decide_eq_true hend
  refine ⟨st₀, st, hfresh.fresh, hrun, reachable_fsRun hrun (.start hfresh.fresh), hidirty, hddirty,
    fun h => ?_⟩
  obtain ⟨st', heq, hentries⟩ := h 0 .root htype
  rw [heq] at hfill
  exact absurd hentries (of_decide_eq_true hfill)

end RiscvLab.Fs
