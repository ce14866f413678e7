import RiscvLab.Lib.List
import RiscvLab.Blk.Bio
import RiscvLab.Library.Bytes

/-!
# The buffer cache

A block device keeps copies of blocks in buffers. A buffer is found through a hash table by its
block number; two lists sort the buffers by use, and `dirty_list` holds those to be written back.
The state `Gendisk` has the device itself, block by block, and the buffers by number.

The hash table is modelled by the sequences in its buckets, the other lists by their pointers.
Reference counts and the count of hash entries, which nothing reads, are left out.
`kmem_cache_alloc` is a parameter of `buf_alloc`: an unused buffer, and the flags its memory happens
to hold. A device transfer moves a whole block.

Source: `kernel/dev/blk/buf.c`; `include/dev/blk/buf.h`; `include/lib/hash.h`.
-/

namespace RiscvLab.Blk

open Library

/-- The contents of a block, by offset. -/
abbrev Block : Type := ℕ → UInt8

/-- A list node of the cache. -/
inductive BufNode
  | activeList
  | inactiveList
  | dirtyList
  | lru (buf : ℕ)
  | dirty (buf : ℕ)
  deriving DecidableEq

/-- `struct buf_head`. -/
structure BufHead where
  blockno : ℕ
  flags : BitVec 32
  page : Block

/-- A device with its cache. -/
structure Gendisk where
  disk : ℕ → Block
  buckets : ℕ → List ℕ
  buf : ℕ → BufHead
  links : Links BufNode
  activeCount : ℕ
  inactiveCount : ℕ

/-! ### Flags -/

/-- `BH_Dirty`. -/
def bhDirty : BitVec 32 := 1#32 <<< 0

/-- `BH_New`. -/
def bhNew : BitVec 32 := 1#32 <<< 1

/-- `BH_Active`. -/
def bhActive : BitVec 32 := 1#32 <<< 30

/-- `BH_Visited`. -/
def bhVisited : BitVec 32 := 1#32 <<< 31

/-- A store into one buffer. -/
def Gendisk.modify (g : Gendisk) (b : ℕ) (f : BufHead → BufHead) : Gendisk :=
  { g with buf := Function.update g.buf b (f (g.buf b)) }

/-- `SET_FLAG`. -/
def setFlag (g : Gendisk) (b : ℕ) (flag : BitVec 32) : Gendisk :=
  g.modify b fun h => { h with flags := h.flags ||| flag }

/-- `CLEAR_FLAG`. -/
def clearFlag (g : Gendisk) (b : ℕ) (flag : BitVec 32) : Gendisk :=
  g.modify b fun h => { h with flags := h.flags &&& ~~~flag }

/-- `TEST_FLAG`. -/
def testFlag (g : Gendisk) (b : ℕ) (flag : BitVec 32) : BitVec 32 := (g.buf b).flags &&& flag

/-- `buf_is_new`, as a condition. -/
def bufIsNew (g : Gendisk) (b : ℕ) : Bool := testFlag g b bhNew != 0

/-! ### Finding and creating buffers -/

/-- `bhash_lru`. -/
def bhashLru (g : Gendisk) (b : ℕ) : Gendisk :=
  if testFlag g b bhActive = bhActive then g
  else if testFlag g b bhVisited = bhVisited then
    let g := setFlag g b bhActive
    { g with
      links := listAddHead (listDel g.links (.lru b)) (.lru b) .activeList
      activeCount := g.activeCount + 1 }
  else
    let g := setFlag g b bhVisited
    { g with
      links := listAddHead g.links (.lru b) .inactiveList
      inactiveCount := g.inactiveCount + 1 }

/-- The size of `buf_hash_table`. -/
def bhashSize : ℕ := 32

/-- `bhash_init`, on memory that holds anything. -/
def bhashInit (g : Gendisk) : Gendisk :=
  { g with
    buckets := fun _ => []
    links := initListHead (initListHead (initListHead g.links .activeList) .inactiveList) .dirtyList
    activeCount := 0
    inactiveCount := 0 }

/-- `hash_find` by block number. -/
def hashFind (g : Gendisk) (blockno : ℕ) : Option ℕ :=
  (g.buckets (blockno % bhashSize)).find? fun b => (g.buf b).blockno = blockno

/-- `bhash_find`. -/
def bhashFind (g : Gendisk) (blockno : ℕ) : Option ℕ × Gendisk :=
  match hashFind g blockno with
  | none => (none, g)
  | some b => (some b, bhashLru g b)

/-- `bhash_add`. -/
def bhashAdd (g : Gendisk) (b : ℕ) : Gendisk :=
  let k := (g.buf b).blockno % bhashSize
  { g with buckets := Function.update g.buckets k (b :: g.buckets k) }

/-- `buf_alloc` with the buffer `b` from `kmem_cache_alloc`, whose flags are `junk`; the page is
zeroed. -/
def bufAlloc (g : Gendisk) (blockno b : ℕ) (junk : BitVec 32) : Gendisk :=
  let g := { g with
    buf := Function.update g.buf b ⟨blockno, junk, fun _ => 0⟩
    links := initListHead (initListHead g.links (.lru b)) (.dirty b) }
  setFlag g b bhNew

/-- `buf_get`. -/
def bufGet (g : Gendisk) (blockno : ℕ) (fresh : ℕ × BitVec 32) : ℕ × Gendisk :=
  match bhashFind g blockno with
  | (some b, g) => (b, g)
  | (none, g) => (fresh.1, bhashLru (bhashAdd (bufAlloc g blockno fresh.1 fresh.2) fresh.1) fresh.1)

/-- The list operations of `buf_release` on a dirty buffer: the node is unlinked if the list is not
empty, whether or not the node is on it. -/
def dirtyLink (links : Links BufNode) (b : ℕ) : Links BufNode :=
  let links := if listEmpty links .dirtyList then links else listDel links (.dirty b)
  listAddHead links (.dirty b) .dirtyList

/-- `buf_release`. -/
def bufRelease (g : Gendisk) (b : ℕ) (isDirty : Bool) : Gendisk :=
  let g := clearFlag g b bhNew
  if isDirty then
    let g := setFlag g b bhDirty
    { g with links := dirtyLink g.links b }
  else g

/-! ### Transfers -/

/-- `ll_rw` reading the block of a buffer. -/
def llRead (g : Gendisk) (b : ℕ) : Gendisk :=
  g.modify b fun h => { h with page := g.disk h.blockno }

/-- `ll_rw` writing the block of a buffer. -/
def llWrite (g : Gendisk) (b : ℕ) : Gendisk :=
  { g with disk := Function.update g.disk (g.buf b).blockno (g.buf b).page }

/-! ### What the operations leave alone -/

theorem bufIsNew_eq (g : Gendisk) (b : ℕ) : bufIsNew g b = (g.buf b).flags.getLsbD 1 := by
  rw [bufIsNew, testFlag, show bhNew = BitVec.twoPow 32 1 from rfl, BitVec.and_twoPow]
  cases (g.buf b).flags.getLsbD 1 <;> rfl

/-- A state in which no buffer has changed its block. -/
structure SameBlocks (g g' : Gendisk) : Prop where
  buckets : g'.buckets = g.buckets
  blockno : ∀ c, (g'.buf c).blockno = (g.buf c).blockno

/-- The two states agree but for list nodes, their counts, and flags. -/
structure SamePages (g g' : Gendisk) : Prop extends SameBlocks g g' where
  disk : g'.disk = g.disk
  page : ∀ c, (g'.buf c).page = (g.buf c).page

/-- The two states agree but for list nodes, their counts, and flags other than `BH_New`. -/
structure SameData (g g' : Gendisk) : Prop extends SamePages g g' where
  isNew : ∀ c, bufIsNew g' c = bufIsNew g c

theorem setFlag_sameData (g : Gendisk) (b : ℕ) (flag : BitVec 32) (hf : flag[1] = false) :
    SameData g (setFlag g b flag) := by
  refine ⟨⟨⟨rfl, fun c => ?_⟩, rfl, fun c => ?_⟩, fun c => ?_⟩ <;> by_cases hc : c = b <;>
    simp [setFlag, Gendisk.modify, hc, bufIsNew_eq, hf]

theorem bhashLru_sameData (g : Gendisk) (b : ℕ) : SameData g (bhashLru g b) := by
  unfold bhashLru
  split_ifs
  · exact ⟨⟨⟨rfl, fun _ => rfl⟩, rfl, fun _ => rfl⟩, fun _ => rfl⟩
  · exact { setFlag_sameData g b bhActive (by decide) with }
  · exact { setFlag_sameData g b bhVisited (by decide) with }

/-- `buf_release` clears `BH_New` of the buffer. -/
theorem bufRelease_frame (g : Gendisk) (b : ℕ) (isDirty : Bool) :
    SamePages g (bufRelease g b isDirty) ∧
      ∀ c, bufIsNew (bufRelease g b isDirty) c = if c = b then false else bufIsNew g c := by
  have hnew : bhNew[1] = true := by decide
  have hdirty : bhDirty[1] = false := by decide
  cases isDirty <;> refine ⟨⟨⟨rfl, fun c => ?_⟩, rfl, fun c => ?_⟩, fun c => ?_⟩ <;>
    by_cases hc : c = b <;>
    simp [bufRelease, clearFlag, setFlag, Gendisk.modify, hc, bufIsNew_eq, hnew, hdirty]

/-! ### Buffers in the hash table -/

/-- The buffer is in the hash table. -/
def Gendisk.Cached (g : Gendisk) (b : ℕ) : Prop :=
  b ∈ g.buckets ((g.buf b).blockno % bhashSize)

theorem SameBlocks.cached_iff {g g' : Gendisk} (h : SameBlocks g g') (b : ℕ) :
    g'.Cached b ↔ g.Cached b := by
  rw [Gendisk.Cached, Gendisk.Cached, h.buckets, h.blockno]

/-- A new buffer in the hash table, before `bhash_lru`. -/
def newBuf (g : Gendisk) (blockno b : ℕ) (junk : BitVec 32) : Gendisk :=
  bhashAdd (bufAlloc g blockno b junk) b

section NewBuf

variable (g : Gendisk) (n b : ℕ) (junk : BitVec 32)

theorem newBuf_buf :
    (newBuf g n b junk).buf = Function.update g.buf b ⟨n, junk ||| bhNew, fun _ => 0⟩ := by
  simp [newBuf, bhashAdd, bufAlloc, setFlag, Gendisk.modify]

theorem newBuf_cached (c : ℕ) : (newBuf g n b junk).Cached c ↔ c = b ∨ g.Cached c := by
  have hbuckets : (newBuf g n b junk).buckets =
      Function.update g.buckets (n % bhashSize) (b :: g.buckets (n % bhashSize)) := by
    simp [newBuf, bhashAdd, bufAlloc, setFlag, Gendisk.modify]
  rw [Gendisk.Cached, newBuf_buf, hbuckets]
  by_cases hc : c = b
  · simp [hc]
  · by_cases hk : (g.buf c).blockno % bhashSize = n % bhashSize <;>
      simp [Gendisk.Cached, hk, hc]

/-- `buf_get` finds the buffer of the block, or creates one if there is none. -/
theorem bufGet_cases (fresh : ℕ × BitVec 32) :
    (∃ b, g.Cached b ∧ (g.buf b).blockno = n ∧ bufGet g n fresh = (b, bhashLru g b)) ∨
    (∀ b, g.Cached b → (g.buf b).blockno ≠ n) ∧
      bufGet g n fresh = (fresh.1, bhashLru (newBuf g n fresh.1 fresh.2) fresh.1) := by
  cases hfind : hashFind g n with
  | none =>
    refine .inr ⟨fun b hb hbn => ?_, by simp [bufGet, bhashFind, hfind, newBuf]⟩
    rw [hashFind, List.find?_eq_none] at hfind
    rw [Gendisk.Cached, hbn] at hb
    exact hfind b hb (by simpa using hbn)
  | some b =>
    have hbn : (g.buf b).blockno = n := by simpa using List.find?_some hfind
    refine .inl ⟨b, ?_, hbn, by simp [bufGet, bhashFind, hfind]⟩
    rw [Gendisk.Cached, hbn]
    exact List.mem_of_find?_eq_some hfind

end NewBuf

end RiscvLab.Blk
