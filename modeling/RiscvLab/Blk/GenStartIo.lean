import RiscvLab.Blk.Flush
import Mathlib.Data.Set.Basic

/-!
# Serving requests through the cache

The thread `gen_start_io` takes the requests of `blk_read` and `blk_write` in the order of the queue
and works off the chain of each one, a `struct bio` at a time: it finds or creates the buffer of the
block, pins it, reads the block from the device if the buffer is new and not written as a whole,
copies, releases and unpins. A `struct bio` of length zero would be met again and again. The thread
`flush_bhash` writes dirty buffers to the device in between.

## Main definitions

* `bioLoop` : the loop over the chain of a request.
* `IoStep`, `GenStep` : the steps of the two threads.

## Main results

* `bioListMake_exact` : the chain is a partition of the range, and the loop comes to its end.

Source: `kernel/dev/blk/gendisk.c`, lines 57–147; `kernel/dev/blk/buf.c`, lines 103–203;
`kernel/dev/blk/flush.c`, lines 57–91; `kernel/dev/blk/bio.c`, lines 27–72.
-/

namespace RiscvLab.Blk

open Library

/-- A call of `blk_read` or `blk_write`; `data` are the bytes at `vaddr`. -/
structure BlkCall where
  isWrite : Bool
  blockno : ℕ
  offset : ℕ
  len : ℕ
  data : ℕ → UInt8

/-- The address of the first byte of the range. -/
def BlkCall.start (rq : BlkCall) : ℕ := rq.blockno * blkSize + rq.offset

/-- The range is not empty, and its arithmetic does not overflow. -/
def BlkCall.Valid (rq : BlkCall) : Prop :=
  0 < rq.len ∧ rq.offset % blkSize + rq.len ≤ 2 ^ 32 ∧ rq.start + rq.len ≤ 2 ^ 32 * blkSize

/-- Where `gen_start_io` is with the first `struct bio` of the chain. -/
inductive IoPc
  | next
  | got (b : ℕ)
  | pinned (b : ℕ)
  | loaded (b : ℕ)
  | copied (b : ℕ)
  | released (b : ℕ)

/-- The buffer that the thread has got. -/
def IoPc.buf : IoPc → Option ℕ
  | .next => none
  | .got b | .pinned b | .loaded b | .copied b | .released b => some b

/-- The thread has the lock of the buffer. -/
def IoPc.Pins : IoPc → ℕ → Prop
  | .next, _ | .got _, _ => False
  | .pinned b, c | .loaded b, c | .copied b, c | .released b, c => b = c

/-- The request that `gen_start_io` works on: the rest of the chain, how far `vaddr` has been
advanced, and the bytes at the `vaddr` of the caller. -/
structure IoRq where
  rq : BlkCall
  bio : List Bio
  pos : ℕ
  mem : ℕ → UInt8
  pc : IoPc

/-- `ll_rw` reads the block before the copy. -/
def needsRead (g : Gendisk) (isWrite : Bool) (bio : Bio) (b : ℕ) : Bool :=
  if isWrite then !(bio.offset == 0 && bio.len == blkSize) && bufIsNew g b else bufIsNew g b

/-- The copy between the page and the memory of the caller. -/
def copyBio (g : Gendisk) (io : IoRq) (bio : Bio) (b : ℕ) : Gendisk × (ℕ → UInt8) :=
  if io.rq.isWrite then
    (copyPage g b (patch (g.buf b).page bio.offset (slice io.mem io.pos bio.len)), io.mem)
  else (g, patch io.mem io.pos (slice (g.buf b).page bio.offset bio.len))

/-! ### The loop -/

/-- What the loop does with a `struct bio`. -/
def serveBio (g : Gendisk) (io : IoRq) (bio : Bio) (bs : List Bio) (fresh : ℕ × BitVec 32) :
    Gendisk × IoRq :=
  let (b, g) := bufGet g bio.blockno fresh
  let g := if needsRead g io.rq.isWrite bio b then llRead g b else g
  let (g, mem) := copyBio g io bio b
  (bufRelease g b io.rq.isWrite, { io with bio := bs, pos := io.pos + bio.len, mem := mem })

/-- The loop over the chain, with at most `n` rounds; `fresh` are the buffers that
`kmem_cache_alloc` has in store. -/
def bioLoop (fresh : ℕ → ℕ × BitVec 32) : ℕ → Gendisk → IoRq → Option (Gendisk × IoRq)
  | 0, _, _ => none
  | n + 1, g, io =>
    match io.bio with
    | [] => some (g, io)
    | bio :: bs =>
      -- `continue` without a step to the next one
      if bio.len = 0 then bioLoop fresh n g io
      else
        let (g, io) := serveBio g io bio bs (fresh n)
        bioLoop fresh n g io

theorem Covers.forall {bs : List Bio} {a n : ℕ} (h : Covers bs a n) :
    ∀ b ∈ bs, 1 ≤ b.len ∧ b.offset + b.len ≤ blkSize := by
  induction bs generalizing a n with
  | nil => simp
  | cons b bs ih =>
    obtain ⟨hlen, hend, -, -, hrest⟩ := h
    intro c hc
    rcases List.mem_cons.1 hc with rfl | hc
    · exact ⟨hlen, hend⟩
    · exact ih hrest c hc

theorem Covers.sum {bs : List Bio} {a n : ℕ} (h : Covers bs a n) :
    (bs.map Bio.len).sum = n := by
  induction bs generalizing a n with
  | nil => exact h.symm
  | cons b bs ih =>
    obtain ⟨-, -, hle, -, hrest⟩ := h
    rw [List.map_cons, List.sum_cons, ih hrest]
    omega

/-- The loop works off a chain without empty parts. -/
theorem bioLoop_of_pos {bs : List Bio} (h : ∀ b ∈ bs, 1 ≤ b.len) (fresh : ℕ → ℕ × BitVec 32)
    (g : Gendisk) (io : IoRq) (hbio : io.bio = bs) :
    ∃ g' io', bioLoop fresh (bs.length + 1) g io = some (g', io') ∧ io'.bio = [] ∧
      io'.pos = io.pos + (bs.map Bio.len).sum := by
  induction bs generalizing g io with
  | nil => exact ⟨g, io, by simp [bioLoop, hbio], hbio, rfl⟩
  | cons b bs ih =>
    have hlen : b.len ≠ 0 := Nat.one_le_iff_ne_zero.1 (h b List.mem_cons_self)
    obtain ⟨g', io', hloop, hnil, hpos⟩ := ih (fun c hc => h c (List.mem_cons_of_mem _ hc))
      (serveBio g io b bs (fresh (bs.length + 1))).1
      (serveBio g io b bs (fresh (bs.length + 1))).2 rfl
    refine ⟨g', io', ?_, hnil, ?_⟩
    · rw [List.length_cons, bioLoop, hbio]
      simpa only [if_neg hlen] using hloop
    · rw [hpos, List.map_cons, List.sum_cons, ← Nat.add_assoc]
      rfl

/-- `bio_list_make` splits a range into parts of single blocks, and `gen_start_io` comes to the end
of the chain with `vaddr` advanced by the length of the range. -/
theorem bioListMake_exact {blockno offset len : ℕ} (hlen : 0 < len)
    (hrange : offset % blkSize + len ≤ 2 ^ 32)
    (hblocks : (blockno * blkSize + offset + len - 1) / blkSize < 2 ^ 32) :
    ∃ bs, bioListMake blockno offset len = .ok bs ∧ bs ≠ [] ∧
      (∀ b ∈ bs, 1 ≤ b.len ∧ b.offset + b.len ≤ blkSize) ∧
      Covers bs (blockno * blkSize + offset) len ∧ (bs.map Bio.len).sum = len ∧
      ∀ fresh g io, io.bio = bs → ∃ g' io', bioLoop fresh (bs.length + 1) g io = some (g', io') ∧
        io'.bio = [] ∧ io'.pos = io.pos + len := by
  have hend : blockno * blkSize + offset + len ≤ 2 ^ 32 * blkSize := by
    rw [Nat.div_lt_iff_lt_mul (by decide)] at hblocks
    omega
  obtain ⟨bs, hbs, hcovers⟩ := bioListMake_covers hlen hrange hend
  refine ⟨bs, hbs, ?_, hcovers.forall, hcovers, hcovers.sum, fun fresh g io hbio => ?_⟩
  · rintro rfl
    exact hlen.ne' hcovers
  · have hloop := bioLoop_of_pos (fun b hb => (hcovers.forall b hb).1) fresh g io hbio
    rwa [hcovers.sum] at hloop

/-- A range over three blocks. -/
theorem bioListMake_three_blocks : ∃ bs, bioListMake 5 4090 4104 = .ok bs ∧ bs.length = 3 ∧
    (bs.map Bio.len).sum = 4104 := by
  obtain ⟨bs, hbs, -, -, -, hsum, -⟩ :=
    @bioListMake_exact 5 4090 4104 (by decide) (by decide) (by decide)
  refine ⟨bs, hbs, ?_, hsum⟩
  have : bioListMake 5 4090 4104 = .ok [⟨5, 4090, 6⟩, ⟨6, 0, 4096⟩, ⟨7, 0, 2⟩] := by decide
  obtain rfl := Except.ok.inj (this.symm.trans hbs)
  rfl

/-! ### The threads -/

/-- A step of `gen_start_io` in the loop over the chain. The new buffer of `get` is one that is not
in the hash table. -/
inductive IoStep : Gendisk → IoRq → Gendisk → IoRq → Prop
  | spin {g : Gendisk} {io : IoRq} {bio : Bio} {bs : List Bio} (hpc : io.pc = .next)
      (hbio : io.bio = bio :: bs) (hlen : bio.len = 0) : IoStep g io g io
  | get {g : Gendisk} {io : IoRq} {bio : Bio} {bs : List Bio} {fresh : ℕ × BitVec 32}
      (hpc : io.pc = .next) (hbio : io.bio = bio :: bs) (hlen : bio.len ≠ 0)
      (hfresh : ∀ k < bhashSize, fresh.1 ∉ g.buckets k) :
      IoStep g io (bufGet g bio.blockno fresh).2
        { io with pc := .got (bufGet g bio.blockno fresh).1 }
  | pin {g : Gendisk} {io : IoRq} {b : ℕ} (hpc : io.pc = .got b) :
      IoStep g io g { io with pc := .pinned b }
  | load {g : Gendisk} {io : IoRq} {bio : Bio} {bs : List Bio} {b : ℕ} (hpc : io.pc = .pinned b)
      (hbio : io.bio = bio :: bs) :
      IoStep g io (if needsRead g io.rq.isWrite bio b then llRead g b else g)
        { io with pc := .loaded b }
  | copy {g : Gendisk} {io : IoRq} {bio : Bio} {bs : List Bio} {b : ℕ} (hpc : io.pc = .loaded b)
      (hbio : io.bio = bio :: bs) :
      IoStep g io (copyBio g io bio b).1 { io with mem := (copyBio g io bio b).2, pc := .copied b }
  | release {g : Gendisk} {io : IoRq} {b : ℕ} (hpc : io.pc = .copied b) :
      IoStep g io (bufRelease g b io.rq.isWrite) { io with pc := .released b }
  | unpin {g : Gendisk} {io : IoRq} {bio : Bio} {bs : List Bio} {b : ℕ} (hpc : io.pc = .released b)
      (hbio : io.bio = bio :: bs) :
      IoStep g io g { io with bio := bs, pos := io.pos + bio.len, pc := .next }

/-- The device with both threads. `log` has the calls that have been served, the last one first,
with the bytes at `vaddr` when they were done. -/
structure GenState where
  g : Gendisk
  flush : FlushPc
  io : Option IoRq
  log : List (BlkCall × (ℕ → UInt8))

inductive GenEvent
  | begin (rq : BlkCall)
  | io
  | finish
  | pop
  | write
  | unlink

/-- A step of one of the two threads. `flush_bhash` has the lock of the buffer while it writes. -/
def GenStep (s : GenState) (e : GenEvent) (s' : GenState) : Prop :=
  match e with
  | .begin rq => s.io = none ∧ rq.Valid ∧
      ∃ bios, bioListMake rq.blockno rq.offset rq.len = .ok bios ∧
        s' = { s with io := some ⟨rq, bios, 0, rq.data, .next⟩ }
  | .io => ∃ io g' io', s.io = some io ∧ IoStep s.g io g' io' ∧
      s' = { s with g := g', io := some io' }
  | .finish => ∃ io, s.io = some io ∧ io.bio = [] ∧ io.pc = .next ∧
      s' = { s with io := none, log := (io.rq, io.mem) :: s.log }
  | .pop => s.flush = .idle ∧ ∃ b links, listPop s.g.links .dirtyList = (some (.dirty b), links) ∧
      s' = { s with g := { s.g with links := links }, flush := .popped b }
  | .write => ∃ b, s.flush = .popped b ∧ (∀ io, s.io = some io → ¬io.pc.Pins b) ∧
      s' = { s with g := llWrite s.g b, flush := .written b }
  | .unlink => ∃ b, s.flush = .written b ∧
      s' = { s with g := flushUnlink s.g b, flush := .idle }

/-- The device has been set up: the hash table and the lists are empty. -/
def GenState.Start (disk : ℕ → Block) (s : GenState) : Prop :=
  s.g.disk = disk ∧ (∀ k, s.g.buckets k = []) ∧ s.flush = .idle ∧ s.io = none ∧ s.log = [] ∧
    ∀ n ∈ [BufNode.activeList, .inactiveList, .dirtyList],
      s.g.links.next n = n ∧ s.g.links.prev n = n

end RiscvLab.Blk
