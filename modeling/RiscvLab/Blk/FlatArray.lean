import RiscvLab.Blk.GenStartIo
import Mathlib.Data.Finset.Union
import Mathlib.Data.Fintype.EquivFin

/-!
# The block layer is a flat array of bytes

`gen_start_io` serves the calls of `blk_read` and `blk_write` one after the other, and `flush_bhash`
writes buffers back at any time. Each read returns the bytes that the latest earlier writes have
stored, wherever they are by then.

`Agrees g m x` compares the device and its cache with the array `m`: the pages of the buffers have
the bytes of `m`, and so have the blocks on the device that are in no buffer. `x` is the buffer that
`gen_start_io` has created and not filled yet. What has been copied for the current call is already
part of the array (`image`).

`dirty_list` is not always a ring (`exists_lost_buffer`). What `flush_bhash` finds on it is a buffer
that has been filled all the same, since the pointers of these nodes lead to no others (`ListInv`).

## Main definitions

* `lastByte` : the byte that the latest write to an address has stored.
* `FlatArray` : what the calls that have been served have returned.

## Main results

* `flatArray_of_reachable`.

Source: `kernel/dev/blk/gendisk.c`, lines 57–147; `kernel/dev/blk/buf.c`, lines 103–203;
`kernel/dev/blk/flush.c`, lines 57–91.
-/

namespace RiscvLab.Blk

open Library

/-! ### The flat array -/

/-- The byte that the latest write to an address has stored, or the one that the device had. -/
def lastByte (disk : ℕ → Block) : List (BlkCall × (ℕ → UInt8)) → ℕ → UInt8
  | [], a => disk (a / blkSize) (a % blkSize)
  | (rq, _) :: log, a =>
    if rq.isWrite ∧ rq.start ≤ a ∧ a < rq.start + rq.len then rq.data (a - rq.start)
    else lastByte disk log a

/-- Each read has returned the bytes that the latest earlier writes have stored. -/
def ReadsLatest (disk : ℕ → Block) : List (BlkCall × (ℕ → UInt8)) → Prop
  | [] => True
  | (rq, mem) :: log => (rq.isWrite = false →
      ∀ i < rq.len, mem i = lastByte disk log (rq.start + i)) ∧ ReadsLatest disk log

/-- A step of `gen_start_io`. -/
def ServeStep (s s' : GenState) : Prop :=
  GenStep s .io s' ∨ GenStep s .finish s' ∨ ∃ rq, GenStep s (.begin rq) s'

/-- The thread `gen_start_io` can complete the call. -/
def Serves (s : GenState) (rq : BlkCall) : Prop :=
  ∃ s' mem, Relation.ReflTransGen ServeStep s s' ∧ s'.io = none ∧ s'.log = (rq, mem) :: s.log

/-- The block layer is a flat array of bytes. There is at most one buffer for a block. Each call is
served when `gen_start_io` is run. -/
structure FlatArray (disk : ℕ → Block) (s : GenState) : Prop where
  reads : ReadsLatest disk s.log
  unique : ∀ b c, s.g.Cached b → s.g.Cached c → (s.g.buf b).blockno = (s.g.buf c).blockno → b = c
  current : ∀ io, s.io = some io → Serves s io.rq
  served : s.io = none → ∀ rq : BlkCall, rq.Valid → Serves s rq

/-- The device and the pages of the buffers have the bytes of `m`, but for the page of the
buffer `x`. -/
structure Agrees (g : Gendisk) (m : ℕ → UInt8) (x : Option ℕ) : Prop where
  unique : ∀ b c, g.Cached b → g.Cached c → (g.buf b).blockno = (g.buf c).blockno → b = c
  page : ∀ b, g.Cached b → x ≠ some b → ∀ i < blkSize,
    (g.buf b).page i = m ((g.buf b).blockno * blkSize + i)
  disk : ∀ n, (∀ b, g.Cached b → (g.buf b).blockno = n → x = some b) → ∀ i < blkSize,
    g.disk n i = m (n * blkSize + i)

theorem llRead_sameBlocks (g : Gendisk) (b : ℕ) : SameBlocks g (llRead g b) := by
  refine ⟨rfl, fun c => ?_⟩
  by_cases hc : c = b <;> simp [llRead, Gendisk.modify, hc]

namespace Agrees

variable {g g' : Gendisk} {m m' : ℕ → UInt8} {x : Option ℕ} {b : ℕ}

/-- Neither the pages nor the device have changed. -/
theorem of_samePages (h : Agrees g m x) (hsame : SamePages g g') : Agrees g' m x := by
  refine ⟨hsame.unique h.unique, fun b hb hx i hi => ?_, fun n hn i hi => ?_⟩
  · rw [hsame.page, hsame.blockno]
    exact h.page b ((hsame.cached_iff b).1 hb) hx i hi
  · rw [hsame.disk]
    refine h.disk n (fun b hb hbn => hn b ((hsame.cached_iff b).2 hb) ?_) i hi
    rwa [hsame.blockno]

theorem load (h : Agrees g m (some b)) (hb : g.Cached b) : Agrees (llRead g b) m none := by
  have hblocks := llRead_sameBlocks g b
  refine ⟨hblocks.unique h.unique, fun c hc _ i hi => ?_, fun n hn i hi => ?_⟩
  · rw [hblocks.blockno]
    by_cases hcb : c = b
    · subst hcb
      have hdisk := h.disk (g.buf c).blockno
        (fun c' hc' heq => congrArg some (h.unique c c' hb hc' heq.symm)) i hi
      simpa [llRead, Gendisk.modify] using hdisk
    · have hpage := h.page c ((hblocks.cached_iff c).1 hc) (by simpa using Ne.symm hcb) i hi
      simpa [llRead, Gendisk.modify, hcb] using hpage
  · refine h.disk n (fun c hc hcn => ?_) i hi
    have := hn c ((hblocks.cached_iff c).2 hc) (by rw [hblocks.blockno, hcn])
    cases this

/-- The page of a buffer is overwritten, as the block is in the array. The old page is right, or
nothing of it is left. -/
theorem store {page : Block} (h : Agrees g m x) (hb : g.Cached b) (hx : x = none ∨ x = some b)
    (hpage : ∀ i < blkSize, page i = m' ((g.buf b).blockno * blkSize + i))
    (hother : ∀ n ≠ (g.buf b).blockno, ∀ i < blkSize,
      m' (n * blkSize + i) = m (n * blkSize + i)) : Agrees (copyPage g b page) m' none := by
  have hblocks := copyPage_sameBlocks g b page
  refine ⟨hblocks.unique h.unique, fun c hc _ i hi => ?_, fun n hn i hi => ?_⟩
  · rw [hblocks.blockno]
    by_cases hcb : c = b
    · subst hcb
      simpa [copyPage, Gendisk.modify] using hpage i hi
    · have hcg := (hblocks.cached_iff c).1 hc
      have hxc : x ≠ some c := by
        rintro rfl
        rcases hx with hx | hx
        · cases hx
        · exact hcb (Option.some_inj.1 hx)
      rw [hother _ (fun e => hcb (h.unique c b hcg hb e)) i hi, ← h.page c hcg hxc i hi]
      simp [copyPage, Gendisk.modify, hcb]
  · have hno : ∀ c, g.Cached c → (g.buf c).blockno ≠ n := by
      intro c hc hcn
      have := hn c ((hblocks.cached_iff c).2 hc) (by rw [hblocks.blockno, hcn])
      cases this
    rw [hother n (hno b hb).symm i hi]
    exact h.disk n (fun c hc hcn => absurd hcn (hno c hc)) i hi

theorem writeBack (h : Agrees g m x) (hb : g.Cached b) (hx : x ≠ some b) :
    Agrees (llWrite g b) m x := by
  refine ⟨h.unique, h.page, fun n hn i hi => ?_⟩
  have hne : n ≠ (g.buf b).blockno := fun e => hx (hn b hb e.symm)
  rw [← h.disk n hn i hi]
  simp [llWrite, hne]

theorem congr (h : Agrees g m x) (hm : ∀ a, m' a = m a) : Agrees g m' x := by
  rwa [funext hm]

end Agrees

/-! ### The lists -/

/-- The head of `dirty_list` and the nodes of the buffers that have been released. -/
def dirtySet (g : Gendisk) : Set BufNode :=
  {n | n = .dirtyList ∨ ∃ b, n = .dirty b ∧ g.Cached b ∧ bufIsNew g b = false}

/-- The nodes of the lists that sort the buffers by use. -/
def lruSet (g : Gendisk) : Set BufNode :=
  {n | n = .activeList ∨ n = .inactiveList ∨ ∃ b, n = .lru b ∧ g.Cached b}

theorem notMem_lruSet {g g' : Gendisk} {n : BufNode} (hn : n ∈ dirtySet g) : n ∉ lruSet g' := by
  rcases hn with rfl | ⟨b, rfl, -⟩ <;> simp [lruSet]

/-- The pointers of the nodes of one kind lead to nodes of this kind. The node of a buffer that has
not been released is linked to itself. -/
structure ListInv (g : Gendisk) : Prop where
  dirty : g.links.Closed (dirtySet g)
  lru : g.links.Closed (lruSet g)
  self : ∀ b, g.Cached b → bufIsNew g b = true →
    g.links.next (.dirty b) = .dirty b ∧ g.links.prev (.dirty b) = .dirty b

/-- `bhash_lru` stays inside a set with the nodes that it touches. -/
theorem bhashLru_links {g : Gendisk} {b : ℕ} {S : Set BufNode} (hS : g.links.Closed S)
    (ha : .activeList ∈ S) (hi : .inactiveList ∈ S) (hb : .lru b ∈ S) :
    (bhashLru g b).links.Closed S ∧ g.links.SameOff (bhashLru g b).links S := by
  unfold bhashLru
  split_ifs
  · exact ⟨hS, fun _ _ => ⟨rfl, rfl⟩⟩
  · obtain ⟨hdel, hoff⟩ := hS.del hb
    obtain ⟨hadd, hoff'⟩ := hdel.addHead hb ha
    exact ⟨hadd, hoff.trans hoff'⟩
  · exact hS.addHead hb hi

theorem dirtyLink_links {links : Links BufNode} {b : ℕ} {S : Set BufNode} (hS : links.Closed S)
    (hl : .dirtyList ∈ S) (hb : .dirty b ∈ S) :
    (dirtyLink links b).Closed S ∧ links.SameOff (dirtyLink links b) S := by
  unfold dirtyLink
  split_ifs
  · exact hS.addHead hb hl
  · obtain ⟨hdel, hoff⟩ := hS.del hb
    obtain ⟨hadd, hoff'⟩ := hdel.addHead hb hl
    exact ⟨hadd, hoff.trans hoff'⟩

namespace ListInv

variable {g g' : Gendisk} {b : ℕ}

variable (h : ListInv g)

include h

section

variable (hb : SameBlocks g g') (hn : ∀ c, bufIsNew g' c = bufIsNew g c)

include hb hn

/-- The lists may change as long as the pointers of each kind stay among their nodes. -/
theorem of_closed (hdirty : g'.links.Closed (dirtySet g)) (hlru : g'.links.Closed (lruSet g))
    (hself : ∀ c, bufIsNew g c = true → g'.links.next (.dirty c) = g.links.next (.dirty c) ∧
      g'.links.prev (.dirty c) = g.links.prev (.dirty c)) : ListInv g' := by
  have hd : dirtySet g' = dirtySet g := by simp only [dirtySet, hb.cached_iff, hn]
  have hr : lruSet g' = lruSet g := by simp only [lruSet, hb.cached_iff]
  refine ⟨hd ▸ hdirty, hr ▸ hlru, fun c hc hnew => ?_⟩
  rw [hn] at hnew
  rw [(hself c hnew).1, (hself c hnew).2]
  exact h.self c ((hb.cached_iff c).1 hc) hnew

theorem congr (hl : g'.links = g.links) : ListInv g' := by
  refine h.of_closed hb hn ?_ ?_ fun c _ => ?_ <;> rw [hl]
  · exact h.dirty
  · exact h.lru
  · exact ⟨rfl, rfl⟩

/-- An operation on the lists that sort the buffers by use. -/
theorem of_lru (hl : g'.links.Closed (lruSet g) ∧ g.links.SameOff g'.links (lruSet g)) :
    ListInv g' :=
  h.of_closed hb hn (h.dirty.of_sameOff hl.2 fun _ => notMem_lruSet) hl.1 fun c _ =>
    hl.2 (.dirty c) (by simp [lruSet])

theorem of_dirty (hl : g'.links.Closed (dirtySet g) ∧ g.links.SameOff g'.links (dirtySet g)) :
    ListInv g' :=
  h.of_closed hb hn hl.1 (h.lru.of_sameOff hl.2 fun _ hn hn' => notMem_lruSet hn' hn) fun c hnew =>
    hl.2 (.dirty c) (by simp [dirtySet, hnew])

end

theorem lruOf (hb : g.Cached b) : ListInv (bhashLru g b) := by
  have hsame := bhashLru_sameData g b
  refine h.of_lru hsame.toSameBlocks hsame.isNew (bhashLru_links h.lru ?_ ?_ ?_)
  · exact .inl rfl
  · exact .inr (.inl rfl)
  · exact .inr (.inr ⟨b, rfl, hb⟩)

theorem clearNew (b : ℕ) : ListInv (bufRelease g b false) := by
  obtain ⟨hblocks, hnew⟩ := bufRelease_frame g b false
  have hsub : ∀ n ∈ dirtySet g, n ∈ dirtySet (bufRelease g b false) := by
    rintro n (rfl | ⟨c, rfl, hc, hcn⟩)
    · exact .inl rfl
    · refine .inr ⟨c, rfl, (hblocks.cached_iff c).2 hc, ?_⟩
      rw [hnew, hcn, ite_self]
  refine ⟨?_, ?_, fun c hc hcn => ?_⟩
  · rintro n (rfl | ⟨c, rfl, hc, hnot⟩)
    · obtain ⟨hnext, hprev⟩ := h.dirty .dirtyList (.inl rfl)
      exact ⟨hsub _ hnext, hsub _ hprev⟩
    · have hmem : BufNode.dirty c ∈ dirtySet (bufRelease g b false) := .inr ⟨c, rfl, hc, hnot⟩
      have hc := (hblocks.cached_iff c).1 hc
      cases hcn : bufIsNew g c with
      | false =>
        obtain ⟨hnext, hprev⟩ := h.dirty (.dirty c) (.inr ⟨c, rfl, hc, hcn⟩)
        exact ⟨hsub _ hnext, hsub _ hprev⟩
      | true =>
        obtain ⟨hnext, hprev⟩ := h.self c hc hcn
        exact ⟨hnext.symm ▸ hmem, hprev.symm ▸ hmem⟩
  · have : lruSet (bufRelease g b false) = lruSet g := by simp only [lruSet, hblocks.cached_iff]
    rw [this]
    exact h.lru
  · rw [hnew] at hcn
    split_ifs at hcn
    exact h.self c ((hblocks.cached_iff c).1 hc) hcn

theorem release (hb : g.Cached b) (isDirty : Bool) : ListInv (bufRelease g b isDirty) := by
  cases isDirty with
  | false => exact h.clearNew b
  | true =>
    obtain ⟨hblocks, hnew⟩ := bufRelease_frame g b false
    obtain ⟨hblocks', hnew'⟩ := bufRelease_frame g b true
    have hlist : .dirtyList ∈ dirtySet (bufRelease g b false) := .inl rfl
    have hnode : .dirty b ∈ dirtySet (bufRelease g b false) :=
      .inr ⟨b, rfl, (hblocks.cached_iff b).2 hb, by rw [hnew, if_pos rfl]⟩
    refine (h.clearNew b).of_dirty ⟨hblocks'.buckets.trans hblocks.buckets.symm, fun c => ?_⟩
      (fun c => ?_) ?_
    · rw [hblocks'.blockno, hblocks.blockno]
    · rw [hnew', hnew]
    · exact dirtyLink_links (h.clearNew b).dirty hlist hnode

end ListInv

/-! ### Finding and creating a buffer -/

/-- `buf_alloc` and `bhash_add`. -/
structure Created (g g' : Gendisk) (n b : ℕ) : Prop where
  disk : g'.disk = g.disk
  buf : ∀ c ≠ b, g'.buf c = g.buf c
  blockno : (g'.buf b).blockno = n
  isNew : ∀ c, bufIsNew g' c = if c = b then true else bufIsNew g c
  cached : ∀ c, g'.Cached c ↔ c = b ∨ g.Cached c
  links : g'.links = initListHead (initListHead g.links (.lru b)) (.dirty b)

section Get

variable {g g' : Gendisk} {n b : ℕ} {fresh : ℕ × BitVec 32}

theorem created_newBuf (g : Gendisk) (n : ℕ) (fresh : ℕ × BitVec 32) :
    Created g (newBuf g n fresh.1 fresh.2) n fresh.1 := by
  have hnew : bhNew[1] = true := by decide
  refine ⟨rfl, fun c hc => ?_, ?_, fun c => ?_, newBuf_cached g n _ _, rfl⟩
  · rw [newBuf_buf, Function.update_of_ne hc]
  · rw [newBuf_buf, Function.update_self]
  · by_cases hc : c = fresh.1 <;> simp [bufIsNew_eq, newBuf_buf, hc, hnew]

theorem not_cached_of_fresh (hfresh : ∀ k < bhashSize, b ∉ g.buckets k) : ¬g.Cached b :=
  hfresh _ (Nat.mod_lt _ (by decide))

theorem Created.listInv (hc : Created g g' n b) (hb : ¬g.Cached b) (h : ListInv g) :
    ListInv g' := by
  have hdirty : dirtySet g' = dirtySet g := by
    ext m
    simp only [dirtySet, Set.mem_ofPred_eq]
    refine or_congr_right (exists_congr fun c => and_congr_right fun _ => ?_)
    rw [hc.cached, hc.isNew]
    by_cases hcb : c = b
    · subst hcb
      simp [hb]
    · simp [hcb]
  have hlru : lruSet g' = lruSet g ∪ {.lru b} := by
    ext m
    simp only [lruSet, hc.cached, Set.mem_union, Set.mem_singleton_iff, Set.mem_ofPred_eq]
    grind
  have hclosed {S : Set BufNode} (hS : g.links.Closed S) : g'.links.Closed S :=
    hc.links ▸ hS.init.init
  refine ⟨hdirty ▸ hclosed h.dirty, hlru ▸ (hclosed h.lru).union_self ?_, fun c hcc hcn => ?_⟩
  · simp [hc.links, initListHead_next, initListHead_prev]
  · by_cases hcb : c = b
    · subst hcb
      simp [hc.links, initListHead_next, initListHead_prev]
    · rw [hc.isNew, if_neg hcb] at hcn
      simp only [hc.links, initListHead_next, initListHead_prev, BufNode.dirty.injEq, hcb, if_false,
        reduceCtorEq]
      exact h.self c (((hc.cached c).1 hcc).resolve_left hcb) hcn

theorem Created.agrees {m : ℕ → UInt8} (hc : Created g g' n b) (hb : ¬g.Cached b)
    (hn : ∀ c, g.Cached c → (g.buf c).blockno ≠ n) (h : Agrees g m none) :
    Agrees g' m (some b) := by
  have hold : ∀ c, g.Cached c → c ≠ b := fun c hcc e => hb (e ▸ hcc)
  refine ⟨fun c d hcc hd heq => ?_, fun c hcc hx i hi => ?_, fun k hk i hi => ?_⟩
  · rcases (hc.cached c).1 hcc with rfl | hcc <;> rcases (hc.cached d).1 hd with rfl | hd
    · rfl
    · rw [hc.blockno, hc.buf d (hold d hd)] at heq
      exact absurd heq.symm (hn d hd)
    · rw [hc.blockno, hc.buf c (hold c hcc)] at heq
      exact absurd heq (hn c hcc)
    · rw [hc.buf c (hold c hcc), hc.buf d (hold d hd)] at heq
      exact h.unique c d hcc hd heq
  · have hcb : c ≠ b := fun e => hx (by rw [e])
    rw [hc.buf c hcb]
    exact h.page c (((hc.cached c).1 hcc).resolve_left hcb) (by simp) i hi
  · rw [hc.disk]
    refine h.disk k (fun c hcc hck => ?_) i hi
    have := hk c ((hc.cached c).2 (.inr hcc)) (by rw [hc.buf c (hold c hcc), hck])
    exact absurd (Option.some_inj.1 this).symm (hold c hcc)

end Get

/-! ### The invariant -/

/-- The thread has got the buffer and not released it. -/
def IoPc.Fills : IoPc → ℕ → Prop
  | .next, _ | .released _, _ => False
  | .got b, c | .pinned b, c | .loaded b, c | .copied b, c => b = c

/-- The number of bytes that have been copied. -/
def IoRq.done (io : IoRq) : ℕ :=
  match io.pc, io.bio with
  | .copied _, bio :: _ | .released _, bio :: _ => io.pos + bio.len
  | _, _ => io.pos

/-- The flat array: what has been copied for the current call is part of it. -/
def image (disk : ℕ → Block) (log : List (BlkCall × (ℕ → UInt8))) : Option IoRq → ℕ → UInt8
  | none, a => lastByte disk log a
  | some io, a =>
    if io.rq.isWrite ∧ io.rq.start ≤ a ∧ a < io.rq.start + io.done then io.rq.data (a - io.rq.start)
    else lastByte disk log a

/-- The buffer whose page is not what the array has. -/
def stale (g : Gendisk) : Option IoRq → Option ℕ
  | none => none
  | some io =>
    match io.pc, io.bio with
    | .got b, _ | .pinned b, _ => if bufIsNew g b then some b else none
    | .loaded b, bio :: _ =>
      if bufIsNew g b && !needsRead g io.rq.isWrite bio b then some b else none
    | _, _ => none

/-- The call that is served. -/
structure IoInv (disk : ℕ → Block) (log : List (BlkCall × (ℕ → UInt8))) (g : Gendisk)
    (io : IoRq) : Prop where
  covers : Covers io.bio (io.rq.start + io.pos) (io.rq.len - io.pos)
  pos_le : io.pos ≤ io.rq.len
  write : io.rq.isWrite = true → io.mem = io.rq.data
  read : io.rq.isWrite = false → ∀ i < io.done, io.mem i = lastByte disk log (io.rq.start + i)
  buf : ∀ b, io.pc.buf = some b → g.Cached b ∧
    ∃ bio bs, io.bio = bio :: bs ∧ (g.buf b).blockno = bio.blockno

structure GenInv (disk : ℕ → Block) (s : GenState) : Prop where
  agrees : Agrees s.g (image disk s.log s.io) (stale s.g s.io)
  lists : ListInv s.g
  isNew : ∀ b, s.g.Cached b → bufIsNew s.g b = true → ∃ io, s.io = some io ∧ io.pc.Fills b
  flush : ∀ b, s.flush = .popped b ∨ s.flush = .written b →
    s.g.Cached b ∧ bufIsNew s.g b = false
  io : ∀ io, s.io = some io → IoInv disk s.log s.g io
  log : ReadsLatest disk s.log

theorem IoInv.of_sameBlocks {disk : ℕ → Block} {log : List (BlkCall × (ℕ → UInt8))}
    {g g' : Gendisk} {io : IoRq} (h : IoInv disk log g io) (hb : SameBlocks g g') :
    IoInv disk log g' io :=
  ⟨h.covers, h.pos_le, h.write, h.read, fun b hpc => by
    rw [hb.cached_iff, hb.blockno]
    exact h.buf b hpc⟩

theorem stale_ne {g : Gendisk} {b : ℕ} (hb : bufIsNew g b = false) (io : Option IoRq) :
    stale g io ≠ some b := by
  intro h
  unfold stale at h
  split at h
  · cases h
  · split at h
    all_goals
      first
      | cases h
      | (split_ifs at h with hnew
         obtain rfl := Option.some_inj.1 h
         simp [hb] at hnew)

theorem stale_congr {g g' : Gendisk} (h : ∀ c, bufIsNew g' c = bufIsNew g c) (io : Option IoRq) :
    stale g' io = stale g io := by
  unfold stale needsRead
  simp only [h]

theorem image_setPc {disk : ℕ → Block} {log : List (BlkCall × (ℕ → UInt8))} {io : IoRq}
    {pc : IoPc} (hdone : IoRq.done { io with pc := pc } = io.done) :
    image disk log (some { io with pc := pc }) = image disk log (some io) := by
  funext a
  simp only [image, hdone]

theorem IoInv.setPc {disk : ℕ → Block} {log : List (BlkCall × (ℕ → UInt8))} {g g' : Gendisk}
    {io : IoRq} {pc : IoPc} (h : IoInv disk log g io)
    (hdone : IoRq.done { io with pc := pc } = io.done) (hbuf : ∀ b, pc.buf = some b → g'.Cached b ∧
      ∃ bio bs, io.bio = bio :: bs ∧ (g'.buf b).blockno = bio.blockno) :
    IoInv disk log g' { io with pc := pc } := by
  refine ⟨h.covers, h.pos_le, h.write, fun hread i hi => ?_, hbuf⟩
  rw [hdone] at hi
  exact h.read hread i hi

namespace GenInv

variable {disk : ℕ → Block} {s : GenState} {g' : Gendisk} {io : IoRq} {bio : Bio} {bs : List Bio}
  {b : ℕ}

variable (hI : GenInv disk s)

include hI

/-! #### `flush_bhash` -/

/-- The data are the same, and the lists are in order. -/
theorem of_sameData {flush : FlushPc} (hsame : SameData s.g g') (hl : ListInv g')
    (hf : ∀ b, flush = .popped b ∨ flush = .written b → s.g.Cached b ∧ bufIsNew s.g b = false) :
    GenInv disk { s with g := g', flush := flush } := by
  refine ⟨?_, hl, fun b hc hn => ?_, fun b hb' => ?_,
    fun io hio => (hI.io io hio).of_sameBlocks hsame.toSameBlocks, hI.log⟩
  · dsimp only
    rw [stale_congr hsame.isNew]
    exact hI.agrees.of_samePages hsame.toSamePages
  · exact hI.isNew b ((hsame.cached_iff b).1 hc) (by rw [← hsame.isNew, hn])
  · obtain ⟨hc, hn⟩ := hf b hb'
    exact ⟨(hsame.cached_iff b).2 hc, by rw [hsame.isNew, hn]⟩

theorem pop {links : Links BufNode}
    (hpop : listPop s.g.links .dirtyList = (some (.dirty b), links)) :
    GenInv disk { s with g := { s.g with links := links }, flush := .popped b } := by
  obtain ⟨hmem, -, hclosed, hoff⟩ := hI.lists.dirty.pop (.inl rfl) hpop
  have hsame : SameData s.g { s.g with links := links } :=
    ⟨⟨⟨rfl, fun _ => rfl⟩, rfl, fun _ => rfl⟩, fun _ => rfl⟩
  refine hI.of_sameData hsame (hI.lists.of_dirty ⟨rfl, fun _ => rfl⟩ (fun _ => rfl)
    ⟨hclosed, hoff⟩) fun c hc => ?_
  obtain rfl : c = b := by simpa [eq_comm] using hc
  rcases hmem with h | ⟨c', h, hcached, hnew⟩
  · cases h
  · obtain rfl := BufNode.dirty.inj h
    exact ⟨hcached, hnew⟩

theorem write (hf : s.flush = .popped b) :
    GenInv disk { s with g := llWrite s.g b, flush := .written b } := by
  obtain ⟨hb, hnew⟩ := hI.flush b (.inl hf)
  have hblocks : SameBlocks s.g (llWrite s.g b) := ⟨rfl, fun _ => rfl⟩
  refine ⟨hI.agrees.writeBack hb (stale_ne hnew _), hI.lists.congr hblocks (fun _ => rfl) rfl,
    hI.isNew, fun c hc => ?_, fun io hio => (hI.io io hio).of_sameBlocks hblocks, hI.log⟩
  obtain rfl : c = b := by simpa [eq_comm] using hc
  exact ⟨hb, hnew⟩

theorem unlink (hf : s.flush = .written b) :
    GenInv disk { s with g := flushUnlink s.g b, flush := .idle } := by
  obtain ⟨hb, hnew⟩ := hI.flush b (.inr hf)
  have hdirty : bhDirty[1] = false := by decide
  have hisNew : ∀ c, bufIsNew (flushUnlink s.g b) c = bufIsNew s.g c := by
    intro c
    by_cases hc : c = b <;>
      simp [flushUnlink, clearFlag, Gendisk.modify, bufIsNew_eq, hc, hdirty]
  have hblocks := flushUnlink_sameBlocks s.g b
  have hsame : SameData s.g (flushUnlink s.g b) := by
    refine ⟨⟨hblocks, rfl, fun c => ?_⟩, hisNew⟩
    by_cases hc : c = b <;> simp [flushUnlink, clearFlag, Gendisk.modify, hc]
  refine hI.of_sameData hsame (hI.lists.of_dirty hblocks hisNew ?_) fun c hc => ?_
  · exact hI.lists.dirty.del (.inr ⟨b, rfl, hb, hnew⟩)
  · rcases hc with hc | hc <;> cases hc

/-! #### `gen_start_io` -/

theorem begin (hio : s.io = none) {rq : BlkCall} {bios : List Bio}
    (hbios : Covers bios rq.start rq.len) :
    GenInv disk { s with io := some ⟨rq, bios, 0, rq.data, .next⟩ } := by
  refine ⟨?_, hI.lists, fun b hc hn => ?_, hI.flush, ?_, hI.log⟩
  · have hagrees := hI.agrees
    rw [hio] at hagrees
    refine hagrees.congr fun a => ?_
    refine if_neg fun h => ?_
    have hle : rq.start ≤ a := h.2.1
    have hlt : a < rq.start + 0 := h.2.2
    omega
  · obtain ⟨io, hsome, -⟩ := hI.isNew b hc hn
    rw [hio] at hsome
    cases hsome
  · intro io h
    obtain rfl := Option.some_inj.1 h
    refine ⟨?_, Nat.zero_le _, fun _ => rfl, fun _ i hi => absurd hi (Nat.not_lt_zero i),
      fun b hb => absurd hb (by simp [IoPc.buf])⟩
    simpa only [Nat.add_zero, Nat.sub_zero] using hbios

section

variable (hio : s.io = some io)

include hio

theorem finish (hbio : io.bio = []) (hpc : io.pc = .next) :
    GenInv disk { s with io := none, log := (io.rq, io.mem) :: s.log } := by
  have hinv := hI.io io hio
  have hpos : io.pos = io.rq.len := by
    have := hinv.covers
    rw [hbio] at this
    have hle := hinv.pos_le
    simp only [Covers] at this
    omega
  have hdone : io.done = io.rq.len := by rw [IoRq.done, hpc]; exact hpos
  have hagrees := hI.agrees
  rw [hio] at hagrees
  refine ⟨?_, hI.lists, fun b hc hn => ?_, hI.flush, fun io' h => absurd h (by simp), ?_, hI.log⟩
  · have hstale : stale s.g (some io) = none := by simp [stale, hpc]
    rw [hstale] at hagrees
    refine hagrees.congr fun a => ?_
    simp [image, lastByte, hdone]
  · obtain ⟨io', hsome, hfills⟩ := hI.isNew b hc hn
    obtain rfl := Option.some_inj.1 (hio.symm.trans hsome)
    rw [hpc] at hfills
    exact hfills.elim
  · intro hread i hi
    exact hinv.read hread i (by rwa [hdone])

theorem not_isNew (hpc : ∀ b, ¬io.pc.Fills b) (hb : s.g.Cached b) : bufIsNew s.g b = false := by
  by_contra hnew
  obtain ⟨io', hsome, hfills⟩ := hI.isNew b hb (by simpa using hnew)
  obtain rfl := Option.some_inj.1 (hio.symm.trans hsome)
  exact hpc b hfills

/-- A step of `gen_start_io` that creates no buffer. -/
theorem setIo {io' : IoRq} (hblocks : SameBlocks s.g g') (hlists : ListInv g')
    (hagrees : Agrees s.g (image disk s.log (some io)) (stale s.g (some io)) →
      Agrees g' (image disk s.log (some io')) (stale g' (some io')))
    (hnew : ∀ c, bufIsNew g' c = true → bufIsNew s.g c = true ∧ (io.pc.Fills c → io'.pc.Fills c))
    (hinv : IoInv disk s.log g' io') : GenInv disk { s with g := g', io := some io' } := by
  refine ⟨hagrees (hio ▸ hI.agrees), hlists, fun c hc hn => ?_, fun c hc => ?_, fun io₁ h => ?_,
    hI.log⟩
  · obtain ⟨hn, hfills⟩ := hnew c hn
    obtain ⟨io₁, hsome, hf⟩ := hI.isNew c ((hblocks.cached_iff c).1 hc) hn
    obtain rfl := Option.some_inj.1 (hio.symm.trans hsome)
    exact ⟨_, rfl, hfills hf⟩
  · obtain ⟨hcached, hn⟩ := hI.flush c hc
    refine ⟨(hblocks.cached_iff c).2 hcached, Bool.eq_false_iff.2 fun hn' => ?_⟩
    rw [(hnew c hn').1] at hn
    cases hn
  · obtain rfl := Option.some_inj.1 h
    exact hinv

/-- The thread goes on with a buffer for the first `struct bio`, and nothing is copied. -/
theorem goOn {pc : IoPc} (hdone : IoRq.done { io with pc := pc } = io.done) (hpc : pc.buf = some b)
    (hb : s.g.Cached b) (hbio : io.bio = bio :: bs) (hbn : (s.g.buf b).blockno = bio.blockno)
    (hblocks : SameBlocks s.g g') (hlists : ListInv g')
    (hagrees : Agrees s.g (image disk s.log (some io)) (stale s.g (some io)) →
      Agrees g' (image disk s.log (some io)) (stale g' (some { io with pc := pc })))
    (hnew : ∀ c, bufIsNew g' c = true → bufIsNew s.g c = true ∧ (io.pc.Fills c → pc.Fills c)) :
    GenInv disk { s with g := g', io := some { io with pc := pc } } := by
  refine hI.setIo hio hblocks hlists (fun h => ?_) hnew ((hI.io io hio).setPc hdone fun c hc => ?_)
  · rw [image_setPc hdone]
    exact hagrees h
  · obtain rfl := Option.some_inj.1 (hpc.symm.trans hc)
    rw [hblocks.cached_iff, hblocks.blockno]
    exact ⟨hb, bio, bs, hbio, hbn⟩

theorem get_found (hpc : io.pc = .next) (hbio : io.bio = bio :: bs) (hb : s.g.Cached b)
    (hbn : (s.g.buf b).blockno = bio.blockno) :
    GenInv disk { s with g := bhashLru s.g b, io := some { io with pc := .got b } } := by
  have hsame := bhashLru_sameData s.g b
  have hnew : bufIsNew s.g b = false := hI.not_isNew hio (by simp [hpc, IoPc.Fills]) hb
  refine hI.goOn hio (by simp [IoRq.done, hpc]) rfl hb hbio hbn hsame.toSameBlocks
    (hI.lists.lruOf hb) (fun h => ?_) fun c hc => ⟨hsame.isNew c ▸ hc, by simp [hpc, IoPc.Fills]⟩
  have hstale : stale s.g (some io) = none := by simp [stale, hpc]
  have hstale' : stale (bhashLru s.g b) (some { io with pc := .got b }) = none := by
    simp [stale, hsame.isNew, hnew]
  rw [hstale', ← hstale]
  exact h.of_samePages hsame.toSamePages

theorem get_created {fresh : ℕ × BitVec 32} (hpc : io.pc = .next) (hbio : io.bio = bio :: bs)
    (hn : ∀ c, s.g.Cached c → (s.g.buf c).blockno ≠ bio.blockno) (hfresh : ¬s.g.Cached fresh.1) :
    GenInv disk { s with
      g := bhashLru (newBuf s.g bio.blockno fresh.1 fresh.2) fresh.1
      io := some { io with pc := .got fresh.1 } } := by
  have hc := created_newBuf s.g bio.blockno fresh
  generalize newBuf s.g bio.blockno fresh.1 fresh.2 = g₁ at hc ⊢
  have hsame := bhashLru_sameData g₁ fresh.1
  have hself : g₁.Cached fresh.1 := (hc.cached _).2 (.inl rfl)
  have hdone : IoRq.done { io with pc := .got fresh.1 } = io.done := by simp [IoRq.done, hpc]
  refine ⟨?_, (hc.listInv hfresh hI.lists).lruOf hself, fun c hcc hcn => ?_, fun c hcc => ?_,
    fun io' h => ?_, hI.log⟩
  · have hagrees := hI.agrees
    have hstale : stale s.g (some io) = none := by simp [stale, hpc]
    have hstale' : stale (bhashLru g₁ fresh.1) (some { io with pc := .got fresh.1 }) =
        some fresh.1 := by simp [stale, hsame.isNew, hc.isNew]
    rw [hio, hstale] at hagrees
    dsimp only
    rw [hstale', image_setPc hdone]
    exact (hc.agrees hfresh hn hagrees).of_samePages hsame.toSamePages
  · rw [hsame.cached_iff, hc.cached] at hcc
    rcases hcc with rfl | hcc
    · exact ⟨_, rfl, rfl⟩
    · have hne : c ≠ fresh.1 := fun e => hfresh (e ▸ hcc)
      rw [hsame.isNew, hc.isNew, if_neg hne,
        hI.not_isNew hio (by simp [hpc, IoPc.Fills]) hcc] at hcn
      cases hcn
  · obtain ⟨hcached, hnew⟩ := hI.flush c hcc
    have hne : c ≠ fresh.1 := fun e => hfresh (e ▸ hcached)
    rw [hsame.cached_iff, hc.cached, hsame.isNew, hc.isNew, if_neg hne]
    exact ⟨.inr hcached, hnew⟩
  · obtain rfl := Option.some_inj.1 h
    refine (hI.io io hio).setPc hdone fun c hcc => ?_
    obtain rfl := Option.some_inj.1 hcc
    exact ⟨(hsame.cached_iff _).2 hself, bio, bs, hbio, (hsame.blockno _).trans hc.blockno⟩

theorem get (hpc : io.pc = .next) (hbio : io.bio = bio :: bs) (fresh : ℕ × BitVec 32)
    (hfresh : ∀ k < bhashSize, fresh.1 ∉ s.g.buckets k) :
    GenInv disk { s with
      g := (bufGet s.g bio.blockno fresh).2
      io := some { io with pc := .got (bufGet s.g bio.blockno fresh).1 } } := by
  rcases bufGet_cases s.g bio.blockno fresh with ⟨b, hb, hbn, heq⟩ | ⟨hn, heq⟩
  · rw [heq]
    exact hI.get_found hio hpc hbio hb hbn
  · rw [heq]
    exact hI.get_created hio hpc hbio hn (not_cached_of_fresh hfresh)

/-- The buffer of the block of the first `struct bio`, which the thread has pinned. -/
theorem buf_of_pc (hbio : io.bio = bio :: bs) (hpc : io.pc.buf = some b) :
    s.g.Cached b ∧ (s.g.buf b).blockno = bio.blockno := by
  obtain ⟨hb, bio', bs', hbio', hbn⟩ := (hI.io io hio).buf b hpc
  obtain ⟨rfl, -⟩ := List.cons.inj (hbio.symm.trans hbio')
  exact ⟨hb, hbn⟩

theorem pin (hpc : io.pc = .got b) :
    GenInv disk { s with io := some { io with pc := .pinned b } } := by
  obtain ⟨hb, bio, bs, hbio, hbn⟩ := (hI.io io hio).buf b (by rw [hpc]; rfl)
  refine hI.goOn hio (by simp [IoRq.done, hpc]) rfl hb hbio hbn ⟨rfl, fun _ => rfl⟩ hI.lists
    (fun h => ?_) fun c hc => ⟨hc, by simp [hpc, IoPc.Fills]⟩
  have hstale : stale s.g (some { io with pc := .pinned b }) = stale s.g (some io) := by
    simp [stale, hpc]
  rwa [hstale]

theorem load (hpc : io.pc = .pinned b) (hbio : io.bio = bio :: bs) :
    GenInv disk { s with
      g := if needsRead s.g io.rq.isWrite bio b then llRead s.g b else s.g
      io := some { io with pc := .loaded b } } := by
  obtain ⟨hb, hbn⟩ := hI.buf_of_pc hio hbio (by rw [hpc]; rfl)
  have hdone : IoRq.done { io with pc := .loaded b } = io.done := by simp [IoRq.done, hpc]
  have hstale : stale s.g (some io) = if bufIsNew s.g b then some b else none := by
    simp [stale, hpc]
  have hfills (c : ℕ) : io.pc.Fills c → IoPc.Fills (.loaded b) c := by simp [hpc, IoPc.Fills]
  by_cases hread : needsRead s.g io.rq.isWrite bio b = true
  · have hisNew (c : ℕ) : bufIsNew (llRead s.g b) c = bufIsNew s.g c := by
      by_cases hc : c = b <;> simp [llRead, Gendisk.modify, bufIsNew_eq, hc]
    have hblocks := llRead_sameBlocks s.g b
    have hnew : bufIsNew s.g b = true := by
      unfold needsRead at hread
      split_ifs at hread
      · exact (Bool.and_eq_true_iff.1 hread).2
      · exact hread
    rw [if_pos hread]
    refine hI.goOn hio hdone rfl hb hbio hbn hblocks (hI.lists.congr hblocks hisNew rfl)
      (fun h => ?_) fun c hc => ⟨hisNew c ▸ hc, hfills c⟩
    have hread' : needsRead (llRead s.g b) io.rq.isWrite bio b = true := by
      rw [← hread]
      simp only [needsRead, hisNew]
    have hstale' : stale (llRead s.g b) (some { io with pc := .loaded b }) = none := by
      simp [stale, hbio, hread']
    rw [hstale, hnew, if_pos rfl] at h
    rw [hstale']
    exact h.load hb
  · rw [if_neg hread]
    refine hI.goOn hio hdone rfl hb hbio hbn ⟨rfl, fun _ => rfl⟩ hI.lists (fun h => ?_)
      fun c hc => ⟨hc, hfills c⟩
    have hstale' : stale s.g (some { io with pc := .loaded b }) = stale s.g (some io) := by
      rw [hstale]
      simp [stale, hbio, Bool.eq_false_iff.2 hread]
    rwa [hstale']

theorem release (hpc : io.pc = .copied b) :
    GenInv disk { s with
      g := bufRelease s.g b io.rq.isWrite
      io := some { io with pc := .released b } } := by
  obtain ⟨hsame, hnew⟩ := bufRelease_frame s.g b io.rq.isWrite
  obtain ⟨hb, bio, bs, hbio, hbn⟩ := (hI.io io hio).buf b (by rw [hpc]; rfl)
  refine hI.goOn hio (by simp [IoRq.done, hpc, hbio]) rfl hb hbio hbn hsame.toSameBlocks
    (hI.lists.release hb _) (fun h => ?_) fun c hc => ?_
  · have hstale : stale s.g (some io) = none := by simp [stale, hpc]
    rw [hstale] at h
    exact h.of_samePages hsame
  · rw [hnew] at hc
    split_ifs at hc with hcb
    refine ⟨hc, fun hf => ?_⟩
    rw [hpc] at hf
    exact absurd hf.symm hcb

theorem unpin (hpc : io.pc = .released b) (hbio : io.bio = bio :: bs) :
    GenInv disk { s with
      io := some { io with bio := bs, pos := io.pos + bio.len, pc := .next } } := by
  have hinv := hI.io io hio
  have hcovers := hinv.covers
  rw [hbio] at hcovers
  obtain ⟨-, -, hlen, -, hrest⟩ := hcovers
  have hdone : io.done = io.pos + bio.len := by simp [IoRq.done, hpc, hbio]
  have hdone' : IoRq.done { io with bio := bs, pos := io.pos + bio.len, pc := .next } =
      io.pos + bio.len := rfl
  refine hI.setIo hio ⟨rfl, fun _ => rfl⟩ hI.lists (fun h => ?_) (fun c hc => ⟨hc, ?_⟩) ?_
  · have hstale : stale s.g (some io) = none := by simp [stale, hpc]
    rw [hstale] at h
    refine h.congr fun a => ?_
    simp only [image, hdone, hdone']
  · simp [hpc, IoPc.Fills]
  · have hle := hinv.pos_le
    refine ⟨?_, by dsimp only; omega, hinv.write, fun hread i hi => hinv.read hread i ?_,
      fun c hc => absurd hc (by simp [IoPc.buf])⟩
    · dsimp only
      rwa [← Nat.add_assoc, Nat.sub_add_eq]
    · rw [hdone]
      exact hi

/-- After a copy of a read, the memory of the caller has the bytes of the page. -/
theorem copy_read (hpc : io.pc = .loaded b) (hbio : io.bio = bio :: bs)
    (hread : io.rq.isWrite = false) :
    GenInv disk { s with
      io := some { io with
        mem := patch io.mem io.pos (slice (s.g.buf b).page bio.offset bio.len)
        pc := .copied b } } := by
  obtain ⟨hb, hbn⟩ := hI.buf_of_pc hio hbio (by rw [hpc]; rfl)
  have hinv := hI.io io hio
  have hcovers := hinv.covers
  rw [hbio] at hcovers
  obtain ⟨-, hend, -, haddr, -⟩ := hcovers
  have hagrees := hI.agrees
  have hstale : stale s.g (some io) = none := by simp [stale, hpc, hbio, needsRead, hread]
  rw [hio, hstale] at hagrees
  have himage : ∀ a, image disk s.log (some io) a = lastByte disk s.log a := fun a =>
    if_neg (by simp [hread])
  refine hI.setIo hio ⟨rfl, fun _ => rfl⟩ hI.lists (fun _ => hagrees.congr fun a => ?_)
    (fun c hc => ⟨hc, by simp [hpc, IoPc.Fills]⟩) ?_
  · rw [himage]
    exact if_neg (by simp [hread])
  · refine ⟨hinv.covers, hinv.pos_le, fun hwrite => ?_, fun _ i hi => ?_, fun c hc => ?_⟩
    · rw [hread] at hwrite
      cases hwrite
    · have hi : i < io.pos + bio.len := by simpa [IoRq.done, hbio] using hi
      dsimp only
      by_cases hlt : i < io.pos
      · rw [patch_of_lt hlt]
        exact hinv.read hread i (by simpa [IoRq.done, hpc] using hlt)
      · have hlen : i - io.pos < bio.len := by omega
        have hpage := hagrees.page b hb (by simp) (bio.offset + (i - io.pos)) (by omega)
        rw [hbn, himage] at hpage
        rw [patch_of_mem (by omega) (by rwa [length_slice])]
        simp only [slice, List.getElem_map, List.getElem_range]
        have ha : bio.blockno * blkSize + (bio.offset + (i - io.pos)) = io.rq.start + i := by omega
        rw [hpage, ha]
    · obtain rfl := Option.some_inj.1 hc
      exact ⟨hb, bio, bs, hbio, hbn⟩

/-- After a copy of a write, the page has the bytes of the memory of the caller. -/
theorem copy_write (hpc : io.pc = .loaded b) (hbio : io.bio = bio :: bs)
    (hwrite : io.rq.isWrite = true) :
    GenInv disk { s with
      g := copyPage s.g b (patch (s.g.buf b).page bio.offset (slice io.mem io.pos bio.len))
      io := some { io with pc := .copied b } } := by
  obtain ⟨hb, hbn⟩ := hI.buf_of_pc hio hbio (by rw [hpc]; rfl)
  have hinv := hI.io io hio
  have hcovers := hinv.covers
  rw [hbio] at hcovers
  obtain ⟨-, hend, -, haddr, -⟩ := hcovers
  have hblocks := copyPage_sameBlocks s.g b
    (patch (s.g.buf b).page bio.offset (slice io.mem io.pos bio.len))
  have hisNew : ∀ c, bufIsNew (copyPage s.g b
      (patch (s.g.buf b).page bio.offset (slice io.mem io.pos bio.len))) c = bufIsNew s.g c := by
    intro c
    by_cases hc : c = b <;> simp [copyPage, Gendisk.modify, bufIsNew_eq, hc]
  have hdone : IoRq.done { io with pc := .copied b } = io.pos + bio.len := by
    simp [IoRq.done, hbio]
  have hpos : io.done = io.pos := by simp [IoRq.done, hpc]
  -- the copied bytes are added to the array
  have himage : ∀ a, (a < io.rq.start + io.pos ∨ io.rq.start + io.pos + bio.len ≤ a) →
      image disk s.log (some { io with pc := .copied b }) a = image disk s.log (some io) a := by
    intro a ha
    have hiff : a < io.rq.start + (io.pos + bio.len) ∧ io.rq.start ≤ a ↔
        a < io.rq.start + io.pos ∧ io.rq.start ≤ a := by omega
    simp only [image, hdone, hpos, and_comm (a := io.rq.start ≤ a), hiff]
  have hdata : ∀ k < bio.len, image disk s.log (some { io with pc := .copied b })
      (io.rq.start + io.pos + k) = io.mem (io.pos + k) := by
    intro k hk
    rw [image, hdone, if_pos ⟨hwrite, by dsimp only; omega, by dsimp only; omega⟩,
      hinv.write hwrite]
    congr 1
    dsimp only
    omega
  refine hI.setIo hio hblocks (hI.lists.congr hblocks hisNew rfl) (fun hagrees => ?_)
    (fun c hc => ⟨hisNew c ▸ hc, by simp [hpc, IoPc.Fills]⟩) ?_
  · refine hagrees.store hb ?_ (fun i hi => ?_) fun n hn i hi => himage _ ?_
    · simp only [stale, hpc, hbio]
      split_ifs
      · exact .inr rfl
      · exact .inl rfl
    · rw [hbn]
      by_cases hin : bio.offset ≤ i ∧ i < bio.offset + bio.len
      · have hlen : i - bio.offset < bio.len := by omega
        rw [patch_of_mem hin.1 (by rwa [length_slice])]
        simp only [slice, List.getElem_map, List.getElem_range]
        have ha : io.rq.start + io.pos + (i - bio.offset) = bio.blockno * blkSize + i := by omega
        rw [← hdata _ hlen, ha]
      · have hpatch : patch (s.g.buf b).page bio.offset (slice io.mem io.pos bio.len) i =
            (s.g.buf b).page i := by
          by_cases hlt : i < bio.offset
          · exact patch_of_lt hlt
          · exact patch_of_ge (by rw [length_slice]; omega)
        have hstale : stale s.g (some io) ≠ some b := by
          simp only [stale, hpc, hbio]
          split_ifs with hnew
          · -- the buffer is not filled only if the whole block is written
            simp only [needsRead, hwrite, if_true, Bool.and_eq_true, Bool.not_eq_true',
              Bool.and_eq_false_iff, Bool.not_eq_false', beq_iff_eq] at hnew
            rcases hnew.2 with hfull | hold
            · omega
            · rw [hnew.1] at hold
              cases hold
          · simp
        rw [hpatch, hagrees.page b hb hstale i hi, hbn, himage _ (by omega)]
    · rw [hbn] at hn
      simp only [blkSize] at hi hend haddr ⊢
      omega
  · refine ⟨hinv.covers, hinv.pos_le, hinv.write, fun hread => ?_, fun c hc => ?_⟩
    · rw [hwrite] at hread
      cases hread
    · obtain rfl := Option.some_inj.1 hc
      exact ⟨(hblocks.cached_iff b).2 hb, bio, bs, hbio, (hblocks.blockno b).trans hbn⟩

theorem copy (hpc : io.pc = .loaded b) (hbio : io.bio = bio :: bs) :
    GenInv disk { s with
      g := (copyBio s.g io bio b).1
      io := some { io with mem := (copyBio s.g io bio b).2, pc := .copied b } } := by
  cases hw : io.rq.isWrite with
  | false =>
    simp only [copyBio, hw, Bool.false_eq_true, if_false]
    exact hI.copy_read hio hpc hbio hw
  | true =>
    simp only [copyBio, hw, if_true]
    exact hI.copy_write hio hpc hbio hw

theorem ioStep {io' : IoRq} (h : IoStep s.g io g' io') :
    GenInv disk { s with g := g', io := some io' } := by
  cases h with
  | spin => rw [← hio]; exact hI
  | get hpc hbio _ hfresh => exact hI.get hio hpc hbio _ hfresh
  | pin hpc => exact hI.pin hio hpc
  | load hpc hbio => exact hI.load hio hpc hbio
  | copy hpc hbio => exact hI.copy hio hpc hbio
  | release hpc => exact hI.release hio hpc
  | unpin hpc hbio => exact hI.unpin hio hpc hbio

end

theorem step {s' : GenState} {e : GenEvent} (h : GenStep s e s') : GenInv disk s' := by
  cases e with
  | begin rq =>
    obtain ⟨hio, ⟨hlen, hrange, hblocks⟩, bios, hbios, rfl⟩ := h
    obtain ⟨bios', hbios', hcovers⟩ := bioListMake_covers hlen hrange hblocks
    obtain rfl := Except.ok.inj (hbios.symm.trans hbios')
    exact hI.begin hio hcovers
  | io =>
    obtain ⟨io, g', io', hio, hstep, rfl⟩ := h
    exact hI.ioStep hio hstep
  | finish =>
    obtain ⟨io, hio, hbio, hpc, rfl⟩ := h
    exact hI.finish hio hbio hpc
  | pop =>
    obtain ⟨-, b, links, hpop, rfl⟩ := h
    exact hI.pop hpop
  | write =>
    obtain ⟨b, hf, -, rfl⟩ := h
    exact hI.write hf
  | unlink =>
    obtain ⟨b, hf, rfl⟩ := h
    exact hI.unlink hf

end GenInv

theorem GenState.Start.inv {disk : ℕ → Block} {s : GenState} (h : s.Start disk) :
    GenInv disk s := by
  obtain ⟨rfl, hbuckets, hflush, hio, hlog, hlists⟩ := h
  have hcached : ∀ b, ¬s.g.Cached b := by
    intro b hb
    rw [Gendisk.Cached, hbuckets] at hb
    cases hb
  have hnode : ∀ n ∈ [BufNode.activeList, .inactiveList, .dirtyList], ∀ S : Set BufNode, n ∈ S →
      s.g.links.next n ∈ S ∧ s.g.links.prev n ∈ S := by
    intro n hn S hS
    rw [(hlists n hn).1, (hlists n hn).2]
    exact ⟨hS, hS⟩
  refine ⟨⟨fun b _ hb => absurd hb (hcached b), fun b hb => absurd hb (hcached b),
    fun n _ i hi => ?_⟩, ⟨?_, ?_, fun b hb => absurd hb (hcached b)⟩,
    fun b hb => absurd hb (hcached b), fun b hb => ?_, fun io h => ?_, ?_⟩
  · rw [hio, hlog]
    have hdiv : (n * blkSize + i) / blkSize = n := by
      simp only [blkSize] at hi ⊢
      omega
    have hmod : (n * blkSize + i) % blkSize = i := by
      simp only [blkSize] at hi ⊢
      omega
    simp only [image, lastByte, hdiv, hmod]
  · rintro n (rfl | ⟨b, -, hb, -⟩)
    · exact hnode _ (by simp) _ (.inl rfl)
    · exact absurd hb (hcached b)
  · rintro n (rfl | rfl | ⟨b, -, hb⟩)
    · exact hnode _ (by simp) _ (.inl rfl)
    · exact hnode _ (by simp) _ (.inr (.inl rfl))
    · exact absurd hb (hcached b)
  · rw [hflush] at hb
    rcases hb with hb | hb <;> cases hb
  · rw [hio] at h
    cases h
  · rw [hlog]
    trivial

/-! ### Calls are served -/

theorem exists_fresh (g : Gendisk) : ∃ b, ∀ k < bhashSize, b ∉ g.buckets k := by
  obtain ⟨b, hb⟩ := Infinite.exists_notMem_finset
    ((Finset.range bhashSize).biUnion fun k => (g.buckets k).toFinset)
  refine ⟨b, fun k hk hmem => hb ?_⟩
  exact Finset.mem_biUnion.2 ⟨k, Finset.mem_range.2 hk, List.mem_toFinset.2 hmem⟩

section Serves

variable {disk : ℕ → Block} {s s' : GenState} {g' : Gendisk} {io io' : IoRq} {rq : BlkCall}

theorem Serves.of_step (hstep : ServeStep s s') (hlog : s'.log = s.log) (h : Serves s' rq) :
    Serves s rq := by
  obtain ⟨t, mem, hrun, hio, ht⟩ := h
  exact ⟨t, mem, .head hstep hrun, hio, by rw [ht, hlog]⟩

theorem Serves.of_ioStep (hio : s.io = some io) (hstep : IoStep s.g io g' io')
    (h : Serves { s with g := g', io := some io' } rq) : Serves s rq :=
  h.of_step (.inl ⟨io, g', io', hio, hstep, rfl⟩) rfl

/-- The steps up to the end of the chain. -/
def IoRq.left (io : IoRq) : ℕ :=
  6 * io.bio.length - match io.pc with
    | .next => 0
    | .got _ => 1
    | .pinned _ => 2
    | .loaded _ => 3
    | .copied _ => 4
    | .released _ => 5

/-- As long as there is a `struct bio`, the thread can take a step towards the end. -/
theorem GenInv.exists_ioStep (hI : GenInv disk s) (hio : s.io = some io) (hne : io.bio ≠ []) :
    ∃ g' io', IoStep s.g io g' io' ∧ io'.rq = io.rq ∧ io'.left < io.left := by
  obtain ⟨bio, bs, hbio⟩ := List.exists_cons_of_ne_nil hne
  have hleft : 6 * (bio :: bs).length = 6 * bs.length + 6 := rfl
  cases hpc : io.pc with
  | next =>
    obtain ⟨b, hfresh⟩ := exists_fresh s.g
    have hcovers := (hI.io io hio).covers
    rw [hbio] at hcovers
    have hlen : bio.len ≠ 0 := Nat.one_le_iff_ne_zero.1 hcovers.1
    refine ⟨_, _, @IoStep.get _ _ _ _ (b, 0) hpc hbio hlen hfresh, rfl, ?_⟩
    simp only [IoRq.left, hpc, hbio]
    omega
  | got b =>
    refine ⟨_, _, .pin hpc, rfl, ?_⟩
    simp only [IoRq.left, hpc, hbio]
    omega
  | pinned b =>
    refine ⟨_, _, .load hpc hbio, rfl, ?_⟩
    simp only [IoRq.left, hpc, hbio]
    omega
  | loaded b =>
    refine ⟨_, _, .copy hpc hbio, rfl, ?_⟩
    simp only [IoRq.left, hpc, hbio]
    omega
  | copied b =>
    refine ⟨_, _, .release hpc, rfl, ?_⟩
    simp only [IoRq.left, hpc, hbio]
    omega
  | released b =>
    refine ⟨_, _, .unpin hpc hbio, rfl, ?_⟩
    simp only [IoRq.left, hpc, hbio]
    omega

/-- The thread works off the rest of the chain. -/
theorem GenInv.serves (hI : GenInv disk s) (hio : s.io = some io) : Serves s io.rq := by
  induction hn : io.left using Nat.strong_induction_on generalizing s io with
  | _ n ih =>
    by_cases hbio : io.bio = []
    · have hpc : io.pc = .next := by
        cases hpc : io.pc with
        | next => rfl
        | _ b =>
          obtain ⟨-, bio, bs, hbio', -⟩ := (hI.io io hio).buf b (by rw [hpc]; rfl)
          rw [hbio] at hbio'
          cases hbio'
      exact ⟨_, io.mem, .single (.inr (.inl ⟨io, hio, hbio, hpc, rfl⟩)), rfl, rfl⟩
    · obtain ⟨g', io', hstep, hrq, hlt⟩ := hI.exists_ioStep hio hbio
      have hrest := ih _ (hn ▸ hlt) (hI.ioStep hio hstep) rfl rfl
      rw [← hrq]
      exact .of_ioStep hio hstep hrest

end Serves

/-- The block layer is a flat array of bytes in every run. A read returns what has last been written
at its place, or else the byte of the disk, whether or not the block has been in a buffer in the
meantime, and every call is served. -/
theorem flatArray_of_reachable {disk : ℕ → Block} {s : GenState}
    (h : Reachable (GenState.Start disk) GenStep s) : FlatArray disk s := by
  have hI : GenInv disk s :=
    h.invariant (fun _ => GenState.Start.inv) fun _ _ _ hI hstep => hI.step hstep
  refine ⟨hI.log, hI.agrees.unique, fun io => hI.serves, fun hio rq hrq => ?_⟩
  obtain ⟨bios, hbios, hcovers⟩ := bioListMake_covers hrq.1 hrq.2.1 hrq.2.2
  exact .of_step (.inr (.inr ⟨rq, hio, hrq, bios, hbios, rfl⟩)) rfl
    ((hI.begin hio hcovers).serves rfl)

/-- A device that has been set up, with one buffer in store. -/
def emptyCache : GenState where
  g := ⟨fun _ _ => 9, fun _ => [], fun _ => ⟨0, 0, fun _ => 0⟩, Links.isolated, 0, 0⟩
  flush := .idle
  io := none
  log := []

/-- A byte is written to a block that is in no buffer, and read back with the next one. -/
theorem flatArray_two_calls : ∃ s, Reachable (GenState.Start fun _ _ => 9) GenStep s ∧
    FlatArray (fun _ _ => 9) s ∧
      ∃ rq mem log, s.log = (rq, mem) :: log ∧ mem 0 = 7 ∧ mem 1 = 9 := by
  have h₀ : Reachable (GenState.Start fun _ _ => 9) GenStep emptyCache :=
    .start ⟨rfl, fun _ => rfl, rfl, rfl, rfl, fun _ _ => ⟨rfl, rfl⟩⟩
  have h₁ := h₀.next (a := GenEvent.begin ⟨true, 2, 5, 1, fun _ => 7⟩)
    ⟨rfl, ⟨by decide, by decide, by decide⟩, _, rfl, rfl⟩
  have h₂ := h₁.next (a := GenEvent.io)
    ⟨_, _, _, rfl, @IoStep.get _ _ _ _ (0, 0) rfl rfl (by decide) (by simp [emptyCache]), rfl⟩
  have h₃ := h₂.next (a := GenEvent.io) ⟨_, _, _, rfl, .pin rfl, rfl⟩
  have h₄ := h₃.next (a := GenEvent.io) ⟨_, _, _, rfl, .load rfl rfl, rfl⟩
  have h₅ := h₄.next (a := GenEvent.io) ⟨_, _, _, rfl, .copy rfl rfl, rfl⟩
  have h₆ := h₅.next (a := GenEvent.io) ⟨_, _, _, rfl, .release rfl, rfl⟩
  have h₇ := h₆.next (a := GenEvent.io) ⟨_, _, _, rfl, .unpin rfl rfl, rfl⟩
  have h₈ := h₇.next (a := GenEvent.finish) ⟨_, rfl, rfl, rfl, rfl⟩
  have h₉ := h₈.next (a := GenEvent.begin ⟨false, 2, 5, 2, fun _ => 0⟩)
    ⟨rfl, ⟨by decide, by decide, by decide⟩, _, rfl, rfl⟩
  have h₁₀ := h₉.next (a := GenEvent.io)
    ⟨_, _, _, rfl, @IoStep.get _ _ _ _ (1, 0) rfl rfl (by decide) (by decide), rfl⟩
  have h₁₁ := h₁₀.next (a := GenEvent.pop) ⟨rfl, 0, _, rfl, rfl⟩
  have h₁₂ := h₁₁.next (a := GenEvent.io) ⟨_, _, _, rfl, .pin rfl, rfl⟩
  have h₁₃ := h₁₂.next (a := GenEvent.io) ⟨_, _, _, rfl, .load rfl rfl, rfl⟩
  have h₁₄ := h₁₃.next (a := GenEvent.io) ⟨_, _, _, rfl, .copy rfl rfl, rfl⟩
  have h₁₅ := h₁₄.next (a := GenEvent.io) ⟨_, _, _, rfl, .release rfl, rfl⟩
  have h₁₆ := h₁₅.next (a := GenEvent.io) ⟨_, _, _, rfl, .unpin rfl rfl, rfl⟩
  have h₁₇ := h₁₆.next (a := GenEvent.finish) ⟨_, rfl, rfl, rfl, rfl⟩
  exact ⟨_, h₁₇, flatArray_of_reachable h₁₇, _, _, _, rfl, by decide, by decide⟩

end RiscvLab.Blk
