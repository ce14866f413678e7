import RiscvLab.Blk.Buf
import RiscvLab.Library.Reachable

/-!
# Writing back the buffers

`buf_release` puts a buffer that has been written to at the head of `dirty_list`, and the thread
`flush_bhash` takes buffers off the list, writes their pages to the device and unlinks them once
more. Neither `list_pop` nor `list_del` resets the node that it takes off. `buf_release` calls
`list_del` for the node of its buffer whenever the list is not empty. For a node that is on the
list, or has never been on it, this is right. But a node that an earlier round of `flush_bhash` has
taken off is linked to the head of the list and to its old neighbour: `list_del` links these two,
and all buffers that are on the list are lost (`exists_lost_buffer`).

## Main definitions

* `flushLoop` : a round of `flush_bhash`.
* `Durable` : after a round the device has what the pages have.
* `FlushState`, `FlushStep` : the thread that writes to buffers, and `flush_bhash`, step by step.
* `NoLostWrite` : a page that differs from its block on the device is to be written.

## Main results

* `durable_of_reachable`, `noLostWrite_of_reachable`.

Source: `kernel/dev/blk/flush.c`, lines 57–91; `kernel/dev/blk/buf.c`, lines 176–203;
`kernel/dev/blk/gendisk.c`, lines 105–133.
-/

namespace RiscvLab.Blk

open Library

/-- The page of a buffer is what is on the device. -/
def Gendisk.Saved (g : Gendisk) (b : ℕ) : Prop := (g.buf b).page = g.disk (g.buf b).blockno

/-- The data of a block are copied to a buffer. -/
def copyPage (g : Gendisk) (b : ℕ) (page : Block) : Gendisk :=
  g.modify b fun h => { h with page := page }

/-- The end of the body of the loop of `flush_bhash`. -/
def flushUnlink (g : Gendisk) (b : ℕ) : Gendisk :=
  let g := clearFlag g b bhDirty
  { g with links := listDel g.links (.dirty b) }

theorem SameBlocks.unique {g g' : Gendisk} (h : SameBlocks g g')
    (hu : ∀ b c, g.Cached b → g.Cached c → (g.buf b).blockno = (g.buf c).blockno → b = c) :
    ∀ b c, g'.Cached b → g'.Cached c → (g'.buf b).blockno = (g'.buf c).blockno → b = c := by
  intro b c hb hc heq
  rw [h.blockno, h.blockno] at heq
  exact hu b c ((h.cached_iff b).1 hb) ((h.cached_iff c).1 hc) heq

theorem copyPage_sameBlocks (g : Gendisk) (b : ℕ) (page : Block) :
    SameBlocks g (copyPage g b page) := by
  refine ⟨rfl, fun c => ?_⟩
  by_cases hc : c = b <;> simp [copyPage, Gendisk.modify, hc]

theorem saved_copyPage {g : Gendisk} {b c : ℕ} {page : Block} (hc : c ≠ b) :
    (copyPage g b page).Saved c ↔ g.Saved c := by
  simp [Gendisk.Saved, copyPage, Gendisk.modify, hc]

theorem bufRelease_sameBlocks (g : Gendisk) (b : ℕ) (isDirty : Bool) :
    SameBlocks g (bufRelease g b isDirty) := (bufRelease_frame g b isDirty).1.toSameBlocks

theorem saved_bufRelease (g : Gendisk) (b : ℕ) (isDirty : Bool) (c : ℕ) :
    (bufRelease g b isDirty).Saved c ↔ g.Saved c := by
  have h := (bufRelease_frame g b isDirty).1
  rw [Gendisk.Saved, Gendisk.Saved, h.disk, h.blockno, h.page]

theorem flushUnlink_sameBlocks (g : Gendisk) (b : ℕ) : SameBlocks g (flushUnlink g b) := by
  refine ⟨rfl, fun c => ?_⟩
  by_cases hc : c = b <;> simp [flushUnlink, clearFlag, Gendisk.modify, hc]

theorem saved_flushUnlink {g : Gendisk} {b c : ℕ} : (flushUnlink g b).Saved c ↔ g.Saved c := by
  by_cases hc : c = b <;> simp [Gendisk.Saved, flushUnlink, clearFlag, Gendisk.modify, hc]

theorem saved_llWrite {g : Gendisk} {b : ℕ} : (llWrite g b).Saved b := by
  simp [Gendisk.Saved, llWrite]

theorem saved_llWrite_of_ne {g : Gendisk} {b c : ℕ}
    (h : (g.buf c).blockno ≠ (g.buf b).blockno) : (llWrite g b).Saved c ↔ g.Saved c := by
  simp [Gendisk.Saved, llWrite, h]

/-! ### The list -/

/-- The neighbours of the node of a buffer are linked to each other: `list_del` changes nothing. -/
def Loose (links : Links BufNode) (b : ℕ) : Prop :=
  links.next (links.prev (.dirty b)) = links.next (.dirty b) ∧
    links.prev (links.next (.dirty b)) = links.prev (.dirty b)

section Ring

variable {links : Links BufNode} {l : List ℕ} {b c : ℕ}

section

variable (hr : IsRing links .dirtyList (l.map .dirty))

include hr

theorem mem_iff_of_ring : OnRing links .dirtyList (.dirty b) ↔ b ∈ l := by
  rw [hr.onRing_iff]
  simp

theorem nil_or_mem_or_loose
    (h : listEmpty links .dirtyList = true ∨ OnRing links .dirtyList (.dirty b) ∨ Loose links b) :
    l = [] ∨ b ∈ l ∨ Loose links b := by
  refine h.imp (fun hempty => ?_) (Or.imp_left (mem_iff_of_ring hr).1)
  simpa [listEmpty, hr.next_head_eq_iff] using hempty

theorem head?_of_ring (h : links.next .dirtyList = .dirty b) : l.head? = some b := by
  cases l with
  | nil =>
    rw [hr.next_head_eq_iff.2 rfl] at h
    cases h
  | cons c l =>
    have hc : links.next .dirtyList = .dirty c := hr.seg.1.1
    rw [hc] at h
    rw [List.head?_cons, BufNode.dirty.inj h]

/-- `list_del` of a node on the list, or of a loose one. -/
theorem ring_listDel (hb : b ∈ l ∨ Loose links b) :
    IsRing (listDel links (.dirty b)) .dirtyList ((l.erase b).map .dirty) := by
  have hnd : l.Nodup := List.Nodup.of_map _ (List.nodup_cons.1 hr.nodup).2
  by_cases hl : b ∈ l
  · obtain ⟨l₁, l₂, rfl⟩ := List.append_of_mem hl
    have hb₁ : b ∉ l₁ := fun h =>
      (List.nodup_append.1 hnd).2.2 b h b List.mem_cons_self rfl
    rw [List.erase_append_right _ hb₁, List.erase_cons_head, List.map_append]
    rw [List.map_append, List.map_cons] at hr
    exact hr.bypass
  · obtain ⟨hn, hp⟩ := hb.resolve_left hl
    rwa [listDel_eq_self hn hp, List.erase_of_not_mem hl]

/-- `buf_release` puts the buffer at the head of the list. -/
theorem ring_dirtyLink (hb : l = [] ∨ b ∈ l ∨ Loose links b) :
    IsRing (dirtyLink links b) .dirtyList ((b :: l.erase b).map .dirty) := by
  have hnd : l.Nodup := List.Nodup.of_map _ (List.nodup_cons.1 hr.nodup).2
  have hmem : BufNode.dirty b ∉ .dirtyList :: (l.erase b).map .dirty := by
    simpa using hnd.not_mem_erase
  unfold dirtyLink
  by_cases hempty : listEmpty links .dirtyList = true
  · have hl : l = [] := by simpa [listEmpty, hr.next_head_eq_iff] using hempty
    subst hl
    rw [if_pos hempty]
    exact hr.insert_head hmem
  · have hl : l ≠ [] := by
      rintro rfl
      exact hempty (by simp [listEmpty, hr.next_head_eq_iff])
    rw [if_neg hempty]
    exact (ring_listDel hr (hb.resolve_left hl)).insert_head hmem

end

/-- A buffer that is first on the list stays there. -/
theorem dirtyLink_first (hr : IsRing links .dirtyList ((b :: l).map .dirty)) :
    dirtyLink links b = links := by
  have hne : listEmpty links .dirtyList ≠ true := by simp [listEmpty, hr.next_head_eq_iff]
  have hback : links.prev (links.next (.dirty b)) = .dirty b := by
    cases l with
    | nil =>
      rw [hr.seg.2.1]
      exact hr.seg.2.2
    | cons c l =>
      rw [hr.seg.2.1.1]
      exact hr.seg.2.1.2
  rw [dirtyLink, if_neg hne]
  exact listAddHead_listDel hr.seg.1.1 hr.seg.1.2 hback

theorem loose_listDel (hn : links.next (.dirty b) ≠ .dirty b)
    (hp : links.prev (.dirty b) ≠ .dirty b) : Loose (listDel links (.dirty b)) b := by
  rw [Loose, listDel_prev links _ (.dirty b), if_neg hn.symm, listDel_next links _ (.dirty b),
    if_neg hp.symm, listDel_next, if_pos rfl, listDel_prev, if_pos rfl]
  exact ⟨rfl, rfl⟩

end Ring

/-! ### The threads -/

/-- Where `flush_bhash` is: it has taken no buffer off the list, it has taken one off, or it has
written this one to the device. -/
inductive FlushPc
  | idle
  | popped (b : ℕ)
  | written (b : ℕ)
  deriving DecidableEq

/-- Where the thread is that writes to buffers. -/
inductive WriterPc
  | idle
  | pinned (b : ℕ)
  | copied (b : ℕ)
  | released (b : ℕ)
  deriving DecidableEq

/-- The thread has the lock of the buffer. -/
def WriterPc.Pins : WriterPc → ℕ → Prop
  | .idle, _ => False
  | .pinned b, c | .copied b, c | .released b, c => b = c

structure FlushState where
  g : Gendisk
  flush : FlushPc
  writer : WriterPc

inductive FlushEvent
  | pin (b : ℕ)
  | copy (page : Block)
  | release
  | unpin
  | pop
  | write
  | unlink

/-- A step of one of the two threads. `flush_bhash` has the lock of the buffer while it writes. -/
def FlushStep (s : FlushState) (e : FlushEvent) (s' : FlushState) : Prop :=
  match e with
  | .pin b => s.writer = .idle ∧ s.g.Cached b ∧ s' = { s with writer := .pinned b }
  | .copy page => ∃ b, s.writer = .pinned b ∧
      s' = { s with g := copyPage s.g b page, writer := .copied b }
  | .release => ∃ b, s.writer = .copied b ∧
      s' = { s with g := bufRelease s.g b true, writer := .released b }
  | .unpin => ∃ b, s.writer = .released b ∧ s' = { s with writer := .idle }
  | .pop => s.flush = .idle ∧ ∃ b links, listPop s.g.links .dirtyList = (some (.dirty b), links) ∧
      s' = { s with g := { s.g with links := links }, flush := .popped b }
  | .write => ∃ b, s.flush = .popped b ∧ ¬s.writer.Pins b ∧
      s' = { s with g := llWrite s.g b, flush := .written b }
  | .unlink => ∃ b, s.flush = .written b ∧
      s' = { s with g := flushUnlink s.g b, flush := .idle }

/-! ### The invariant -/

/-- The buffers on the list are `l`. -/
structure FlushInv (s : FlushState) (l : List ℕ) : Prop where
  ring : IsRing s.g.links .dirtyList (l.map .dirty)
  cached : ∀ b ∈ l, s.g.Cached b
  unique : ∀ b c, s.g.Cached b → s.g.Cached c → (s.g.buf b).blockno = (s.g.buf c).blockno → b = c
  pinned : ∀ b, s.writer.Pins b → s.g.Cached b
  window : ∀ b, s.flush = .popped b ∨ s.flush = .written b →
    s.g.Cached b ∧ (b ∈ l ∨ Loose s.g.links b)
  saved : ∀ b, s.g.Cached b → b ∉ l → s.flush ≠ .popped b → s.writer ≠ .copied b → s.g.Saved b
  written : ∀ b, s.flush = .written b → s.writer ≠ .copied b → s.g.Saved b

namespace FlushInv

variable {s : FlushState} {l : List ℕ} {b : ℕ}

variable (hI : FlushInv s l)

include hI

theorem pin (hw : s.writer = .idle) (hb : s.g.Cached b) :
    FlushInv { s with writer := .pinned b } l := by
  refine ⟨hI.ring, hI.cached, hI.unique, ?_, hI.window, ?_, ?_⟩
  · rintro c rfl
    exact hb
  · intro c hc hl hf _
    exact hI.saved c hc hl hf (by simp [hw])
  · intro c hf _
    exact hI.written c hf (by simp [hw])

theorem unpin (hw : s.writer = .released b) : FlushInv { s with writer := .idle } l := by
  refine ⟨hI.ring, hI.cached, hI.unique, fun c h => h.elim, hI.window, ?_, ?_⟩
  · intro c hc hl hf _
    exact hI.saved c hc hl hf (by simp [hw])
  · intro c hf _
    exact hI.written c hf (by simp [hw])

theorem copy (hw : s.writer = .pinned b) (page : Block) :
    FlushInv { s with g := copyPage s.g b page, writer := .copied b } l := by
  have hsame := copyPage_sameBlocks s.g b page
  refine ⟨hI.ring, fun c hc => (hsame.cached_iff c).2 (hI.cached c hc), hsame.unique hI.unique,
    ?_, fun c hf => ⟨(hsame.cached_iff c).2 (hI.window c hf).1, (hI.window c hf).2⟩, ?_, ?_⟩
  · rintro c rfl
    exact (hsame.cached_iff b).2 (hI.pinned b (by rw [hw]; rfl))
  · intro c hc hl hf hcopied
    have hcb : c ≠ b := fun e => hcopied (by rw [e])
    exact (saved_copyPage hcb).2 (hI.saved c ((hsame.cached_iff c).1 hc) hl hf (by simp [hw]))
  · intro c hf hcopied
    have hcb : c ≠ b := fun e => hcopied (by rw [e])
    exact (saved_copyPage hcb).2 (hI.written c hf (by simp [hw]))

/-- The buffer is put on the list, where nothing is lost. -/
theorem release (hw : s.writer = .copied b) (hb : l = [] ∨ b ∈ l ∨ Loose s.g.links b)
    (hf : s.flush ≠ .written b)
    (hother : ∀ c ≠ b, s.flush = .popped c ∨ s.flush = .written c → c ∈ l ∨ l.head? = some b) :
    FlushInv { s with g := bufRelease s.g b true, writer := .released b } (b :: l.erase b) := by
  have hsame := bufRelease_sameBlocks s.g b true
  have hcached : s.g.Cached b := hI.pinned b (by rw [hw]; rfl)
  refine ⟨ring_dirtyLink hI.ring hb, ?_, hsame.unique hI.unique, ?_, fun c hc => ?_, ?_, ?_⟩
  · intro c hc
    rw [hsame.cached_iff]
    rcases List.mem_cons.1 hc with rfl | hc
    · exact hcached
    · exact hI.cached c (List.mem_of_mem_erase hc)
  · rintro c rfl
    exact (hsame.cached_iff b).2 hcached
  · obtain ⟨hcached', hwhere⟩ := hI.window c hc
    refine ⟨(hsame.cached_iff c).2 hcached', ?_⟩
    by_cases hcb : c = b
    · exact .inl (hcb ▸ List.mem_cons_self)
    · rcases hother c hcb hc with hcl | hfirst
      · exact .inl (List.mem_cons_of_mem _ ((List.mem_erase_of_ne hcb).2 hcl))
      · obtain ⟨l', rfl⟩ := List.head?_eq_some_iff.1 hfirst
        rw [List.erase_cons_head]
        change c ∈ b :: l' ∨ Loose (dirtyLink s.g.links b) c
        rwa [dirtyLink_first hI.ring]
  · intro c hc hl hpopped _
    obtain ⟨hcb, hl⟩ : c ≠ b ∧ c ∉ l.erase b := by simpa using hl
    have hcl : c ∉ l := fun h => hl ((List.mem_erase_of_ne hcb).2 h)
    refine (saved_bufRelease s.g b true c).2 (hI.saved c ((hsame.cached_iff c).1 hc) hcl hpopped ?_)
    simpa [hw] using hcb.symm
  · intro c hc _
    have hcb : c ≠ b := fun e => hf (e ▸ hc)
    exact (saved_bufRelease s.g b true c).2 (hI.written c hc (by simpa [hw] using hcb.symm))

theorem pop {links : Links BufNode} (hf : s.flush = .idle)
    (hpop : listPop s.g.links .dirtyList = (some (.dirty b), links)) :
    ∃ l', l = b :: l' ∧
      FlushInv { s with g := { s.g with links := links }, flush := .popped b } l' := by
  cases l with
  | nil =>
    have hnext : s.g.links.next .dirtyList = .dirtyList := hI.ring.next_head_eq_iff.2 rfl
    simp [listPop, listEmpty, hnext] at hpop
  | cons k l =>
    obtain ⟨hpop', hring⟩ := hI.ring.pop_map
    rw [hpop', Prod.mk.injEq, Option.some_inj, BufNode.dirty.injEq] at hpop
    obtain ⟨rfl, rfl⟩ := hpop
    have hprev : s.g.links.prev (.dirty k) = .dirtyList := hI.ring.seg.1.2
    have hself := hI.ring.next_ne_self (n := .dirty k) (by simp)
    have hloose := loose_listDel hself (by rw [hprev]; simp)
    refine ⟨l, rfl, hring, fun c hc => hI.cached c (List.mem_cons_of_mem _ hc), hI.unique,
      hI.pinned, fun c hc => ?_, fun c hc hl hpopped hcopied => ?_, fun c hc => ?_⟩
    · obtain rfl : c = k := by simpa [eq_comm] using hc
      exact ⟨hI.cached c List.mem_cons_self, .inr hloose⟩
    · have hck : c ≠ k := fun e => hpopped (by rw [e])
      exact hI.saved c hc (by simp [hck, hl]) (by simp [hf]) hcopied
    · cases hc

theorem write (hf : s.flush = .popped b) (hw : ¬s.writer.Pins b) :
    FlushInv { s with g := llWrite s.g b, flush := .written b } l := by
  have hsame : SameBlocks s.g (llWrite s.g b) := ⟨rfl, fun _ => rfl⟩
  obtain ⟨hcached, hwhere⟩ := hI.window b (.inl hf)
  refine ⟨hI.ring, hI.cached, hI.unique, hI.pinned, fun c hc => ?_, fun c hc hl _ hcopied => ?_,
    fun c hc _ => ?_⟩
  · obtain rfl : c = b := by simpa [eq_comm] using hc
    exact ⟨hcached, hwhere⟩
  · by_cases hcb : c = b
    · subst hcb
      exact saved_llWrite
    · rw [saved_llWrite_of_ne fun e => hcb (hI.unique c b hc hcached e)]
      exact hI.saved c hc hl (by simpa [hf, eq_comm] using hcb) hcopied
  · obtain rfl : c = b := by simpa [eq_comm] using hc
    exact saved_llWrite

theorem unlink (hf : s.flush = .written b) :
    FlushInv { s with g := flushUnlink s.g b, flush := .idle } (l.erase b) := by
  have hsame := flushUnlink_sameBlocks s.g b
  obtain ⟨hcached, hwhere⟩ := hI.window b (.inr hf)
  refine ⟨ring_listDel hI.ring hwhere, ?_, hsame.unique hI.unique, ?_, fun c hc => ?_, ?_,
    fun c hc => ?_⟩
  · intro c hc
    exact (hsame.cached_iff c).2 (hI.cached c (List.mem_of_mem_erase hc))
  · intro c hc
    exact (hsame.cached_iff c).2 (hI.pinned c hc)
  · rcases hc with hc | hc <;> cases hc
  · intro c hc hl _ hcopied
    rw [saved_flushUnlink]
    by_cases hcb : c = b
    · subst hcb
      exact hI.written c hf hcopied
    · have hcl : c ∉ l := fun h => hl ((List.mem_erase_of_ne hcb).2 h)
      exact hI.saved c ((hsame.cached_iff c).1 hc) hcl (by simp [hf]) hcopied
  · cases hc

end FlushInv

/-! ### Rounds without interleaving -/

/-- The loop of `flush_bhash`, with at most `n` buffers; `none` if it has not come to its end, or
has met a node that is not one of a buffer on `dirty_list`. -/
def flushLoop : ℕ → Gendisk → Option Gendisk
  | 0, _ => none
  | n + 1, g =>
    match listPop g.links .dirtyList with
    | (none, _) => some g
    | (some (.dirty b), links) => flushLoop n (flushUnlink (llWrite { g with links := links } b) b)
    | (some _, _) => none

/-- A buffer has been written to, or only read, and is released; or a round of `flush_bhash`. -/
inductive CacheEvent
  | write (b : ℕ) (page : Block)
  | read (b : ℕ)
  | flush

def CacheStep (g : Gendisk) (e : CacheEvent) (g' : Gendisk) : Prop :=
  match e with
  | .write b page => g.Cached b ∧ g' = bufRelease (copyPage g b page) b true
  | .read b => g.Cached b ∧ g' = bufRelease g b false
  | .flush => ∃ n, flushLoop n g = some g'

/-- There is one buffer for a block at most, and the pages of the buffers that are not on the list
are on the device. -/
def CacheStart (g : Gendisk) : Prop :=
  (∀ b c, g.Cached b → g.Cached c → (g.buf b).blockno = (g.buf c).blockno → b = c) ∧
    ∃ l : List ℕ, IsRing g.links .dirtyList (l.map .dirty) ∧ (∀ b ∈ l, g.Cached b) ∧
      ∀ b, g.Cached b → b ∉ l → g.Saved b

/-- A round of `flush_bhash` comes to an end, and then the device has what the pages have. -/
def Durable (g : Gendisk) : Prop :=
  (∃ n g', flushLoop n g = some g') ∧
    ∀ n g', flushLoop n g = some g' → ∀ b, g'.Cached b → g'.Saved b

/-- A buffer that is released while the list is not empty is on the list, or its node is loose. -/
def Orderly (g : Gendisk) (e : CacheEvent) : Prop :=
  match e with
  | .write b _ => listEmpty g.links .dirtyList = true ∨ OnRing g.links .dirtyList (.dirty b) ∨
      Loose g.links b
  | _ => True

section Rounds

variable {g g' : Gendisk} {l : List ℕ} {n : ℕ}

theorem FlushInv.flushLoop_eq (hI : FlushInv ⟨g, .idle, .idle⟩ l) :
    (∃ g', flushLoop (l.length + 1) g = some g') ∧
      ∀ n g', flushLoop n g = some g' → FlushInv ⟨g', .idle, .idle⟩ [] := by
  induction l generalizing g with
  | nil =>
    have hnext : g.links.next .dirtyList = .dirtyList := hI.ring.next_head_eq_iff.2 rfl
    have hpop : listPop g.links .dirtyList = (none, g.links) := by
      simp [listPop, listEmpty, hnext]
    refine ⟨⟨g, by simp [flushLoop, hpop]⟩, fun n g' h => ?_⟩
    cases n with
    | zero => cases h
    | succ n =>
      simp only [flushLoop, hpop, Option.some_inj] at h
      exact h ▸ hI
  | cons b l ih =>
    have hpop := hI.ring.pop_map.1
    obtain ⟨l', heq, hpopped⟩ := hI.pop rfl hpop
    obtain rfl := (List.cons.inj heq).2
    have hwritten := hpopped.write rfl (b := b) id
    have hdone := hwritten.unlink rfl (b := b)
    have hbl : b ∉ l := (List.nodup_cons.1
      (List.Nodup.of_map _ (List.nodup_cons.1 hI.ring.nodup).2)).1
    rw [List.erase_of_not_mem hbl] at hdone
    obtain ⟨⟨g₁, hg₁⟩, hall⟩ := ih hdone
    refine ⟨⟨g₁, by simpa only [List.length_cons, flushLoop, hpop] using hg₁⟩, fun n g' h => ?_⟩
    cases n with
    | zero => cases h
    | succ n =>
      simp only [flushLoop, hpop] at h
      exact hall n g' h

theorem CacheStart.inv (h : CacheStart g) : ∃ l, FlushInv ⟨g, .idle, .idle⟩ l := by
  obtain ⟨hunique, l, hring, hcached, hsaved⟩ := h
  refine ⟨l, hring, hcached, hunique, fun _ h => h.elim, fun b hb => ?_,
    fun b hb hl _ _ => hsaved b hb hl, fun b hb => ?_⟩
  · rcases hb with hb | hb <;> cases hb
  · cases hb

theorem FlushInv.cacheStep {e : CacheEvent} (hI : FlushInv ⟨g, .idle, .idle⟩ l) (ho : Orderly g e)
    (h : CacheStep g e g') : ∃ l', FlushInv ⟨g', .idle, .idle⟩ l' := by
  cases e with
  | write b page =>
    obtain ⟨hb, rfl⟩ := h
    have hcopied := (hI.pin rfl hb).copy rfl page
    exact ⟨_, (hcopied.release rfl (nil_or_mem_or_loose hI.ring ho) (by simp) (by simp)).unpin rfl⟩
  | read b =>
    obtain ⟨hb, rfl⟩ := h
    have hsame := bufRelease_sameBlocks g b false
    refine ⟨l, hI.ring, fun c hc => (hsame.cached_iff c).2 (hI.cached c hc),
      hsame.unique hI.unique, fun _ h => h.elim, fun c hc => ?_, fun c hc hl hf hw => ?_,
      fun c hc => ?_⟩
    · rcases hc with hc | hc <;> cases hc
    · exact (saved_bufRelease g b false c).2 (hI.saved c ((hsame.cached_iff c).1 hc) hl hf hw)
    · cases hc
  | flush =>
    obtain ⟨n, h⟩ := h
    exact ⟨[], hI.flushLoop_eq.2 n g' h⟩

end Rounds

/-- Nothing that has been written is missing on the device after a round of `flush_bhash`, in every
run in which a buffer is released while the list is empty or its node is on the list or loose. -/
theorem durable_of_reachable {g : Gendisk}
    (h : Reachable CacheStart (guarded Orderly CacheStep) g) : Durable g := by
  have hinv : ∃ l, FlushInv ⟨g, .idle, .idle⟩ l := by
    refine h.invariant (fun _ => CacheStart.inv) fun g e g' hI hstep => ?_
    obtain ⟨l, hI⟩ := hI
    exact hI.cacheStep hstep.1 hstep.2
  obtain ⟨l, hI⟩ := hinv
  obtain ⟨⟨g₁, hg₁⟩, hall⟩ := hI.flushLoop_eq
  refine ⟨⟨_, g₁, hg₁⟩, fun n g' hg' b hb => ?_⟩
  exact (hall n g' hg').saved b hb (by simp) (by simp) (by simp)

/-- A device with two buffers, whose pages are on the device. -/
def twoBuffers : Gendisk where
  disk := fun _ _ => 0
  buckets := fun k => if k < 2 then [k] else []
  buf := fun b => ⟨b, 0, fun _ => 0⟩
  links := Links.isolated
  activeCount := 0
  inactiveCount := 0

theorem cacheStart_twoBuffers : CacheStart twoBuffers :=
  ⟨fun _ _ _ _ h => h, [], ⟨by simp, rfl, rfl⟩, by simp, fun _ _ _ => rfl⟩

/-- Both buffers are written to, in turn with rounds of `flush_bhash`. -/
theorem durable_two_rounds : ∃ g, Reachable CacheStart (guarded Orderly CacheStep) g ∧ Durable g ∧
    (g.buf 0).page 0 = 2 := by
  have h₀ : Reachable CacheStart (guarded Orderly CacheStep) twoBuffers :=
    .start cacheStart_twoBuffers
  have h₁ := h₀.next (a := CacheEvent.write 1 fun _ => 1) ⟨.inl rfl, List.mem_cons_self, rfl⟩
  have h₂ := h₁.next (a := CacheEvent.flush) ⟨trivial, 2, rfl⟩
  have h₃ := h₂.next (a := CacheEvent.write 0 fun _ => 2) ⟨.inl rfl, List.mem_cons_self, rfl⟩
  exact ⟨_, h₃, durable_of_reachable h₃, rfl⟩

/-- The second buffer is on the list when the first one, which an earlier round has taken off, is
released again. -/
theorem exists_lost_buffer : ∃ g, Reachable CacheStart CacheStep g ∧ ¬Durable g := by
  have h₀ : Reachable CacheStart CacheStep twoBuffers := .start cacheStart_twoBuffers
  have h₁ := h₀.next (a := CacheEvent.write 0 fun _ => 1) ⟨List.mem_cons_self, rfl⟩
  have h₂ := h₁.next (a := CacheEvent.flush) ⟨2, rfl⟩
  have h₃ := h₂.next (a := CacheEvent.write 1 fun _ => 2) ⟨List.mem_cons_self, rfl⟩
  have h₄ := h₃.next (a := CacheEvent.write 0 fun _ => 3) ⟨List.mem_cons_self, rfl⟩
  refine ⟨_, h₄, fun hdurable => ?_⟩
  have hsaved := hdurable.2 2 _ rfl 1 List.mem_cons_self
  exact absurd (congrFun hsaved 0) (by decide)

/-! ### Interleavings -/

/-- A buffer whose page is not on the device is on the list, or has been taken off by `flush_bhash`
and not been written yet, or has been written to and not been released yet. -/
def NoLostWrite (s : FlushState) : Prop :=
  ∀ b, s.g.Cached b → ¬s.g.Saved b → OnRing s.g.links .dirtyList (.dirty b) ∨
    s.flush = .popped b ∨ s.writer = .copied b

/-- The releases that lose nothing. The buffer is not the one that `flush_bhash` has written to the
device and not unlinked yet. Unless `flush_bhash` has just taken it off, the list is empty, or it is
on the list, or its node is loose. While `flush_bhash` has taken off another buffer, that one is on
the list again, or the released one is first on the list and stays there. -/
def InTime (s : FlushState) (e : FlushEvent) : Prop :=
  match e with
  | .release => ∀ b, s.writer = .copied b → s.flush = .popped b ∨ s.flush ≠ .written b ∧
      (listEmpty s.g.links .dirtyList = true ∨ OnRing s.g.links .dirtyList (.dirty b) ∨
        Loose s.g.links b) ∧
      ∀ c ≠ b, s.flush = .popped c ∨ s.flush = .written c →
        OnRing s.g.links .dirtyList (.dirty c) ∨ s.g.links.next .dirtyList = .dirty b
  | _ => True

def FlushState.Start (s : FlushState) : Prop :=
  CacheStart s.g ∧ s.flush = .idle ∧ s.writer = .idle

theorem FlushState.Start.inv {s : FlushState} (h : s.Start) : ∃ l, FlushInv s l := by
  obtain ⟨g, flush, writer⟩ := s
  obtain ⟨hstart, rfl, rfl⟩ := h
  exact hstart.inv

theorem FlushInv.step {s s' : FlushState} {l : List ℕ} {e : FlushEvent} (hI : FlushInv s l)
    (ht : InTime s e) (h : FlushStep s e s') : ∃ l', FlushInv s' l' := by
  cases e with
  | pin b =>
    obtain ⟨hw, hb, rfl⟩ := h
    exact ⟨l, hI.pin hw hb⟩
  | copy page =>
    obtain ⟨b, hw, rfl⟩ := h
    exact ⟨l, hI.copy hw page⟩
  | release =>
    obtain ⟨b, hw, rfl⟩ := h
    rcases ht b hw with hf | ⟨hf, ho, hother⟩
    · exact ⟨_, hI.release hw (.inr (hI.window b (.inl hf)).2) (by simp [hf])
        fun c hcb hc => absurd hc (by simpa [hf] using hcb.symm)⟩
    · refine ⟨_, hI.release hw (nil_or_mem_or_loose hI.ring ho) hf fun c hcb hc => ?_⟩
      refine (hother c hcb hc).imp (mem_iff_of_ring hI.ring).1 fun hfirst => ?_
      exact head?_of_ring hI.ring hfirst
  | unpin =>
    obtain ⟨b, hw, rfl⟩ := h
    exact ⟨l, hI.unpin hw⟩
  | pop =>
    obtain ⟨hf, b, links, hpop, rfl⟩ := h
    obtain ⟨l', -, hI'⟩ := hI.pop hf hpop
    exact ⟨l', hI'⟩
  | write =>
    obtain ⟨b, hf, hw, rfl⟩ := h
    exact ⟨l, hI.write hf hw⟩
  | unlink =>
    obtain ⟨b, hf, rfl⟩ := h
    exact ⟨_, hI.unlink hf⟩

/-- No write is lost if the buffers are released in time: a buffer whose page is not on the device
is on the list, about to be written by `flush_bhash`, or about to be released. -/
theorem noLostWrite_of_reachable {s : FlushState}
    (h : Reachable FlushState.Start (guarded InTime FlushStep) s) : NoLostWrite s := by
  have hinv : ∃ l, FlushInv s l := by
    refine h.invariant (fun _ => FlushState.Start.inv) fun s e s' hI hstep => ?_
    obtain ⟨l, hI⟩ := hI
    exact hI.step hstep.1 hstep.2
  obtain ⟨l, hI⟩ := hinv
  intro b hb hsaved
  by_contra hnot
  rw [not_or, not_or, mem_iff_of_ring hI.ring] at hnot
  exact hsaved (hI.saved b hb hnot.1 hnot.2.1 hnot.2.2)

/-- A buffer is written to again after `flush_bhash` has taken it off the list. -/
theorem noLostWrite_two_writes : ∃ s,
    Reachable FlushState.Start (guarded InTime FlushStep) s ∧ NoLostWrite s ∧
      s.flush = .idle ∧ s.g.disk 0 0 = 2 := by
  have h₀ : Reachable FlushState.Start (guarded InTime FlushStep) ⟨twoBuffers, .idle, .idle⟩ :=
    .start ⟨cacheStart_twoBuffers, rfl, rfl⟩
  have h₁ := h₀.next (a := FlushEvent.pin 0) ⟨trivial, rfl, List.mem_cons_self, rfl⟩
  have h₂ := h₁.next (a := FlushEvent.copy fun _ => 1) ⟨trivial, 0, rfl, rfl⟩
  have h₃ := h₂.next (a := FlushEvent.release)
    ⟨fun _ _ => .inr ⟨by simp, .inl rfl, by simp⟩, 0, rfl, rfl⟩
  have h₄ := h₃.next (a := FlushEvent.unpin) ⟨trivial, 0, rfl, rfl⟩
  have h₅ := h₄.next (a := FlushEvent.pop) ⟨trivial, rfl, 0, _, rfl, rfl⟩
  have h₆ := h₅.next (a := FlushEvent.pin 0) ⟨trivial, rfl, List.mem_cons_self, rfl⟩
  have h₇ := h₆.next (a := FlushEvent.copy fun _ => 2) ⟨trivial, 0, rfl, rfl⟩
  have h₈ := h₇.next (a := FlushEvent.release)
    ⟨fun b hb => .inl (by rw [WriterPc.copied.inj hb]), 0, rfl, rfl⟩
  have h₉ := h₈.next (a := FlushEvent.unpin) ⟨trivial, 0, rfl, rfl⟩
  have h₁₀ := h₉.next (a := FlushEvent.write) ⟨trivial, 0, rfl, id, rfl⟩
  have h₁₁ := h₁₀.next (a := FlushEvent.unlink) ⟨trivial, 0, rfl, rfl⟩
  exact ⟨_, h₁₁, noLostWrite_of_reachable h₁₁, rfl, rfl⟩

/-- A buffer is written to again, and released, after `flush_bhash` has written it to the device. It
is taken off the list, and the device has the old data. -/
theorem exists_lost_write : ∃ s, Reachable FlushState.Start FlushStep s ∧ ∃ b, s.g.Cached b ∧
    ¬s.g.Saved b ∧ ¬OnRing s.g.links .dirtyList (.dirty b) ∧ s.flush = .idle ∧
      s.writer = .idle := by
  have h₀ : Reachable FlushState.Start FlushStep ⟨twoBuffers, .idle, .idle⟩ :=
    .start ⟨cacheStart_twoBuffers, rfl, rfl⟩
  have h₁ := h₀.next (a := FlushEvent.pin 0) ⟨rfl, List.mem_cons_self, rfl⟩
  have h₂ := h₁.next (a := FlushEvent.copy fun _ => 1) ⟨0, rfl, rfl⟩
  have h₃ := h₂.next (a := FlushEvent.release) ⟨0, rfl, rfl⟩
  have h₄ := h₃.next (a := FlushEvent.unpin) ⟨0, rfl, rfl⟩
  have h₅ := h₄.next (a := FlushEvent.pop) ⟨rfl, 0, _, rfl, rfl⟩
  have h₆ := h₅.next (a := FlushEvent.write) ⟨0, rfl, id, rfl⟩
  have h₇ := h₆.next (a := FlushEvent.pin 0) ⟨rfl, List.mem_cons_self, rfl⟩
  have h₈ := h₇.next (a := FlushEvent.copy fun _ => 2) ⟨0, rfl, rfl⟩
  have h₉ := h₈.next (a := FlushEvent.release) ⟨0, rfl, rfl⟩
  have h₁₀ := h₉.next (a := FlushEvent.unpin) ⟨0, rfl, rfl⟩
  have h₁₁ := h₁₀.next (a := FlushEvent.unlink) ⟨0, rfl, rfl⟩
  refine ⟨_, h₁₁, 0, List.mem_cons_self, fun hsaved => ?_, ?_, rfl, rfl⟩
  · exact absurd (congrFun hsaved 0) (by decide)
  · rintro ⟨n, -, hn⟩
    exact hn 0 (Nat.zero_le n) rfl

end RiscvLab.Blk
