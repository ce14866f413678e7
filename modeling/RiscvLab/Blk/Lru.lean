import RiscvLab.Blk.Flush
import RiscvLab.Lib.ListSequence

/-!
# The two lists of the buffer cache

`bhash_lru` is to keep a buffer on `inactive_list` after its first access and on `active_list` from
its second access on, and tells the accesses apart by the flags `BH_Visited` and `BH_Active`. Two
things go wrong. `buf_alloc` never initialises the flags, so that a new buffer whose memory has one
of the two bits set is on neither list, or on `active_list` at once. And the promotion of a buffer
at its second access does not decrement `inactive_count`.

So the lists and the counts are right as long as every access is the first one to its block, and the
memory of the new buffer has both bits clear; and they are wrong after the first access for which
this does not hold (`lruCorrect_iff_firstClean`).

## Main definitions

* `LruState`, `LruStep` : accesses, with the number of those to each block.
* `LruCorrect` : the lists and counts are right.
* `FirstClean` : the first access to a block, with memory in which the two bits are clear.

## Main results

* `FirstAccesses.miss` : a first access.
* `lruCorrect_iff_firstClean`

Source: `kernel/dev/blk/buf.c`, lines 41–87 and 103–173; `include/dev/blk/buf.h`, lines 17–57.
-/

namespace RiscvLab.Blk

open Library

/-- The cache, and how often each block has been accessed. -/
structure LruState where
  g : Gendisk
  accesses : ℕ → ℕ

/-- A call of `buf_get` for a block. If there is no buffer for it yet, `kmem_cache_alloc` returns
the buffer `fresh`, whose flags are `junk`. -/
structure BufGetCall where
  blockno : ℕ
  fresh : ℕ
  junk : BitVec 32

def LruStep (s : LruState) (a : BufGetCall) (s' : LruState) : Prop :=
  ¬s.g.Cached a.fresh ∧
    s' = ⟨(bufGet s.g a.blockno (a.fresh, a.junk)).2,
      Function.update s.accesses a.blockno (s.accesses a.blockno + 1)⟩

/-- The cache after `bhash_init`. -/
def LruStart (s : LruState) : Prop := (∃ g, s.g = bhashInit g) ∧ ∀ n, s.accesses n = 0

/-- Every buffer is on the list it belongs to, and the counts are the lengths of the lists. -/
def LruCorrect (s : LruState) : Prop :=
  ∃ A I : List ℕ, IsRing s.g.links .activeList (A.map .lru) ∧
    IsRing s.g.links .inactiveList (I.map .lru) ∧
    s.g.activeCount = A.length ∧ s.g.inactiveCount = I.length ∧
    ∀ b, s.g.Cached b →
      if s.accesses (s.g.buf b).blockno ≤ 1 then b ∈ I ∧ b ∉ A else b ∈ A ∧ b ∉ I

/-- The access is the first one to its block, and both flags are clear in the memory for it. -/
def FirstClean (s : LruState) (a : BufGetCall) : Prop :=
  (∀ b, s.g.Cached b → (s.g.buf b).blockno ≠ a.blockno) ∧
    a.junk &&& bhActive = 0 ∧ a.junk &&& bhVisited = 0

/-! ### The lists -/

/-- The heads of the two lists. -/
def lruHead : Bool → BufNode
  | true => .activeList
  | false => .inactiveList

/-- The buffers on the two lists. -/
def lruLists (A I : List ℕ) : Bool → List ℕ
  | true => A
  | false => I

theorem update_lruLists_true (A I l : List ℕ) :
    Function.update (lruLists A I) true l = lruLists l I := by
  funext a
  cases a <;> rfl

theorem update_lruLists_false (A I l : List ℕ) :
    Function.update (lruLists A I) false l = lruLists A l := by
  funext a
  cases a <;> rfl

/-- `A` and `I` are the buffers on the two lists. -/
def LruRings (links : Links BufNode) (A I : List ℕ) : Prop :=
  Rings links lruHead fun a => (lruLists A I a).map .lru

section LruRings

variable {links : Links BufNode} {A I : List ℕ} {b : ℕ}

theorem LruRings.lru_notMem (hA : b ∉ A) (hI : b ∉ I) (a : Bool) :
    BufNode.lru b ∉ lruHead a :: (lruLists A I a).map .lru := by
  cases a <;> simpa [lruHead, lruLists]

theorem LruRings.addActive (hr : LruRings links A I) (hA : b ∉ A) (hI : b ∉ I) :
    LruRings (listAddHead links (.lru b) .activeList) (b :: A) I := by
  have := hr.addHead_map true (LruRings.lru_notMem hA hI)
  rwa [update_lruLists_true] at this

theorem LruRings.addInactive (hr : LruRings links A I) (hA : b ∉ A) (hI : b ∉ I) :
    LruRings (listAddHead links (.lru b) .inactiveList) A (b :: I) := by
  have := hr.addHead_map false (LruRings.lru_notMem hA hI)
  rwa [update_lruLists_false] at this

theorem LruRings.delInactive {l₁ l₂ : List ℕ} (hr : LruRings links A (l₁ ++ b :: l₂)) :
    LruRings (listDel links (.lru b)) A (l₁ ++ l₂) := by
  have hI : lruLists A (l₁ ++ b :: l₂) false = l₁ ++ b :: l₂ := rfl
  have := hr.del_map hI
  rwa [update_lruLists_false] at this

/-- `list_del` of a node that is linked to itself. -/
theorem listDel_of_isolated {n : BufNode} (hn : links.next n = n) (hp : links.prev n = n) :
    listDel links n = links :=
  listDel_eq_self (by rw [hp]) (by rw [hn])

theorem LruRings.initNodes (hr : LruRings links A I) (hA : b ∉ A) (hI : b ∉ I) :
    LruRings (initListHead (initListHead links (.lru b)) (.dirty b)) A I := by
  refine Rings.init (Rings.init hr (LruRings.lru_notMem hA hI)) fun a => ?_
  cases a <;> simp [lruHead]

theorem LruRings.nodup (hr : LruRings links A I) : I.Nodup :=
  List.Nodup.of_map _ (List.nodup_cons.1 (hr.ring false).nodup).2

end LruRings

/-- With the lists known, the cache is right if the counts and the lists are. -/
theorem lruCorrect_iff_of_rings {s : LruState} {A I : List ℕ} (hr : LruRings s.g.links A I) :
    LruCorrect s ↔ s.g.activeCount = A.length ∧ s.g.inactiveCount = I.length ∧
      ∀ b, s.g.Cached b →
        if s.accesses (s.g.buf b).blockno ≤ 1 then b ∈ I ∧ b ∉ A else b ∈ A ∧ b ∉ I := by
  constructor
  · rintro ⟨A', I', hA', hI', h⟩
    have hinj : Function.Injective (List.map BufNode.lru) :=
      List.map_injective_iff.2 fun _ _ => BufNode.lru.inj
    obtain rfl := hinj (hA'.unique (hr.ring true))
    obtain rfl := hinj (hI'.unique (hr.ring false))
    exact h
  · exact fun h => ⟨A, I, hr.ring true, hr.ring false, h⟩

/-! ### First accesses -/

/-- There have been first accesses only, with clear flags: all buffers are on the inactive list. -/
structure FirstAccesses (s : LruState) (I : List ℕ) : Prop where
  rings : LruRings s.g.links [] I
  activeCount : s.g.activeCount = 0
  inactiveCount : s.g.inactiveCount = I.length
  mem : ∀ b, b ∈ I ↔ s.g.Cached b
  accesses : ∀ b, s.g.Cached b → s.accesses (s.g.buf b).blockno = 1
  unseen : ∀ n, (∀ b, s.g.Cached b → (s.g.buf b).blockno ≠ n) → s.accesses n = 0
  active : ∀ b, s.g.Cached b → testFlag s.g b bhActive ≠ bhActive
  visited : ∀ b, s.g.Cached b → testFlag s.g b bhVisited = bhVisited

theorem or_bhNew_and (junk : BitVec 32) {flag : BitVec 32} (hf : bhNew &&& flag = 0) :
    (junk ||| bhNew) &&& flag = junk &&& flag := by
  rw [BitVec.and_or_distrib_right, hf]
  exact BitVec.or_zero

theorem and_flag_cases (x flag : BitVec 32) {i : ℕ} (hf : flag = BitVec.twoPow 32 i) :
    x &&& flag = 0 ∨ x &&& flag = flag := by
  rw [hf, BitVec.and_twoPow]
  split_ifs <;> simp

theorem testFlag_newBuf (g : Gendisk) (n b : ℕ) (junk : BitVec 32) {flag : BitVec 32}
    (hf : bhNew &&& flag = 0) : testFlag (newBuf g n b junk) b flag = junk &&& flag := by
  rw [testFlag, newBuf_buf, Function.update_self, or_bhNew_and junk hf]

theorem testFlag_newBuf_of_ne (g : Gendisk) (n : ℕ) {b c : ℕ} (junk flag : BitVec 32)
    (hc : c ≠ b) : testFlag (newBuf g n b junk) c flag = testFlag g c flag := by
  rw [testFlag, newBuf_buf, Function.update_of_ne hc, testFlag]

theorem testFlag_setFlag (g : Gendisk) (b c : ℕ) (flag flag' : BitVec 32) :
    testFlag (setFlag g b flag') c flag =
      if c = b then ((g.buf c).flags ||| flag') &&& flag else testFlag g c flag := by
  by_cases hc : c = b <;> simp [testFlag, setFlag, Gendisk.modify, hc]

namespace FirstAccesses

variable {s s' : LruState} {I : List ℕ} {a : BufGetCall}

theorem lruCorrect (hs : FirstAccesses s I) : LruCorrect s := by
  refine (lruCorrect_iff_of_rings hs.rings).2 ⟨hs.activeCount, hs.inactiveCount, fun b hb => ?_⟩
  rw [if_pos (hs.accesses b hb).le]
  exact ⟨(hs.mem b).2 hb, List.not_mem_nil⟩

/-- The lists with the initialised nodes of a new buffer. -/
theorem rings_newBuf (hs : FirstAccesses s I) (hfresh : ¬s.g.Cached a.fresh) :
    LruRings (newBuf s.g a.blockno a.fresh a.junk).links [] I ∧ a.fresh ∉ I :=
  have hI : a.fresh ∉ I := fun h => hfresh ((hs.mem _).1 h)
  ⟨hs.rings.initNodes List.not_mem_nil hI, hI⟩

/-- The block numbers after an access that makes a new buffer. -/
structure Made (s : LruState) (a : BufGetCall) (s' : LruState) : Prop where
  fresh : ¬s.g.Cached a.fresh
  new : ∀ b, s.g.Cached b → (s.g.buf b).blockno ≠ a.blockno
  g : s'.g = bhashLru (newBuf s.g a.blockno a.fresh a.junk) a.fresh
  accesses : ∀ n, s'.accesses n = if n = a.blockno then s.accesses n + 1 else s.accesses n

namespace Made

theorem of_step (hn : ∀ b, s.g.Cached b → (s.g.buf b).blockno ≠ a.blockno)
    (hstep : LruStep s a s') : Made s a s' := by
  obtain ⟨hfresh, rfl⟩ := hstep
  refine ⟨hfresh, hn, ?_, fun n => ?_⟩
  · rcases bufGet_cases s.g a.blockno (a.fresh, a.junk) with ⟨b, hb, hbn, -⟩ | ⟨-, hget⟩
    · exact absurd hbn (hn b hb)
    · rw [hget]
  · by_cases h : n = a.blockno <;> simp [h]

variable (hm : Made s a s')

include hm

theorem cached_iff (c : ℕ) : s'.g.Cached c ↔ c = a.fresh ∨ s.g.Cached c := by
  rw [hm.g, (bhashLru_sameData _ _).cached_iff, newBuf_cached]

theorem blockno (c : ℕ) :
    (s'.g.buf c).blockno = if c = a.fresh then a.blockno else (s.g.buf c).blockno := by
  rw [hm.g, (bhashLru_sameData _ _).blockno, newBuf_buf, Function.update_apply]
  split_ifs <;> rfl

theorem blockno_of_cached {c : ℕ} (hc : s.g.Cached c) :
    (s'.g.buf c).blockno = (s.g.buf c).blockno := by
  have hne : c ≠ a.fresh := fun h => hm.fresh (h ▸ hc)
  rw [hm.blockno, if_neg hne]

theorem blockno_fresh : (s'.g.buf a.fresh).blockno = a.blockno := by
  rw [hm.blockno, if_pos rfl]

variable (hs : FirstAccesses s I)

include hs

theorem accesses_fresh :
    s'.accesses (s'.g.buf a.fresh).blockno = 1 := by
  rw [hm.blockno_fresh, hm.accesses, if_pos rfl, hs.unseen _ hm.new]

theorem accesses_of_cached {c : ℕ}
    (hc : s.g.Cached c) : s'.accesses (s'.g.buf c).blockno = 1 := by
  rw [hm.blockno_of_cached hc, hm.accesses, if_neg (hm.new c hc), hs.accesses c hc]

theorem unseen {n : ℕ}
    (hn : ∀ b, s'.g.Cached b → (s'.g.buf b).blockno ≠ n) : s'.accesses n = 0 := by
  have hne : n ≠ a.blockno := by
    rintro rfl
    exact hn a.fresh ((hm.cached_iff _).2 (.inl rfl)) hm.blockno_fresh
  rw [hm.accesses, if_neg hne]
  refine hs.unseen n fun c hc => ?_
  rw [← hm.blockno_of_cached hc]
  exact hn c ((hm.cached_iff c).2 (.inr hc))

/-- A buffer that is not on the inactive list after its first access. -/
theorem not_lruCorrect {A : List ℕ}
    (hr : LruRings s'.g.links A I) : ¬LruCorrect s' := by
  intro hcorrect
  have h := ((lruCorrect_iff_of_rings hr).1 hcorrect).2.2 a.fresh ((hm.cached_iff _).2 (.inl rfl))
  rw [if_pos (hm.accesses_fresh hs).le] at h
  exact hm.fresh ((hs.mem _).1 h.1)

end Made

/-- The first access to a block puts its buffer on the inactive list, in front of the others, if the
memory that `kmem_cache_alloc` returned for it has the two flags clear. -/
theorem miss (hs : FirstAccesses s I) (hm : Made s a s') (hactive : a.junk &&& bhActive = 0)
    (hvisited : a.junk &&& bhVisited = 0) : FirstAccesses s' (a.fresh :: I) := by
  obtain ⟨hrings, hI⟩ := hs.rings_newBuf hm.fresh
  have hg : s'.g = { setFlag (newBuf s.g a.blockno a.fresh a.junk) a.fresh bhVisited with
      links := listAddHead (newBuf s.g a.blockno a.fresh a.junk).links (.lru a.fresh) .inactiveList
      inactiveCount := s.g.inactiveCount + 1 } := by
    rw [hm.g, bhashLru, testFlag_newBuf _ _ _ _ (by decide), hactive, if_neg (by decide),
      testFlag_newBuf _ _ _ _ (by decide), hvisited, if_neg (by decide)]
    rfl
  have hflag : ∀ c flag, testFlag s'.g c flag =
      testFlag (setFlag (newBuf s.g a.blockno a.fresh a.junk) a.fresh bhVisited) c flag := by
    intro c flag
    rw [hg]
    rfl
  have hold : ∀ c flag, s.g.Cached c → testFlag s'.g c flag = testFlag s.g c flag := by
    intro c flag hc
    have hne : c ≠ a.fresh := fun h => hm.fresh (h ▸ hc)
    rw [hflag, testFlag_setFlag, if_neg hne, testFlag_newBuf_of_ne _ _ _ _ hne]
  have hnew : ∀ flag, bhNew &&& flag = 0 → testFlag s'.g a.fresh flag =
      (a.junk &&& flag) ||| (bhVisited &&& flag) := by
    intro flag hf
    rw [hflag, testFlag_setFlag, if_pos rfl, BitVec.and_or_distrib_right, newBuf_buf,
      Function.update_self, or_bhNew_and _ hf]
  refine
    { rings := ?_
      activeCount := ?_
      inactiveCount := ?_
      mem := fun c => ?_
      accesses := fun c hc => ?_
      unseen := fun n hn => hm.unseen hs hn
      active := fun c hc => ?_
      visited := fun c hc => ?_ }
  · rw [hg]
    exact hrings.addInactive List.not_mem_nil hI
  · rw [hg]
    exact hs.activeCount
  · rw [hg, List.length_cons, ← hs.inactiveCount]
  · rw [List.mem_cons, hs.mem, hm.cached_iff]
  · rcases (hm.cached_iff c).1 hc with rfl | hc
    · exact hm.accesses_fresh hs
    · exact hm.accesses_of_cached hs hc
  · rcases (hm.cached_iff c).1 hc with rfl | hc
    · rw [hnew _ (by decide), hactive]
      decide
    · rw [hold c _ hc]
      exact hs.active c hc
  · rcases (hm.cached_iff c).1 hc with rfl | hc
    · rw [hnew _ (by decide), hvisited]
      decide
    · rw [hold c _ hc]
      exact hs.visited c hc

/-- A new buffer whose memory has one of the flags set is not on the inactive list. -/
theorem not_lruCorrect_of_junk (hs : FirstAccesses s I) (hm : Made s a s')
    (hjunk : ¬(a.junk &&& bhActive = 0 ∧ a.junk &&& bhVisited = 0)) : ¬LruCorrect s' := by
  obtain ⟨hrings, hI⟩ := hs.rings_newBuf hm.fresh
  rcases and_flag_cases a.junk bhActive (i := 30) rfl with hactive | hactive
  · have hvisited := (and_flag_cases a.junk bhVisited (i := 31) rfl).resolve_left
      fun h => hjunk ⟨hactive, h⟩
    have hdel : listDel (newBuf s.g a.blockno a.fresh a.junk).links (.lru a.fresh) =
        (newBuf s.g a.blockno a.fresh a.junk).links := by
      refine listDel_of_isolated ?_ ?_ <;>
      simp [newBuf, bhashAdd, bufAlloc, setFlag, Gendisk.modify, initListHead_next,
        initListHead_prev]
    refine hm.not_lruCorrect (A := [a.fresh]) hs ?_
    have hlinks : s'.g.links = listAddHead (listDel
        (newBuf s.g a.blockno a.fresh a.junk).links (.lru a.fresh)) (.lru a.fresh) .activeList := by
      rw [hm.g, bhashLru, testFlag_newBuf _ _ _ _ (by decide), hactive, if_neg (by decide),
        testFlag_newBuf _ _ _ _ (by decide), hvisited, if_pos rfl]
      rfl
    rw [hlinks, hdel]
    exact hrings.addActive List.not_mem_nil hI
  · refine hm.not_lruCorrect (A := []) hs ?_
    rw [hm.g, bhashLru, testFlag_newBuf _ _ _ _ (by decide), hactive, if_pos rfl]
    exact hrings

/-- The second access to a block takes its buffer off the inactive list and leaves the count as it
is. -/
theorem not_lruCorrect_of_hit (hs : FirstAccesses s I) {b : ℕ} (hb : s.g.Cached b)
    (hblockno : (s.g.buf b).blockno = a.blockno) (hstep : LruStep s a s') : ¬LruCorrect s' := by
  obtain ⟨c, hc, -, hget⟩ := (bufGet_cases s.g a.blockno (a.fresh, a.junk)).resolve_right
    fun h => h.1 b hb hblockno
  obtain ⟨l₁, l₂, rfl⟩ := List.append_of_mem ((hs.mem c).2 hc)
  obtain ⟨-, rfl⟩ := hstep
  have hnodup := hs.rings.nodup
  rw [List.nodup_middle, List.nodup_cons] at hnodup
  have hg : bhashLru s.g c = { setFlag s.g c bhActive with
      links := listAddHead (listDel s.g.links (.lru c)) (.lru c) .activeList
      activeCount := s.g.activeCount + 1 } := by
    rw [bhashLru, if_neg (hs.active c hc), if_pos (hs.visited c hc)]
    rfl
  rw [hget, hg]
  intro hcorrect
  have hr := hs.rings.delInactive.addActive List.not_mem_nil hnodup.1
  have hcount := ((lruCorrect_iff_of_rings hr).1 hcorrect).2.1
  have hlen : (l₁ ++ c :: l₂).length = (l₁ ++ l₂).length := hs.inactiveCount.symm.trans hcount
  simp at hlen

end FirstAccesses

/-! ### Runs -/

theorem LruStart.firstAccesses {s : LruState} (h : LruStart s) : FirstAccesses s [] := by
  obtain ⟨⟨g, hg⟩, hacc⟩ := h
  have hcached : ∀ b, ¬s.g.Cached b := by
    intro b
    rw [Gendisk.Cached, hg]
    exact List.not_mem_nil
  refine
    { rings := ?_
      activeCount := by rw [hg]; rfl
      inactiveCount := by rw [hg]; rfl
      mem := fun b => iff_of_false List.not_mem_nil (hcached b)
      accesses := fun b hb => absurd hb (hcached b)
      unseen := fun n _ => hacc n
      active := fun b hb => absurd hb (hcached b)
      visited := fun b hb => absurd hb (hcached b) }
  · rw [hg]
    refine ⟨fun a => ⟨by cases a <;> simp [lruLists], ?_⟩, fun a c hac x hx => ?_⟩
    · cases a <;> exact ⟨rfl, rfl⟩
    · cases a <;> cases c <;> simp_all [lruLists, lruHead]

theorem exists_firstAccesses {s : LruState}
    (hr : Reachable LruStart (guarded FirstClean LruStep) s) : ∃ I, FirstAccesses s I := by
  refine hr.invariant (P := fun s => ∃ I, FirstAccesses s I) (fun s h => ⟨[], h.firstAccesses⟩) ?_
  rintro s a s' ⟨I, hs⟩ ⟨hclean, hstep⟩
  exact ⟨_, hs.miss (.of_step hclean.1 hstep) hclean.2.1 hclean.2.2⟩

/-- The lists and counts are right as long as there are first accesses with clear flags only, and
wrong after the first other one. -/
theorem lruCorrect_iff_firstClean {s s' : LruState} {a : BufGetCall}
    (hr : Reachable LruStart (guarded FirstClean LruStep) s) (hstep : LruStep s a s') :
    LruCorrect s ∧ (LruCorrect s' ↔ FirstClean s a) := by
  obtain ⟨I, hs⟩ := exists_firstAccesses hr
  refine ⟨hs.lruCorrect, fun hcorrect => ?_, fun hclean => ?_⟩
  · by_cases hn : ∀ b, s.g.Cached b → (s.g.buf b).blockno ≠ a.blockno
    · by_contra hclean
      exact hs.not_lruCorrect_of_junk (.of_step hn hstep) (fun h => hclean ⟨hn, h⟩) hcorrect
    · push Not at hn
      obtain ⟨b, hb, hblockno⟩ := hn
      exact absurd hcorrect (hs.not_lruCorrect_of_hit hb hblockno hstep)
  · exact (hs.miss (.of_step hclean.1 hstep) hclean.2.1 hclean.2.2).lruCorrect

/-- The cache after `bhash_init`. -/
def freshLru : LruState :=
  ⟨bhashInit ⟨fun _ _ => 0, fun _ => [], fun _ => ⟨0, 0, fun _ => 0⟩, .isolated, 0, 0⟩, fun _ => 0⟩

theorem lruStart_freshLru : LruStart freshLru := ⟨⟨_, rfl⟩, fun _ => rfl⟩

theorem not_cached_freshLru (b : ℕ) : ¬freshLru.g.Cached b := List.not_mem_nil

/-- The first access to the block 7, with memory of zeros. -/
private theorem exists_first_access : ∃ s, guarded FirstClean LruStep freshLru ⟨7, 0, 0⟩ s ∧
    FirstAccesses.Made freshLru ⟨7, 0, 0⟩ s :=
  have hstep : LruStep freshLru ⟨7, 0, 0⟩ _ := ⟨not_cached_freshLru 0, rfl⟩
  have hnew (b : ℕ) (hb : freshLru.g.Cached b) := absurd hb (not_cached_freshLru b)
  ⟨_, ⟨⟨hnew, rfl, rfl⟩, hstep⟩, .of_step hnew hstep⟩

/-- Two blocks are accessed once each, and then the first one again: the lists and counts are right
up to there. -/
theorem lruCorrect_three_accesses : ∃ s s', Reachable LruStart (guarded FirstClean LruStep) s ∧
    LruStep s ⟨7, 2, 0⟩ s' ∧ s.accesses 7 = 1 ∧ s.accesses 9 = 1 ∧ LruCorrect s ∧
      ¬LruCorrect s' := by
  obtain ⟨s₁, h₁, hm₁⟩ := exists_first_access
  have hcached (b : ℕ) : s₁.g.Cached b ↔ b = 0 := by
    simp [hm₁.cached_iff, not_cached_freshLru]
  have hno : (s₁.g.buf 0).blockno = 7 := hm₁.blockno_fresh
  obtain ⟨s₂, hstep₂⟩ : ∃ s₂, LruStep s₁ ⟨9, 1, 0⟩ s₂ := ⟨_, by simp [hcached], rfl⟩
  have hnew₂ (b : ℕ) (hb : s₁.g.Cached b) : (s₁.g.buf b).blockno ≠ 9 := by
    rw [(hcached b).1 hb, hno]
    decide
  have hm₂ := FirstAccesses.Made.of_step hnew₂ hstep₂
  have hreach := ((Reachable.start lruStart_freshLru).next h₁).next ⟨⟨hnew₂, rfl, rfl⟩, hstep₂⟩
  have hstep₃ : LruStep s₂ ⟨7, 2, 0⟩ _ := ⟨by simp [hm₂.cached_iff, hcached], rfl⟩
  obtain ⟨hcorrect, hiff⟩ := lruCorrect_iff_firstClean hreach hstep₃
  refine ⟨_, _, hreach, hstep₃, ?_, ?_, hcorrect, fun h => ?_⟩
  · simp [hm₂.accesses, hm₁.accesses, freshLru]
  · simp [hm₂.accesses, hm₁.accesses, freshLru]
  · have h0 := (hm₂.cached_iff 0).2 (.inr ((hcached 0).2 rfl))
    exact (hiff.1 h).1 0 h0 ((hm₂.blockno_of_cached ((hcached 0).2 rfl)).trans hno)

/-- Two accesses to a block, with memory of zeros: the count of the inactive list is 1, and the list
is empty. -/
theorem exists_lru_not_counted : ∃ s, Reachable LruStart LruStep s ∧ ¬LruCorrect s := by
  obtain ⟨s₁, h₁, hm⟩ := exists_first_access
  have hs := lruStart_freshLru.firstAccesses.miss hm rfl rfl
  have hstep : LruStep s₁ ⟨7, 1, 0⟩ _ := ⟨by simp [hm.cached_iff, not_cached_freshLru], rfl⟩
  refine ⟨_, ((Reachable.start lruStart_freshLru).next h₁.2).next hstep, ?_⟩
  exact hs.not_lruCorrect_of_hit (a := ⟨7, 1, 0⟩) ((hm.cached_iff 0).2 (.inl rfl)) hm.blockno_fresh
    hstep

end RiscvLab.Blk
