import RiscvLab.Lib.ListSequence
import RiscvLab.Library.Int32
import RiscvLab.Library.Reachable
import Mathlib.Data.Set.Card
import Mathlib.Data.Set.Finite.Lattice

/-!
# The hash table

A `struct hash_table` is an array of list heads, and an entry is linked into the list of its bucket
`key % size` through an embedded node. The operations are macros over the entry's type, its key
member and its node member; here `ε` is the type of the entries and `HashTable.key` their key
member. `strdup(htable->name, name)` stores a name that no operation reads and is left out.

An entry that is not linked belongs to its owner, who may store anything in its key and in its node
(`HashCall.store`).

## Main definitions

* `hashInit`, `hashAddHead`, `hashAddTail`, `hashFind`, `hashDelNode`, `hashDel`
* `HashStep` : one call on a table.
* `HashTable.RefinesMultiset` : the table is a multiset of keyed entries.

## Main results

* `HashTable.Buckets.insert`, `HashTable.Buckets.erase`, `hashFindLoop_eq`
* `refinesMultiset_of_reachable`

Source: `include/lib/hash.h`, lines 25–81; `lib/hash.c`, lines 7–21.
-/

namespace RiscvLab

open Library

/-- The list nodes of a table: the heads of its buckets and the nodes of the entries. -/
inductive HashNode (ε : Type*) (size : ℕ) where
  | head (b : Fin size)
  | entry (e : ε)
  deriving DecidableEq

/-- A `struct hash_table` with `size` buckets, and the fields of the entries it reads. -/
structure HashTable (ε : Type*) (size : ℕ) where
  links : Links (HashNode ε size)
  count : BitVec 32
  key : ε → ℕ

variable {ε : Type*} {size : ℕ}

/-- `hash_init`, where `heads` says whether `kmalloc` has supplied the array; `none` is its
return value 0. -/
def hashInit [DecidableEq ε] (st : HashTable ε size) (heads : Bool) : Option (HashTable ε size) :=
  if heads then
    some { st with
      count := 0
      links := (List.finRange size).foldl (fun h i => initListHead h (.head i)) st.links }
  else none

/-- `_hash`. -/
def hashOf (size : ℕ) [NeZero size] (k : ℕ) : Fin size := Fin.ofNat size k

/-- `hash_add_tail`. -/
def hashAddTail [DecidableEq ε] [NeZero size] (st : HashTable ε size) (k : ℕ) (e : ε) :
    HashTable ε size :=
  { st with
    links := listAddTail st.links (.entry e) (.head (hashOf size k))
    count := st.count + 1 }

/-- `hash_add_head`. -/
def hashAddHead [DecidableEq ε] [NeZero size] (st : HashTable ε size) (k : ℕ) (e : ε) :
    HashTable ε size :=
  { st with
    links := listAddHead st.links (.entry e) (.head (hashOf size k))
    count := st.count + 1 }

/-- The loop of `hash_find` in the bucket `b`, at the node `pos`. The inner `none` is `NULL`. The
outer `none` says that the loop has not ended after `fuel` rounds, or that it has taken the head of
another bucket for an entry. -/
def hashFindLoop (st : HashTable ε size) (k : ℕ) (b : Fin size) :
    ℕ → HashNode ε size → Option (Option ε)
  | 0, _ => none
  | _ + 1, .head b' => if b' = b then some none else none
  | fuel + 1, .entry e =>
    if st.key e = k then some (some e) else hashFindLoop st k b fuel (st.links.next (.entry e))

/-- `hash_find`. -/
def hashFind [NeZero size] (st : HashTable ε size) (k fuel : ℕ) : Option (Option ε) :=
  hashFindLoop st k (hashOf size k) fuel (st.links.next (.head (hashOf size k)))

/-- `hash_del_node`. -/
def hashDelNode [DecidableEq ε] (st : HashTable ε size) (e : ε) : HashTable ε size :=
  { st with links := listDel st.links (.entry e), count := st.count - 1 }

/-- `hash_del`, with the entry it leaves in `pos`. -/
def hashDel [DecidableEq ε] [NeZero size] (st : HashTable ε size) (k fuel : ℕ) :
    Option (Option ε × HashTable ε size) :=
  (hashFind st k fuel).map fun
    | none => (none, st)
    | some e => (some e, hashDelNode st e)

/-! ### The loop of `hash_find` -/

/-- The loop of `hash_find` returns the first entry with the key that is left in the bucket, or
none; it ends at the head, with one round more than there are entries. -/
theorem hashFindLoop_eq {st : HashTable ε size} {k : ℕ} {b : Fin size} {l : List ε}
    {a : HashNode ε size} (hs : Seg st.links a (l.map .entry) (.head b)) {fuel : ℕ}
    (hfuel : l.length < fuel) :
    hashFindLoop st k b fuel (st.links.next a) = some (l.find? fun e => st.key e = k) := by
  induction l generalizing a fuel with
  | nil =>
    obtain ⟨fuel, rfl⟩ := Nat.exists_eq_add_of_lt hfuel
    rw [hs.1, hashFindLoop, if_pos rfl, List.find?_nil]
  | cons e l ih =>
    rw [List.length_cons] at hfuel
    obtain ⟨fuel, rfl⟩ : ∃ m, fuel = m + 1 := Nat.exists_eq_succ_of_ne_zero (by omega)
    rw [hs.1.1, hashFindLoop]
    by_cases hk : st.key e = k
    · rw [if_pos hk, List.find?_cons_of_pos (by simpa using hk)]
    · rw [if_neg hk, List.find?_cons_of_neg (by simpa using hk), ih hs.2 (by omega)]

/-- A shorter run of the loop that ends has the same result. -/
theorem eq_of_hashFindLoop {st : HashTable ε size} {k : ℕ} {b : Fin size} {l : List ε}
    {a : HashNode ε size} (hs : Seg st.links a (l.map .entry) (.head b)) {fuel : ℕ}
    {r : Option ε} (hr : hashFindLoop st k b fuel (st.links.next a) = some r) :
    r = l.find? fun e => st.key e = k := by
  induction fuel generalizing a l with
  | zero => cases hr
  | succ fuel ih =>
    cases l with
    | nil =>
      rw [hs.1, hashFindLoop, if_pos rfl, Option.some_inj] at hr
      exact hr.symm
    | cons e l =>
      rw [hs.1.1, hashFindLoop] at hr
      by_cases hk : st.key e = k
      · rw [if_pos hk, Option.some_inj] at hr
        rw [List.find?_cons_of_pos (by simpa using hk), hr]
      · rw [if_neg hk] at hr
        rw [List.find?_cons_of_neg (by simpa using hk), ih hs.2 hr]

namespace HashTable

/-- The entry is on the list of some bucket. -/
def Linked (st : HashTable ε size) (e : ε) : Prop := ∃ b, OnRing st.links (.head b) (.entry e)

/-! ### The entries of the buckets -/

/-- `L b` are the entries of the bucket `b`, each of them in the bucket of its key. -/
structure Buckets [NeZero size] (st : HashTable ε size) (L : Fin size → List ε) : Prop where
  rings : Rings st.links .head fun b => (L b).map .entry
  bucket : ∀ b, ∀ e ∈ L b, hashOf size (st.key e) = b

variable [NeZero size] {st st' : HashTable ε size} {L : Fin size → List ε} {e : ε} {b : Fin size}
  {k : ℕ}

namespace Buckets

variable (hb : Buckets st L)

include hb

theorem onRing_iff : OnRing st.links (.head b) (.entry e) ↔ e ∈ L b := by
  rw [(hb.rings.ring b).onRing_iff]
  simp

theorem linked_iff : st.Linked e ↔ ∃ b, e ∈ L b :=
  exists_congr fun _ => hb.onRing_iff

theorem mem_hashOf (he : st.Linked e) : e ∈ L (hashOf size (st.key e)) := by
  obtain ⟨b, he⟩ := hb.linked_iff.1 he
  rwa [hb.bucket b e he]

theorem node_notMem (he : ¬ st.Linked e) (b : Fin size) :
    HashNode.entry e ∉ HashNode.head b :: (L b).map HashNode.entry := by
  have : e ∉ L b := fun h => he (hb.linked_iff.2 ⟨b, h⟩)
  simpa using this

theorem finite : {e | st.Linked e}.Finite := by
  have : {e | st.Linked e} = ⋃ b, {e | e ∈ L b} := by
    ext e
    simp [hb.linked_iff]
  rw [this]
  exact Set.finite_iUnion fun b => List.finite_toSet (L b)

theorem linked_of_hashFind {fuel : ℕ} (hfind : hashFind st k fuel = some (some e)) :
    st.Linked e := by
  have := eq_of_hashFindLoop (hb.rings.ring _).seg hfind
  exact hb.linked_iff.2 ⟨_, List.mem_of_find?_eq_some this.symm⟩

/-- What `hash_find` returns: an entry with the key, or `NULL` if there is none. -/
theorem exists_hashFind (k : ℕ) :
    ∃ r n, (∀ fuel, n ≤ fuel → hashFind st k fuel = some r) ∧
      (∀ e, r = some e → st.Linked e ∧ st.key e = k) ∧
      (r = none → ∀ e, st.Linked e → st.key e ≠ k) := by
  refine ⟨(L (hashOf size k)).find? fun e => st.key e = k, (L (hashOf size k)).length + 1,
    fun fuel hfuel => hashFindLoop_eq (hb.rings.ring _).seg hfuel, fun e he => ?_,
    fun hnone e he hk => ?_⟩
  · exact ⟨hb.linked_iff.2 ⟨_, List.mem_of_find?_eq_some he⟩, by
      simpa using List.find?_some he⟩
  · have hmem := hb.mem_hashOf he
    rw [hk] at hmem
    simpa [hk] using List.find?_eq_none.1 hnone e hmem

/-- An entry joins the bucket of its key, at whichever place. It is then among the linked entries,
and the other buckets are the same. -/
theorem insert {l : List ε} (hkey : st'.key = st.key) (hk : hashOf size (st.key e) = b)
    (hl : ∀ x, x ∈ l ↔ x ∈ L b ∨ x = e)
    (hr : Rings st'.links .head fun j => (Function.update L b l j).map .entry) :
    Buckets st' (Function.update L b l) ∧ ∀ x, st'.Linked x ↔ st.Linked x ∨ x = e := by
  have hb' : Buckets st' (Function.update L b l) := by
    refine ⟨hr, fun j x hx => ?_⟩
    rw [hkey]
    by_cases hj : j = b
    · subst hj
      rw [Function.update_self, hl] at hx
      rcases hx with hx | rfl
      · exact hb.bucket j x hx
      · exact hk
    · rw [Function.update_of_ne hj] at hx
      exact hb.bucket j x hx
  refine ⟨hb', fun x => ?_⟩
  rw [hb'.linked_iff, hb.linked_iff]
  constructor
  · rintro ⟨j, hx⟩
    by_cases hj : j = b
    · subst hj
      rw [Function.update_self, hl] at hx
      exact hx.imp_left fun h => ⟨j, h⟩
    · rw [Function.update_of_ne hj] at hx
      exact .inl ⟨j, hx⟩
  · rintro (⟨j, hx⟩ | rfl)
    · refine ⟨j, ?_⟩
      by_cases hj : j = b
      · subst hj
        rw [Function.update_self, hl]
        exact .inl hx
      · rwa [Function.update_of_ne hj]
    · exact ⟨b, by rw [Function.update_self, hl]; exact .inr rfl⟩

variable [DecidableEq ε]

theorem addHead (he : ¬ st.Linked e) :
    ∃ L', Buckets (hashAddHead st (st.key e) e) L' ∧
      ∀ x, (hashAddHead st (st.key e) e).Linked x ↔ st.Linked x ∨ x = e :=
  ⟨_, hb.insert rfl rfl (fun x => by rw [List.mem_cons, or_comm])
    (hb.rings.addHead_map _ (hb.node_notMem he))⟩

theorem addTail (he : ¬ st.Linked e) :
    ∃ L', Buckets (hashAddTail st (st.key e) e) L' ∧
      ∀ x, (hashAddTail st (st.key e) e).Linked x ↔ st.Linked x ∨ x = e :=
  ⟨_, hb.insert rfl rfl (fun x => by rw [List.mem_append, List.mem_singleton])
    (hb.rings.addTail_map _ (hb.node_notMem he))⟩

theorem delNode (he : st.Linked e) :
    ∃ L', Buckets (hashDelNode st e) L' ∧
      ∀ x, (hashDelNode st e).Linked x ↔ st.Linked x ∧ x ≠ e := by
  obtain ⟨b, hmem⟩ := hb.linked_iff.1 he
  obtain ⟨l₁, l₂, hL⟩ := List.append_of_mem hmem
  have hnodup : (L b).Nodup := List.Nodup.of_map _ (List.nodup_cons.1 (hb.rings.ring b).nodup).2
  rw [hL, List.nodup_middle, List.nodup_cons] at hnodup
  have hl : ∀ x, x ∈ l₁ ++ l₂ ↔ x ∈ L b ∧ x ≠ e := by
    intro x
    rw [hL]
    constructor
    · intro hx
      refine ⟨?_, fun h => hnodup.1 (h ▸ hx)⟩
      simp only [List.mem_append, List.mem_cons] at hx ⊢
      tauto
    · simp only [List.mem_append, List.mem_cons]
      tauto
  -- an entry of another bucket has another key
  have hother : ∀ j, j ≠ b → ∀ x ∈ L j, x ≠ e := by
    rintro j hj x hx rfl
    exact hj ((hb.bucket j x hx).symm.trans (hb.bucket b x hmem))
  have hmem' : ∀ j x, x ∈ Function.update L b (l₁ ++ l₂) j ↔ x ∈ L j ∧ x ≠ e := by
    intro j x
    by_cases hj : j = b
    · subst hj
      rw [Function.update_self, hl]
    · rw [Function.update_of_ne hj]
      exact ⟨fun hx => ⟨hx, hother j hj x hx⟩, And.left⟩
  have hb' : Buckets (hashDelNode st e) (Function.update L b (l₁ ++ l₂)) :=
    ⟨hb.rings.del_map hL, fun j x hx => hb.bucket j x ((hmem' j x).1 hx).1⟩
  refine ⟨_, hb', fun x => ?_⟩
  rw [hb'.linked_iff, hb.linked_iff]
  simp only [hmem', exists_and_right]

/-- A store to the fields of an entry that is not linked. -/
theorem store (he : ¬ st.Linked e) (next prev : HashNode ε size) (k : ℕ) :
    Buckets ⟨(st.links.setNext (.entry e) next).setPrev (.entry e) prev, st.count,
      Function.update st.key e k⟩ L := by
  refine ⟨hb.rings.congr fun b x hx => ?_, fun b x hx => ?_⟩
  · have hne : x ≠ .entry e := fun h => hb.node_notMem he b (h ▸ hx)
    exact ⟨Function.update_of_ne hne _ _, Function.update_of_ne hne _ _⟩
  · have hne : x ≠ e := fun h => he (hb.linked_iff.2 ⟨b, h ▸ hx⟩)
    change hashOf size (Function.update st.key e k x) = b
    rw [Function.update_of_ne hne]
    exact hb.bucket b x hx

end Buckets

end HashTable

/-! ### Runs -/

variable [DecidableEq ε] [NeZero size]

/-- The calls on a table, and a store of the owner of an entry to its fields. -/
inductive HashCall (ε : Type*) (size : ℕ) where
  | addHead (k : ℕ) (e : ε)
  | addTail (k : ℕ) (e : ε)
  | find (k : ℕ)
  | del (k : ℕ)
  | delNode (e : ε)
  | store (e : ε) (next prev : HashNode ε size) (k : ℕ)

open HashTable

/-- One call. An entry is added under its own key while it is not linked, it is deleted while it is
linked, and its fields are stored only while it is not linked. -/
inductive HashStep : HashTable ε size → HashCall ε size → HashTable ε size → Prop
  | addHead {st e} : ¬ st.Linked e →
      HashStep st (.addHead (st.key e) e) (hashAddHead st (st.key e) e)
  | addTail {st e} : ¬ st.Linked e →
      HashStep st (.addTail (st.key e) e) (hashAddTail st (st.key e) e)
  | find {st k fuel r} : hashFind st k fuel = some r → HashStep st (.find k) st
  | del {st k fuel r st'} : hashDel st k fuel = some (r, st') → HashStep st (.del k) st'
  | delNode {st e} : st.Linked e → HashStep st (.delNode e) (hashDelNode st e)
  | store {st} (e next prev k) : ¬ st.Linked e → HashStep st (.store e next prev k)
      ⟨(st.links.setNext (.entry e) next).setPrev (.entry e) prev, st.count,
        Function.update st.key e k⟩

/-- A table that `hash_init` has just set up. -/
def HashStart (st : HashTable ε size) : Prop :=
  ∃ st₀ : HashTable ε size, hashInit st₀ true = some st

namespace HashTable

/-- The table is a multiset of keyed entries, of which each is in the bucket of its key, and the
calls add, find and remove entries. -/
structure RefinesMultiset (st : HashTable ε size) : Prop where
  bucket : ∀ b e, OnRing st.links (.head b) (.entry e) → b.val = st.key e % size
  count : {e | st.Linked e}.Finite ∧ st.count = BitVec.ofNat 32 {e | st.Linked e}.ncard
  count_toInt : {e | st.Linked e}.ncard < 2 ^ 31 → st.count.toInt = {e | st.Linked e}.ncard
  addHead : ∀ e, ¬ st.Linked e →
    ∀ x, (hashAddHead st (st.key e) e).Linked x ↔ st.Linked x ∨ x = e
  addTail : ∀ e, ¬ st.Linked e →
    ∀ x, (hashAddTail st (st.key e) e).Linked x ↔ st.Linked x ∨ x = e
  delNode : ∀ e, st.Linked e → ∀ x, (hashDelNode st e).Linked x ↔ st.Linked x ∧ x ≠ e
  find : ∀ k, ∃ r st' n,
    (∀ fuel, n ≤ fuel → hashFind st k fuel = some r ∧ hashDel st k fuel = some (r, st')) ∧
      (∀ e, r = some e → st.Linked e ∧ st.key e = k) ∧
      (r = none → ∀ e, st.Linked e → st.key e ≠ k) ∧
      ∀ x, st'.Linked x ↔ st.Linked x ∧ r ≠ some x

/-- The buckets are in order, and `count` is the number of the entries. -/
structure Counted (st : HashTable ε size) : Prop where
  buckets : ∃ L, Buckets st L
  count : st.count = BitVec.ofNat 32 {e | st.Linked e}.ncard

variable {st st' : HashTable ε size} {e : ε} {k : ℕ}

omit [DecidableEq ε] in
/-- An entry more. -/
theorem Counted.insert (hc : Counted st) (he : ¬ st.Linked e) (hb : ∃ L, Buckets st' L)
    (hl : ∀ x, st'.Linked x ↔ st.Linked x ∨ x = e) (hcount : st'.count = st.count + 1) :
    Counted st' := by
  obtain ⟨L, hL⟩ := hc.buckets
  have hset : {x | st'.Linked x} = Insert.insert e {x | st.Linked x} := by
    ext x
    rw [Set.mem_ofPred_eq, hl, Set.mem_insert_iff, or_comm, Set.mem_ofPred_eq]
  have hmem : e ∉ {x | st.Linked x} := he
  refine ⟨hb, ?_⟩
  rw [hcount, hc.count, hset, Set.ncard_insert_of_notMem hmem hL.finite, BitVec.ofNat_add]
  rfl

/-- An entry less. -/
theorem Counted.erase (hc : Counted st) (he : st.Linked e) : Counted (hashDelNode st e) := by
  obtain ⟨L, hL⟩ := hc.buckets
  obtain ⟨L', hL', hl⟩ := hL.delNode he
  have hset : {x | (hashDelNode st e).Linked x} = {x | st.Linked x} \ {e} := by
    ext x
    rw [Set.mem_ofPred_eq, hl, Set.mem_sdiff, Set.mem_ofPred_eq, Set.mem_singleton_iff]
  refine ⟨⟨L', hL'⟩, ?_⟩
  have hcard : {x | (hashDelNode st e).Linked x}.ncard + 1 = {x | st.Linked x}.ncard := by
    rw [hset]
    exact Set.ncard_sdiff_singleton_add_one he hL.finite
  change st.count - 1 = _
  rw [hc.count, ← hcard, BitVec.ofNat_add]
  exact BitVec.add_sub_cancel _ _

theorem Counted.refinesMultiset (hc : Counted st) : RefinesMultiset st := by
  obtain ⟨L, hL⟩ := hc.buckets
  refine
    { bucket := fun b e he => ?_
      count := ⟨hL.finite, hc.count⟩
      count_toInt := fun hlt => ?_
      addHead := fun e he => (hL.addHead he).choose_spec.2
      addTail := fun e he => (hL.addTail he).choose_spec.2
      delNode := fun e he => (hL.delNode he).choose_spec.2
      find := fun k => ?_ }
  · rw [← hL.bucket b e (hL.onRing_iff.1 he)]
    rfl
  · rw [hc.count, toInt_ofNat hlt]
  · obtain ⟨r, n, hfind, hsome, hnone⟩ := hL.exists_hashFind k
    cases r with
    | none =>
      refine ⟨none, st, n, fun fuel hfuel => ⟨hfind fuel hfuel, ?_⟩, hsome, hnone, fun x => ?_⟩
      · rw [hashDel, hfind fuel hfuel]
        rfl
      · simp
    | some e =>
      obtain ⟨L', -, hl⟩ := hL.delNode (hsome e rfl).1
      refine ⟨some e, hashDelNode st e, n, fun fuel hfuel => ⟨hfind fuel hfuel, ?_⟩, hsome, hnone,
        fun x => ?_⟩
      · rw [hashDel, hfind fuel hfuel]
        rfl
      · rw [hl, ne_comm, Ne, Ne, Option.some_inj]

end HashTable

omit [NeZero size] in
private theorem foldl_initListHead {bs : List (Fin size)} {h : Links (HashNode ε size)}
    {b : Fin size} (hb : b ∈ bs ∨ h.next (.head b) = .head b ∧ h.prev (.head b) = .head b) :
    let h' := bs.foldl (fun h i => initListHead h (.head i)) h
    h'.next (.head b) = .head b ∧ h'.prev (.head b) = .head b := by
  induction bs generalizing h with
  | nil => exact hb.resolve_left List.not_mem_nil
  | cons i bs ih =>
    refine ih ?_
    rw [initListHead_next, initListHead_prev]
    by_cases hbi : b = i
    · subst hbi
      exact .inr ⟨if_pos rfl, if_pos rfl⟩
    · have hne : HashNode.head b ≠ (HashNode.head i : HashNode ε size) := by simpa using hbi
      rw [if_neg hne, if_neg hne]
      exact hb.imp_left fun hmem => (List.mem_cons.1 hmem).resolve_left hbi

/-- `hash_init` leaves every bucket empty. -/
theorem HashStart.buckets {st : HashTable ε size} (hst : HashStart st) :
    Buckets st fun _ => [] := by
  obtain ⟨st₀, h⟩ := hst
  rw [hashInit, if_pos rfl, Option.some_inj] at h
  have hself : ∀ b, st.links.next (.head b) = .head b ∧ st.links.prev (.head b) = .head b := by
    intro b
    rw [← h]
    exact foldl_initListHead (.inl (List.mem_finRange b))
  refine ⟨⟨fun b => ⟨List.nodup_singleton _, hself b⟩, fun b c hbc x hx => ?_⟩,
    fun b e he => absurd he List.not_mem_nil⟩
  obtain rfl := List.mem_singleton.1 hx
  simpa using hbc

theorem HashStart.not_linked {st : HashTable ε size} (hst : HashStart st) (e : ε) :
    ¬ st.Linked e := by
  simp [hst.buckets.linked_iff]

theorem HashStart.counted {st : HashTable ε size} (hst : HashStart st) : Counted st := by
  have hempty : {e | st.Linked e} = ∅ := Set.eq_empty_of_forall_notMem hst.not_linked
  refine ⟨⟨_, hst.buckets⟩, ?_⟩
  obtain ⟨st₀, h⟩ := hst
  rw [hashInit, if_pos rfl, Option.some_inj] at h
  rw [hempty, Set.ncard_empty, ← h]
  rfl

theorem HashStep.counted {st st' : HashTable ε size} {a : HashCall ε size}
    (hstep : HashStep st a st') (hc : Counted st) : Counted st' := by
  obtain ⟨L, hL⟩ := hc.buckets
  cases hstep with
  | addHead he =>
    obtain ⟨L', hL', hl⟩ := hL.addHead he
    exact hc.insert he ⟨L', hL'⟩ hl rfl
  | addTail he =>
    obtain ⟨L', hL', hl⟩ := hL.addTail he
    exact hc.insert he ⟨L', hL'⟩ hl rfl
  | find _ => exact hc
  | del hdel =>
    obtain ⟨r', hfind, heq⟩ := Option.map_eq_some_iff.1 hdel
    cases r' with
    | none =>
      obtain ⟨-, rfl⟩ := Prod.mk.inj heq
      exact hc
    | some e =>
      obtain ⟨-, rfl⟩ := Prod.mk.inj heq
      exact hc.erase (hL.linked_of_hashFind hfind)
  | delNode he => exact hc.erase he
  | store e next prev k he =>
    have hL' := hL.store he next prev k
    refine ⟨⟨L, hL'⟩, ?_⟩
    have hset : ∀ x, _ ↔ st.Linked x := fun x => hL'.linked_iff.trans hL.linked_iff.symm
    simp only [hset]
    exact hc.count

/-- In every run the table is a multiset of keyed entries. A lookup comes to an end, and finds an
entry with the key if there is one. -/
theorem refinesMultiset_of_reachable {st : HashTable ε size}
    (hr : Reachable HashStart HashStep st) : RefinesMultiset st := by
  have hc : Counted st :=
    hr.invariant (P := Counted) (fun _ => HashStart.counted) fun _ _ _ hc hstep => hstep.counted hc
  exact hc.refinesMultiset

/-- Two entries whose keys 10 and 3 fall into the same one of seven buckets. -/
theorem refinesMultiset_colliding_keys : ∃ st : HashTable Bool 7, Reachable HashStart HashStep st ∧
    (∀ e, OnRing st.links (.head 3) (.entry e)) ∧ hashFind st 10 3 = some (some true) ∧
      hashFind st 3 3 = some (some false) ∧ RefinesMultiset st := by
  have hstart : HashStart (_ : HashTable Bool 7) := ⟨⟨.isolated, 0, fun e => cond e 10 3⟩, rfl⟩
  obtain ⟨L, hL, hl⟩ := hstart.buckets.addHead (hstart.not_linked true)
  have hfalse := (hl false).not.2 (not_or.2 ⟨hstart.not_linked false, nofun⟩)
  have hr := ((Reachable.start hstart).next (HashStep.addHead (hstart.not_linked true))).next
    (HashStep.addTail hfalse)
  refine ⟨_, hr, fun e => ?_, rfl, rfl, refinesMultiset_of_reachable hr⟩
  cases e with
  | true => exact ⟨0, rfl, by decide⟩
  | false => exact ⟨1, rfl, by decide⟩

end RiscvLab
