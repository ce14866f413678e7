import RiscvLab.Library.Except
import RiscvLab.Mm.SlabContract

/-!
# The slabs of the CPUs

`kmem_cache_alloc` takes an object from the slab of its CPU without `cache->lock`, and
`kmem_cache_free` returns an object to a slab that is linked to itself without the lock. Such a slab
is the slab of a CPU, but of the CPU that has allocated the object, not of the one that frees it. So
what is changed without the lock is private to the executing CPU if and only if no object from the
slab of another CPU is freed: `cpuPrivate_iff`.

The two functions are repeated with the place where they call `obj_pop` and `obj_push` as a second
result; without it they are the functions of before (`map_fst_kmemCacheAllocTraced`,
`map_fst_kmemCacheFreeTraced`).

Source: `mm/slab.c`, lines 194–275.
-/

namespace RiscvLab.Mm

open Library

variable {κ : Type} [DecidableEq κ]

/-- A call of `obj_pop` or `obj_push`: the slab, and whether `cache->lock` is held. -/
structure Access where
  slab : ℕ
  locked : Bool
  deriving DecidableEq

/-- `kmem_cache_alloc` and its call of `obj_pop`. -/
def kmemCacheAllocTraced (s : SlabState κ) (c : κ) (cpuid : Fin ncpu) (pages : ℕ × ℕ) :
    Except Trap ((Obj κ × SlabState κ) × Access) := do
  if listEmpty s.links (.cacheList c) then throw .panic
  let cpuSlab := (s.cache c).cacheCpu cpuid
  if ← isSlabPartial s cpuSlab c then
    let res ← objPop s cpuSlab
    .ok (res, ⟨cpuSlab, false⟩)
  else if listEmpty s.links (.partSlabs c) then
    let (slab, s) := kmemCacheAddSlab s c pages
    let res ← objPop s slab
    .ok (res, ⟨slab, true⟩)
  else
    match listFirst s.links (.partSlabs c) with
    | .slabList slab =>
      let (obj, s) ← objPop s slab
      if ← isSlabPartial s slab c then .ok ((obj, s), ⟨slab, true⟩)
      else .ok ((obj, moveSlab s slab (.fullSlabs c)), ⟨slab, true⟩)
    | _ => throw .nullDeref

/-- `kmem_cache_free` and its call of `obj_push`. -/
def kmemCacheFreeTraced (s : SlabState κ) (c : κ) (obj : ℕ) :
    Except Trap (SlabState κ × Access) := do
  if listEmpty s.links (.cacheList c) then throw .panic
  match s.pageSlab (getPageStruct obj) with
  | none => throw .nullDeref
  | some slab =>
    if listEmpty s.links (.slabList slab) then
      let s ← objPush s slab obj
      .ok (s, ⟨slab, false⟩)
    else if ← isSlabPartial s slab c then
      let s ← objPush s slab obj
      .ok (s, ⟨slab, true⟩)
    else
      let s ← objPush (moveSlab s slab (.partSlabs c)) slab obj
      .ok (s, ⟨slab, true⟩)

/-- `kfree` and its call of `obj_push`. -/
def kfreeTraced (s : SlabState κ) (obj : ℕ) : Except Trap (SlabState κ × Access) :=
  match s.pageSlab (getPageStruct obj) with
  | none => .error .nullDeref
  | some slab =>
    match s.slab slab with
    | none => .error .nullDeref
    | some sl => kmemCacheFreeTraced s sl.kc obj

theorem map_fst_kmemCacheAllocTraced (s : SlabState κ) (c : κ) (cpuid : Fin ncpu) (pages : ℕ × ℕ) :
    (kmemCacheAllocTraced s c cpuid pages).map Prod.fst = kmemCacheAlloc s c cpuid pages := by
  have hret {α β : Type} (x : Except Trap α) (b : β) :
      Except.map Prod.fst (x >>= fun r => Except.ok (r, b)) = x := by cases x <;> rfl
  unfold kmemCacheAllocTraced kmemCacheAlloc
  cases listEmpty s.links (.cacheList c) with
  | true => rfl
  | false =>
    simp only [Bool.false_eq_true, if_false]
    cases isSlabPartial s ((s.cache c).cacheCpu cpuid) c with
    | error t => rfl
    | ok b =>
      cases b with
      | true => exact hret _ _
      | false =>
        simp only [ok_bind, Bool.false_eq_true, if_false]
        cases listEmpty s.links (.partSlabs c) with
        | true => exact hret _ _
        | false =>
          simp only [Bool.false_eq_true, if_false]
          cases listFirst s.links (.partSlabs c) with
          | slabList slab =>
            dsimp only
            cases objPop s slab with
            | error t => rfl
            | ok res =>
              simp only [ok_bind]
              cases isSlabPartial res.2 slab c with
              | error t => rfl
              | ok b => cases b <;> rfl
          | _ => rfl

theorem map_fst_kmemCacheFreeTraced (s : SlabState κ) (c : κ) (obj : ℕ) :
    (kmemCacheFreeTraced s c obj).map Prod.fst = kmemCacheFree s c obj := by
  have hret {α β : Type} (x : Except Trap α) (b : β) :
      Except.map Prod.fst (x >>= fun r => Except.ok (r, b)) = x := by cases x <;> rfl
  unfold kmemCacheFreeTraced kmemCacheFree
  cases listEmpty s.links (.cacheList c) with
  | true => rfl
  | false =>
    simp only [Bool.false_eq_true, if_false]
    cases s.pageSlab (getPageStruct obj) with
    | none => rfl
    | some slab =>
      dsimp only
      cases listEmpty s.links (.slabList slab) with
      | true => exact hret _ _
      | false =>
        simp only [Bool.false_eq_true, if_false]
        cases isSlabPartial s slab c with
        | error t => rfl
        | ok b =>
          cases b with
          | true => exact hret _ _
          | false => exact hret _ _

theorem map_fst_kfreeTraced (s : SlabState κ) (obj : ℕ) :
    (kfreeTraced s obj).map Prod.fst = kfree s obj := by
  unfold kfreeTraced kfree
  cases s.pageSlab (getPageStruct obj) with
  | none => rfl
  | some slab =>
    dsimp only
    cases s.slab slab with
    | none => rfl
    | some sl => exact map_fst_kmemCacheFreeTraced s sl.kc obj

/-! ### Calls on a CPU -/

/-- The calls that use the slabs of a cache. -/
inductive CpuCall (κ : Type)
  | alloc (c : κ)
  | free (o : Obj κ)
  | kfree (o : Obj κ)

namespace CpuCall

/-- The call on a CPU. -/
def on (cpuid : Fin ncpu) : CpuCall κ → SlabCall κ
  | alloc c => .alloc c cpuid
  | free o => .free o
  | kfree o => .kfree o

/-- The cache that the call is about. -/
def cache : CpuCall κ → κ
  | alloc c => c
  | free o | kfree o => o.cache

/-- The call changes `inuse` and the stack of a slab. -/
def Accesses (s : SlabState κ) (cpuid : Fin ncpu) (a : Access) : CpuCall κ → Prop
  | alloc c => ∃ pages res, kmemCacheAllocTraced s c cpuid pages = .ok (res, a)
  | free o => ∃ s', kmemCacheFreeTraced s o.cache o.addr = .ok (s', a)
  | kfree o => ∃ s', kfreeTraced s o.addr = .ok (s', a)

/-- What the call changes without the lock is the slab of its CPU. -/
def CpuPrivate (s : SlabState κ) (cpuid : Fin ncpu) (call : CpuCall κ) : Prop :=
  ∀ a, call.Accesses s cpuid a → a.locked = false → a.slab = (s.cache call.cache).cacheCpu cpuid

/-- The call does not free an object from the slab of another CPU. -/
def AtHome (s : SlabState κ) (cpuid : Fin ncpu) : CpuCall κ → Prop
  | alloc _ => True
  | free o | kfree o => ∀ i, o.slab = (s.cache o.cache).cacheCpu i → i = cpuid

end CpuCall

section Access

variable {s s' : SlabState κ} {c : κ} {cpuid : Fin ncpu} {a : Access}

/-- Without the lock, `kmem_cache_alloc` takes an object from the slab of the CPU. -/
theorem kmemCacheAllocTraced_spec (pages : ℕ × ℕ) :
    Ensures (fun _ => True) (kmemCacheAllocTraced s c cpuid pages) fun r =>
      r.2.locked = false → r.2.slab = (s.cache c).cacheCpu cpuid := by
  dsimp only [kmemCacheAllocTraced]
  split
  · exact .error True.intro
  refine .bind .trivial fun b _ => ?_
  split
  · exact .bind .trivial fun _ _ => .ok fun _ => rfl
  split
  · exact .bind .trivial fun _ _ => .ok fun h => by cases h
  split
  · refine .bind .trivial fun _ _ => .bind .trivial fun b _ => ?_
    cases b <;> exact .ok fun h => by cases h
  · exact .error True.intro

omit cpuid in
/-- `kmem_cache_free` returns an object to the slab that its page leads to, without the lock if this
slab is linked to itself. -/
theorem kmemCacheFreeTraced_spec (obj : ℕ) :
    Ensures (fun _ => True) (kmemCacheFreeTraced s c obj) fun r =>
      s.pageSlab (getPageStruct obj) = some r.2.slab ∧
        (r.2.locked = false ↔ listEmpty s.links (.slabList r.2.slab) = true) := by
  dsimp only [kmemCacheFreeTraced]
  split
  · exact .error True.intro
  split
  · exact .error True.intro
  next slab hslab =>
  split
  · next hempty => exact .bind .trivial fun _ _ => .ok ⟨hslab, fun _ => hempty, fun _ => rfl⟩
  next hempty =>
  refine .bind .trivial fun b _ => ?_
  split
  · exact .bind .trivial fun _ _ => .ok ⟨hslab, iff_of_false Bool.noConfusion hempty⟩
  · exact .bind .trivial fun _ _ => .ok ⟨hslab, iff_of_false Bool.noConfusion hempty⟩

end Access

/-! ### Every call -/

section Call

variable {r r' : SlabRun κ} {L : ListKey κ → List (SlabNode κ)} {o : Obj κ} {cpuid : Fin ncpu}

/-- A slab is linked to itself if and only if it is the slab of a CPU. -/
theorem SlabInv.listEmpty_iff (hI : SlabInv r L) (ho : o ∈ r.out) :
    listEmpty r.st.links (.slabList o.slab) = true ↔
      ∃ i, o.slab = (r.st.cache o.cache).cacheCpu i := by
  obtain ⟨p, hp⟩ := hI.core.stacksInv.issued ho
  constructor
  · intro hempty
    refine (hI.covered hp).resolve_right fun ⟨k, hk⟩ => ?_
    rw [hI.core.listsInv.rings.notEmpty_of_mem hk] at hempty
    cases hempty
  · rintro ⟨i, hi⟩
    have hun := (hI.cpu (hI.created hp) i).2
    rw [← hi] at hun
    simpa [listEmpty] using (hI.core.listsInv.unlisted (by simp [hp]) hun).1

section

variable (hI : SlabInv r L) (ho : o ∈ r.out)
  (hown : r.st.pageSlab (getPageStruct o.addr) = some o.slab)

include hI ho hown

/-- A free that returns changes the slab that has issued the object, without the lock if this is the
slab of a CPU. -/
theorem SlabInv.exists_access :
    ∃ s' locked, kmemCacheFreeTraced r.st o.cache o.addr = .ok (s', ⟨o.slab, locked⟩) ∧
      (locked = false ↔ ∃ i, o.slab = (r.st.cache o.cache).cacheCpu i) := by
  obtain ⟨sl, s', hsl, hkc, hok, -⟩ := hI.kmemCacheFree_cases ho hown
  have hmap := map_fst_kmemCacheFreeTraced r.st o.cache o.addr
  rw [hok] at hmap
  cases htr : kmemCacheFreeTraced r.st o.cache o.addr with
  | error t =>
    rw [htr] at hmap
    cases hmap
  | ok res =>
    obtain ⟨s₁, slab, locked⟩ := res
    obtain ⟨hslab, hlocked⟩ := (kmemCacheFreeTraced_spec o.addr).of_eq_ok htr
    obtain rfl : o.slab = slab := Option.some.inj (hown.symm.trans hslab)
    exact ⟨s₁, locked, rfl, hlocked.trans (hI.listEmpty_iff ho)⟩

theorem SlabInv.kfreeTraced_eq :
    kfreeTraced r.st o.addr = kmemCacheFreeTraced r.st o.cache o.addr := by
  obtain ⟨p, hp⟩ := hI.core.stacksInv.issued ho
  obtain ⟨sl, hsl, hkc, -⟩ := slab_of_shape hp
  simp [kfreeTraced, hown, hsl, hkc]

theorem SlabInv.cpuPrivate_free_iff :
    (CpuCall.free o).CpuPrivate r.st cpuid ↔ (CpuCall.free o).AtHome r.st cpuid := by
  obtain ⟨s', locked, hok, hlocked⟩ := hI.exists_access ho hown
  obtain ⟨p, hp⟩ := hI.core.stacksInv.issued ho
  constructor
  · intro h i hi
    have hslab : o.slab = (r.st.cache o.cache).cacheCpu cpuid :=
      h ⟨o.slab, locked⟩ ⟨s', hok⟩ (hlocked.2 ⟨i, hi⟩)
    exact hI.own (hI.created hp) (hi.symm.trans hslab)
  · rintro h a ⟨s₁, hok'⟩ hl
    obtain ⟨-, rfl⟩ : s' = s₁ ∧ (⟨o.slab, locked⟩ : Access) = a := by simpa [hok] using hok'
    obtain ⟨i, hi⟩ := hlocked.1 hl
    exact hi.trans (by rw [h i hi]; rfl)

end

end Call

/-- In every run, a call that returns changes nothing without the lock but the slab of its CPU, if
and only if it does not free an object from the slab of another CPU. -/
theorem cpuPrivate_iff {r r' : SlabRun κ} (hr : Reachable SlabStart SlabStep r) {cpuid : Fin ncpu}
    {call : CpuCall κ} (hs : SlabStep r (call.on cpuid) r') :
    call.CpuPrivate r.st cpuid ↔ call.AtHome r.st cpuid := by
  obtain ⟨L, hI⟩ := slabInv_of_reachable hr
  cases call with
  | alloc c =>
    refine iff_of_true ?_ trivial
    rintro a ⟨pages, res, h⟩ hl
    exact (kmemCacheAllocTraced_spec pages).of_eq_ok h hl
  | free o =>
    cases hs with
    | free ho hok =>
      obtain ⟨a, ha⟩ := kmemCacheFree_ok hok
      obtain rfl := hI.core.owner_eq ho ha
      exact hI.cpuPrivate_free_iff ho ha
  | kfree o =>
    cases hs with
    | kfree ho hok =>
      obtain ⟨a, ha⟩ := kfree_ok hok
      obtain rfl := hI.core.owner_eq ho ha
      have hiff : (CpuCall.free o).CpuPrivate r.st cpuid ↔ (CpuCall.free o).AtHome r.st cpuid :=
        hI.cpuPrivate_free_iff ho ha
      simp only [CpuCall.CpuPrivate, CpuCall.Accesses, CpuCall.cache] at hiff ⊢
      rw [hI.kfreeTraced_eq ho ha]
      exact hiff

/-- After one allocation on a CPU: the object, and its slab. -/
theorem exists_cpu_object (cpuid : Fin ncpu) : ∃ r : SlabRun Unit, Reachable SlabStart SlabStep r ∧
    ∃ o ∈ r.out, o.slab = (r.st.cache o.cache).cacheCpu cpuid ∧
      r.st.pageSlab (getPageStruct o.addr) = some o.slab := by
  obtain ⟨r, hreach, hsize, -, sl, hsl, -, hin⟩ := exists_cpu_inuse () cpuid (n := 16)
    (by decide) (by decide) (k := 1) (by
      rw [ofSize_countPerSlab _ (by decide) (by decide)]
      exact Nat.two_pow_pos _)
  obtain ⟨L, hI⟩ := slabInv_of_reachable hreach
  have hlen := hI.core.stacksInv.length_held hsl
  obtain ⟨x, hx⟩ := List.exists_mem_of_length_pos (hlen ▸ hin ▸ Nat.one_pos)
  obtain ⟨o, ho, hslab, -⟩ := mem_held.1 hx
  exact ⟨r, hreach, o, ho, hslab, hI.owner_of_order_zero ho (hI.order_eq_zero hsize (by decide))⟩

/-- An object that is freed on the CPU that has allocated it. -/
theorem cpuPrivate_one_cpu : ∃ (r : SlabRun Unit) (o : Obj Unit) (i : Fin ncpu),
    Reachable SlabStart SlabStep r ∧ o ∈ r.out ∧ (CpuCall.free o).CpuPrivate r.st i := by
  obtain ⟨r, hr, o, ho, hslab, hown⟩ := exists_cpu_object ⟨0, by decide⟩
  obtain ⟨L, hI⟩ := slabInv_of_reachable hr
  obtain ⟨sl, s', -, -, hok, -⟩ := hI.kmemCacheFree_cases ho hown
  obtain ⟨p, hp⟩ := hI.core.stacksInv.issued ho
  have hstep : SlabStep r ((CpuCall.free o).on ⟨0, by decide⟩) _ := .free ho hok
  exact ⟨r, o, _, hr, ho, (cpuPrivate_iff hr hstep).2 fun i hi =>
    hI.own (hI.created hp) (hi.symm.trans hslab)⟩

/-- An object that is freed on another CPU: the slab of the first is changed without the lock. -/
theorem exists_foreign_free :
    ∃ (r : SlabRun Unit) (o : Obj Unit) (s' : SlabState Unit) (a : Access),
    Reachable SlabStart SlabStep r ∧ o ∈ r.out ∧
      kmemCacheFreeTraced r.st o.cache o.addr = .ok (s', a) ∧ a.locked = false ∧
      a.slab ≠ (r.st.cache o.cache).cacheCpu ⟨1, by decide⟩ := by
  obtain ⟨r, hr, o, ho, hslab, hown⟩ := exists_cpu_object ⟨0, by decide⟩
  obtain ⟨L, hI⟩ := slabInv_of_reachable hr
  obtain ⟨s', locked, hok, hlocked⟩ := hI.exists_access ho hown
  obtain ⟨p, hp⟩ := hI.core.stacksInv.issued ho
  refine ⟨r, o, s', _, hr, ho, hok, hlocked.2 ⟨_, hslab⟩, fun h => ?_⟩
  have := hI.own (hI.created hp) (hslab.symm.trans h)
  exact absurd this (by decide)

end RiscvLab.Mm
