import RiscvLab.Lib.List
import RiscvLab.Lib.Math
import RiscvLab.Mm.Buddy

/-!
# The slab allocator

A `kmem_cache` hands out objects of one size. Its objects live in slabs: a slab is a page that
holds `struct slab` followed by a stack of object addresses, and a block of `2^order` pages that
holds the objects. Every CPU owns one slab of the cache; all further slabs are on `part_slabs` or
`full_slabs`.

A slab is named by the index of its page, a cache by an element of `κ`. The stack of a slab is part
of the memory `mem`, which maps the address of a word to its value, so that stores into objects and
into stacks share one memory. The two page allocations of `slab_create` are arguments: the page for
the slab and the first page of its block. Flags and names, which no modelled function reads, are
left out, and so is the lock: a call runs as one step.

Source: `mm/slab.c`; `include/mm/slab.h`; `mm/kmalloc.c`, lines 92–97; `mm/page.c`, lines 18–26.
-/

namespace RiscvLab.Mm

open Library

variable {κ : Type} [DecidableEq κ]

/-- `NCPU`. -/
def ncpu : ℕ := 4

/-- `PGSIZE`. -/
def pgSize : ℕ := 4096

/-- `KERNBASE`. -/
def kernBase : ℕ := 0x80000000

/-- `get_page_struct`, as an index into `mem_map.pages`. -/
def getPageStruct (addr : ℕ) : ℕ := (addr - kernBase) / pgSize

/-- `get_page_addr`. -/
def getPageAddr (index : ℕ) : ℕ := index * pgSize + kernBase

/-- A list node of the allocator. -/
inductive SlabNode (κ : Type)
  | kmemCacheList
  | cacheList (cache : κ)
  | partSlabs (cache : κ)
  | fullSlabs (cache : κ)
  | slabList (slab : ℕ)
  deriving DecidableEq

/-- `struct kmem_cache`. -/
structure KmemCache where
  size : ℕ
  order : ℕ
  countPerSlab : ℕ
  cacheCpu : Fin ncpu → ℕ

/-- `struct slab`: its cache, the address of its block of objects, the number of objects handed
out, and the address of the top entry of its stack. -/
structure Slab (κ : Type) where
  kc : κ
  objs : ℕ
  inuse : ℕ
  freeList : ℕ

/-- The caches, the slabs by the page they are in, their list nodes, the words of memory, and the
field `slab` of every page. -/
structure SlabState (κ : Type) where
  cache : κ → KmemCache
  slab : ℕ → Option (Slab κ)
  links : Links (SlabNode κ)
  mem : ℕ → ℕ
  pageSlab : ℕ → Option ℕ

/-- An object that was handed out: its cache, the slab whose stack it came from, its address. -/
structure Obj (κ : Type) where
  cache : κ
  slab : ℕ
  addr : ℕ
  deriving DecidableEq

/-- The allocator at boot. Nothing reads a list node before `INIT_LIST_HEAD`, so all are taken as
linked to themselves. -/
def SlabState.boot (mem : ℕ → ℕ) : SlabState κ where
  cache _ := ⟨0, 0, 0, fun _ => 0⟩
  slab _ := none
  links := Links.isolated
  mem := mem
  pageSlab _ := none

@[simp]
theorem ok_bind {α β : Type} (x : α) (f : α → Except Trap β) : (Except.ok x >>= f) = f x := rfl

/-! ### Creating slabs -/

/-- `&slab->free_list`: the field lies 40 bytes into `struct slab`. -/
def freeListField (slab : ℕ) : ℕ := getPageAddr slab + 40

/-- The loop of `slab_create` over the pages of the block: every iteration stores into the first
page, `page->slab`, and none into `page + i`. -/
def pageSlabLoop (page slab : ℕ) : ℕ → (ℕ → Option ℕ) → ℕ → Option ℕ
  | 0, ps => ps
  | n + 1, ps => pageSlabLoop page slab n (Function.update ps page (some slab))

/-- The loop of `slab_create` that fills the stack behind `free_list`, after `n` iterations. -/
def freeTableLoop (freeList objs size : ℕ) (mem : ℕ → ℕ) : ℕ → ℕ → ℕ
  | 0 => mem
  | i + 1 => Function.update (freeTableLoop freeList objs size mem i) (freeList + 8 * (i + 1))
      (objs + i * size)

/-- `slab_create`, given the pages `slab` and `objPage` that the two allocations return; the first
one is zeroed. -/
def slabCreate (s : SlabState κ) (c : κ) (slab objPage : ℕ) : SlabState κ :=
  let cache := s.cache c
  let objs := getPageAddr objPage
  let mem := fun a => if getPageAddr slab ≤ a ∧ a < getPageAddr slab + pgSize then 0 else s.mem a
  { s with
    slab := Function.update s.slab slab (some ⟨c, objs, 0, freeListField slab + 8⟩)
    links := initListHead s.links (.slabList slab)
    mem := freeTableLoop (freeListField slab) objs cache.size mem cache.countPerSlab
    pageSlab := pageSlabLoop (getPageStruct objs) slab (2 ^ cache.order) s.pageSlab }

/-- The loop of `calc_slab_order`; `slab_size` is `PGSIZE << order` throughout. -/
def calcSlabOrderLoop (requireSize order : ℕ) : ℕ :=
  if requireSize > pgSize * 2 ^ order then calcSlabOrderLoop requireSize (order + 1) else order
  termination_by requireSize - pgSize * 2 ^ order
  decreasing_by
    have := Nat.two_pow_pos order
    simp only [pgSize, Nat.pow_succ] at *
    omega

/-- `calc_slab_order`, with `MIN_OBJ_COUNT_PER_PAGE` equal to 4. -/
def calcSlabOrder (objSize : BitVec 16) : ℕ := calcSlabOrderLoop (objSize.toNat * 4) 0

/-- `cache_cpu_init`: one new slab for each CPU. -/
def cacheCpuInit (s : SlabState κ) (c : κ) (pages : Fin ncpu → ℕ × ℕ) : SlabState κ :=
  (List.finRange ncpu).foldl (fun s i => slabCreate s c (pages i).1 (pages i).2) s

/-- The fields that `kmem_cache_create` computes from the size of the objects. -/
def KmemCache.ofSize (size : BitVec 16) (cacheCpu : Fin ncpu → ℕ) : KmemCache :=
  let alignedSize := ((nextPowerOf2 (size.setWidth 64)).setWidth 16).toNat
  let order := calcSlabOrder size
  { size := alignedSize
    order := order
    countPerSlab := 2 ^ order * pgSize / alignedSize % 2 ^ 16
    cacheCpu := cacheCpu }

/-- The part of `kmem_cache_create` before `cache_cpu_init`. -/
def kmemCacheSetup (s : SlabState κ) (c : κ) (cache : KmemCache) : SlabState κ :=
  let links := initListHead s.links (.partSlabs c)
  let links := initListHead links (.fullSlabs c)
  let links := initListHead links (.cacheList c)
  { s with
    cache := Function.update s.cache c cache
    links := links }

/-- `kmem_cache_create` of a cache for objects of `size` bytes. -/
def kmemCacheCreate (s : SlabState κ) (c : κ) (size : BitVec 16) (pages : Fin ncpu → ℕ × ℕ) :
    SlabState κ :=
  let s := kmemCacheSetup s c (.ofSize size fun i => (pages i).1)
  let s := cacheCpuInit s c pages
  { s with links := listAddHead s.links (.cacheList c) .kmemCacheList }

/-! ### Allocating and freeing objects -/

/-- `obj_pop`: the address on top of the stack of a slab. -/
def objPop (s : SlabState κ) (slab : ℕ) : Except Trap (Obj κ × SlabState κ) :=
  match s.slab slab with
  | none => .error .nullDeref
  | some sl =>
    .ok (⟨sl.kc, slab, s.mem sl.freeList⟩, { s with
      slab := Function.update s.slab slab
        (some { sl with inuse := sl.inuse + 1, freeList := sl.freeList + 8 }) })

/-- `obj_push`. -/
def objPush (s : SlabState κ) (slab obj : ℕ) : Except Trap (SlabState κ) :=
  match s.slab slab with
  | none => .error .nullDeref
  | some sl =>
    .ok { s with
      slab := Function.update s.slab slab
        (some { sl with inuse := sl.inuse - 1, freeList := sl.freeList - 8 })
      mem := Function.update s.mem (sl.freeList - 8) obj }

/-- `is_slab_partial`. -/
def isSlabPartial (s : SlabState κ) (slab : ℕ) (c : κ) : Except Trap Bool :=
  match s.slab slab with
  | none => .error .nullDeref
  | some sl => .ok (sl.inuse < (s.cache c).countPerSlab)

/-- `kmem_cache_add_slab`. -/
def kmemCacheAddSlab (s : SlabState κ) (c : κ) (pages : ℕ × ℕ) : ℕ × SlabState κ :=
  let s := slabCreate s c pages.1 pages.2
  (pages.1, { s with links := listAddHead s.links (.slabList pages.1) (.partSlabs c) })

/-- `list_del` followed by `list_add_head`. -/
def moveSlab (s : SlabState κ) (slab : ℕ) (list : SlabNode κ) : SlabState κ :=
  { s with links := listAddHead (listDel s.links (.slabList slab)) (.slabList slab) list }

/-- `kmem_cache_alloc` on the CPU `cpuid`; `pages` are taken if a slab is created. -/
def kmemCacheAlloc (s : SlabState κ) (c : κ) (cpuid : Fin ncpu) (pages : ℕ × ℕ) :
    Except Trap (Obj κ × SlabState κ) := do
  if listEmpty s.links (.cacheList c) then throw .panic
  let cpuSlab := (s.cache c).cacheCpu cpuid
  if ← isSlabPartial s cpuSlab c then
    objPop s cpuSlab
  else if listEmpty s.links (.partSlabs c) then
    let (slab, s) := kmemCacheAddSlab s c pages
    objPop s slab
  else
    match listFirst s.links (.partSlabs c) with
    | .slabList slab =>
      let (obj, s) ← objPop s slab
      if ← isSlabPartial s slab c then .ok (obj, s)
      else .ok (obj, moveSlab s slab (.fullSlabs c))
    -- `list_entry` is applied to nodes of slabs only
    | _ => throw .nullDeref

/-- `kmem_cache_free`. -/
def kmemCacheFree (s : SlabState κ) (c : κ) (obj : ℕ) : Except Trap (SlabState κ) := do
  if listEmpty s.links (.cacheList c) then throw .panic
  match s.pageSlab (getPageStruct obj) with
  | none => throw .nullDeref
  | some slab =>
    if listEmpty s.links (.slabList slab) then objPush s slab obj
    else if ← isSlabPartial s slab c then objPush s slab obj
    else objPush (moveSlab s slab (.partSlabs c)) slab obj

/-- `kfree`. -/
def kfree (s : SlabState κ) (obj : ℕ) : Except Trap (SlabState κ) :=
  match s.pageSlab (getPageStruct obj) with
  | none => .error .nullDeref
  | some slab =>
    match s.slab slab with
    | none => .error .nullDeref
    | some sl => kmemCacheFree s sl.kc obj

end RiscvLab.Mm
