import RiscvLab.Fs.BlockMap

/-!
# Files as byte strings

`efs_i_write` maps the blocks of its range one after the other, allocates those that are missing,
and writes to them. On a well-formed inode it overlays the contents of the file with the data, and
the file grows if the data go beyond its end. Blocks are taken from `efs_bmap_alloc`; `Supply` says
which blocks it returns. They have to be unused, and a block that becomes the indirect block of a
file has to hold zeros, since `efs_i_bmap` does not clear it.

## Main definitions

* `Supply` : the blocks that `efs_bmap_alloc` will return.
* `Efs.needed` : the number of blocks that a write takes.
* `Overlaid` : the state after a write, with the byte string that is read from then on.
* `WriteRefines` : reading and writing a file are reading and writing a byte string.

## Main results

* `writeRefines_of_wellFormed`.

Source: `fs/easyfs/inode.c`, lines 119–172 and 232–286.
-/

namespace RiscvLab.Fs

open Library

variable {st st' st'' : Efs} {i l : ℕ} {b : BitVec 32} {bs : List (BitVec 32)}

/-- Calls of `efs_bmap_alloc` return the blocks `bs`. -/
def Taken (sb sb' : Super) (bs : List (BitVec 32)) : Prop :=
  ∃ nos, allocMany efsBmapAlloc bs.length sb = .ok (nos, sb') ∧ nos.map (BitVec.ofInt 32) = bs

namespace Taken

variable {sb sb₁ sb' : Super}

theorem nil : Taken sb sb [] := ⟨[], rfl, rfl⟩

theorem cons {no : ℤ} (h : efsBmapAlloc sb = .ok (no, sb₁)) (h' : Taken sb₁ sb' bs) :
    Taken sb sb' (BitVec.ofInt 32 no :: bs) := by
  obtain ⟨nos, hnos, hbs⟩ := h'
  exact ⟨no :: nos, allocMany_succ h hnos, by rw [List.map_cons, hbs]⟩

theorem of_cons (h : Taken sb sb' (b :: bs)) : ∃ no sb₁, efsBmapAlloc sb = .ok (no, sb₁) ∧
    BitVec.ofInt 32 no = b ∧ Taken sb₁ sb' bs := by
  obtain ⟨nos, hnos, hmap⟩ := h
  rw [List.length_cons, allocMany, bind_eq_ok] at hnos
  obtain ⟨⟨no, sb₁⟩, hno, hnos⟩ := hnos
  rw [bind_eq_ok] at hnos
  obtain ⟨⟨nos', sb₂⟩, hnos', heq⟩ := hnos
  obtain ⟨rfl, rfl⟩ := ok_prod_inj heq
  rw [List.map_cons] at hmap
  obtain ⟨hb, hbs⟩ := List.cons.inj hmap
  exact ⟨no, sb₁, hno, hb, nos', hnos', hbs⟩

theorem append {bs' : List (BitVec 32)} (h : Taken sb sb₁ bs) (h' : Taken sb₁ sb' bs') :
    Taken sb sb' (bs ++ bs') := by
  induction bs generalizing sb with
  | nil =>
    obtain ⟨nos, hnos, -⟩ := h
    obtain ⟨-, rfl⟩ := ok_prod_inj hnos
    exact h'
  | cons b bs ih =>
    obtain ⟨no, sb₂, hno, rfl, hbs⟩ := h.of_cons
    exact .cons hno (ih hbs)

end Taken

/-- The next calls of `efs_bmap_alloc` return the blocks `bs`. No inode uses them, and they hold
zeros. -/
structure Supply (st : Efs) (bs : List (BitVec 32)) : Prop where
  alloc : ∃ sb, Taken st.sb sb bs
  nodup : bs.Nodup
  ne_zero : ∀ b ∈ bs, b ≠ 0
  unused : ∀ b ∈ bs, ∀ j < st.inodes, ¬(st.inode j).Uses st.disk b
  zero : ∀ b ∈ bs, ∀ k < blockSize, st.disk (b.toNat * blockSize + k) = 0

/-- What mapping and writing the blocks of the inode `i` leaves alone. -/
structure MapFrame (st st' : Efs) (i : ℕ) : Prop where
  inodes : st'.inodes = st.inodes
  other : ∀ j ≠ i, st'.inode j = st.inode j
  size : (st'.inode i).di.size = (st.inode i).di.size
  no : (st'.inode i).di.no = (st.inode i).di.no
  refcnt : (st'.inode i).refcnt = (st.inode i).refcnt
  addrs : ∀ k, (st.inode i).di.addrs k ≠ 0 →
    (st'.inode i).di.addrs k = (st.inode i).di.addrs k
  dentry : st'.dentry = st.dentry
  dentries : st'.dentries = st.dentries
  ihash : st'.ihash = st.ihash

namespace MapFrame

theorem refl : MapFrame st st i :=
  ⟨rfl, fun _ _ => rfl, rfl, rfl, rfl, fun _ _ => rfl, rfl, rfl, rfl⟩

theorem trans (h : MapFrame st st' i) (h' : MapFrame st' st'' i) : MapFrame st st'' i := by
  refine ⟨h'.inodes.trans h.inodes, fun j hj => (h'.other j hj).trans (h.other j hj),
    h'.size.trans h.size, h'.no.trans h.no, h'.refcnt.trans h.refcnt, fun k hk => ?_,
    h'.dentry.trans h.dentry, h'.dentries.trans h.dentries, h'.ihash.trans h.ihash⟩
  have hk₁ := h.addrs k hk
  rw [h'.addrs k (hk₁ ▸ hk), hk₁]

theorem modInode {sb : Super} {f : MInode → MInode}
    (hsize : (f (st.inode i)).di.size = (st.inode i).di.size)
    (hno : (f (st.inode i)).di.no = (st.inode i).di.no)
    (hrefcnt : (f (st.inode i)).refcnt = (st.inode i).refcnt)
    (haddrs : ∀ k, (st.inode i).di.addrs k ≠ 0 →
      (f (st.inode i)).di.addrs k = (st.inode i).di.addrs k) :
    MapFrame st ({ st with sb := sb }.modInode i f) i := by
  refine ⟨rfl, fun j hj => Efs.modInode_inode_of_ne hj, ?_, ?_, ?_, ?_, rfl, rfl, rfl⟩ <;>
    rwa [Efs.modInode_inode_self]

end MapFrame

/-- The inode `i` takes the blocks `used`. -/
structure Grown (st st' : Efs) (i : ℕ) (used : List (BitVec 32)) : Prop
    extends MapFrame st st' i where
  disk : st'.disk = st.disk
  uses : ∀ b, (st'.inode i).Uses st'.disk b ↔ (st.inode i).Uses st.disk b ∨ b ∈ used

theorem Grown.refl : Grown st st i [] := ⟨.refl, rfl, by simp⟩

theorem Grown.loadIndir : Grown st (st.loadIndir i) i [] := by
  refine ⟨.modInode rfl rfl rfl fun _ _ => rfl, rfl, fun b => ?_⟩
  rw [Efs.loadIndir, Efs.modInode_inode_self]
  simp

theorem Grown.trans {used used' : List (BitVec 32)} (h : Grown st st' i used)
    (h' : Grown st' st'' i used') : Grown st st'' i (used ++ used') := by
  refine ⟨h.toMapFrame.trans h'.toMapFrame, h'.disk.trans h.disk, fun b => ?_⟩
  rw [h'.uses, h.uses, List.mem_append, or_assoc]

/-- When blocks have been taken off, the supply goes on. -/
theorem Supply.drop {used : List (BitVec 32)} (h : Supply st (used ++ bs))
    (hgrown : Grown st st' i used)
    (halloc : ∃ sb, Taken st'.sb sb bs) : Supply st' bs := by
  obtain ⟨-, hnd, hdisj⟩ := List.nodup_append.1 h.nodup
  refine ⟨halloc, hnd, fun b hb => h.ne_zero b (List.mem_append_right _ hb), fun b hb j hj => ?_,
    fun b hb => ?_⟩
  · have hfree := h.unused b (List.mem_append_right _ hb) j (hgrown.inodes ▸ hj)
    by_cases hji : j = i
    · subst hji
      rw [hgrown.uses]
      rintro (huses | hused)
      · exact hfree huses
      · exact hdisj b hused b hb rfl
    · rwa [hgrown.other j hji, hgrown.disk]
  · rw [hgrown.disk]
    exact h.zero b (List.mem_append_right _ hb)

theorem Grown.data (hframe : MapFrame st st' i) (hdisk : st'.disk = st.disk)
    (haddr : (st'.inode i).di.addrs nDirect = (st.inode i).di.addrs nDirect)
    (hblock : st'.block i = Function.update (st.block i) l b) (hl : st.block i l = 0)
    (hb : b ≠ 0) : Grown st st' i [b] := by
  refine ⟨hframe, hdisk, fun b' => ?_⟩
  unfold Efs.block at hblock hl
  rw [MInode.Uses, MInode.Uses, haddr, hblock, List.mem_singleton]
  constructor
  · rintro ⟨hb', h | ⟨l', rfl⟩⟩
    · exact .inl ⟨hb', .inl h⟩
    · by_cases hl' : l' = l
      · rw [hl', Function.update_self]
        exact .inr rfl
      · rw [Function.update_of_ne hl'] at hb' ⊢
        exact .inl ⟨hb', .inr ⟨l', rfl⟩⟩
  · rintro (⟨hb', h | ⟨l', rfl⟩⟩ | rfl)
    · exact ⟨hb', .inl h⟩
    · have hl' : l' ≠ l := by
        rintro rfl
        exact hb' hl
      exact ⟨hb', .inr ⟨l', by rw [Function.update_of_ne hl']⟩⟩
    · exact ⟨hb, .inr ⟨l, by rw [Function.update_self]⟩⟩

section Unused

variable (hwf : WellMapped st i) (hgrown : Grown st st' i [b]) (hb : b ≠ 0)
  (hfree : ∀ j < st.inodes, ¬(st.inode j).Uses st.disk b)

include hwf hgrown hfree

/-- An unused block is shared with no other inode. -/
private theorem unshared_of_grown : ∀ j < st'.inodes, j ≠ i → ∀ b',
    (st'.inode i).Uses st'.disk b' → ¬(st'.inode j).Uses st'.disk b' := by
  intro j hj hji b' huses
  rw [hgrown.inodes] at hj
  rw [hgrown.other j hji, hgrown.disk]
  rcases (hgrown.uses b').1 huses with huses | hused
  · exact hwf.unshared j hj hji b' huses
  · rw [List.mem_singleton.1 hused]
    exact hfree j hj

include hb

theorem WellMapped.data (hindir : (st'.inode i).indir.isSome → (st'.inode i).di.addrs nDirect ≠ 0)
    (haddr : (st'.inode i).di.addrs nDirect = (st.inode i).di.addrs nDirect)
    (hblock : st'.block i = Function.update (st.block i) l b) : WellMapped st' i := by
  have hfree' := hfree i hwf.known
  have hne : ∀ l', st.block i l' ≠ 0 → st.block i l' ≠ b := by
    rintro l' hl' rfl
    exact hfree' (MInode.uses_block hl')
  refine ⟨hgrown.inodes ▸ hwf.known, hindir, fun l₁ l₂ h₁ h₂ => ?_, fun l' hl' => ?_,
    unshared_of_grown hwf hgrown hfree⟩
  · rw [hblock] at h₁ h₂
    by_cases hl₁ : l₁ = l <;> by_cases hl₂ : l₂ = l
    · rw [hl₁, hl₂]
    · rw [hl₁, Function.update_self, Function.update_of_ne hl₂] at h₂
      exact absurd h₂.symm (hne l₂ (h₂ ▸ hb))
    · rw [hl₂, Function.update_self, Function.update_of_ne hl₁] at h₂
      exact absurd h₂ (hne l₁ (h₂ ▸ hb))
    · rw [Function.update_of_ne hl₁, Function.update_of_ne hl₂] at h₂
      rw [Function.update_of_ne hl₁] at h₁
      exact hwf.distinct l₁ l₂ h₁ h₂
  · rw [haddr]
    rw [hblock] at hl' ⊢
    by_cases h : l' = l
    · rw [h, Function.update_self]
      rintro rfl
      exact hfree' ⟨hb, .inl rfl⟩
    · rw [Function.update_of_ne h] at hl' ⊢
      exact hwf.indirect l' hl'

/-- An inode takes an unused block of zeros as its indirect block. -/
theorem WellMapped.indirectBlock (haddr : (st'.inode i).di.addrs nDirect = b)
    (hblock : st'.block i = st.block i) : WellMapped st' i := by
  refine ⟨hgrown.inodes ▸ hwf.known, fun _ => haddr ▸ hb, hblock ▸ hwf.distinct, fun l' hl' => ?_,
    unshared_of_grown hwf hgrown hfree⟩
  rw [haddr]
  rw [hblock] at hl' ⊢
  rintro rfl
  exact hfree i hwf.known (MInode.uses_block hl')

end Unused

/-! ### Mapping a block -/

/-- The state after `efs_i_bmap` has stored the block `b` in `i_addrs[k]`. -/
def Efs.setAddr (st : Efs) (sb : Super) (i k : ℕ) (b : BitVec 32) : Efs :=
  { st with sb := sb }.modDi i fun x => { x with addrs := Function.update x.addrs k b }

/-- The state after `efs_i_bmap` has stored the block `b` in the indirect block. -/
def Efs.setPage (st : Efs) (sb : Super) (i k : ℕ) (b : BitVec 32) : Efs :=
  { st with sb := sb }.modInode i fun x =>
    { x with indir := some (Function.update (x.page st.disk) k b) }

section

variable {sb : Super} {k : ℕ}

theorem inode_setAddr : (st.setAddr sb i k b).inode i = { st.inode i with
    di := { (st.inode i).di with addrs := Function.update (st.inode i).di.addrs k b } } :=
  Function.update_self ..

theorem MapFrame.setAddr (hzero : (st.inode i).di.addrs k = 0) :
    MapFrame st (st.setAddr sb i k b) i := by
  rw [Efs.setAddr, Efs.modDi]
  refine .modInode rfl rfl rfl fun k' hk' => ?_
  have hne : k' ≠ k := by
    rintro rfl
    exact hk' hzero
  exact Function.update_of_ne hne ..

theorem inode_setPage : (st.setPage sb i k b).inode i = { st.inode i with
    indir := some (Function.update ((st.inode i).page st.disk) k b) } :=
  Efs.modInode_inode_self ..

theorem MapFrame.setPage : MapFrame st (st.setPage sb i k b) i :=
  .modInode rfl rfl rfl fun _ _ => rfl

end

theorem block_setAddr {sb : Super} (hl : l < nDirect) :
    (st.setAddr sb i l b).block i = Function.update (st.block i) l b := by
  have hne : nDirect ≠ l := hl.ne'
  funext l'
  simp only [Efs.block, Efs.setAddr, Efs.modDi, Efs.modInode_inode_self, Efs.modInode_disk,
    MInode.block, MInode.page, Function.update_of_ne hne]
  by_cases h : l' = l
  · subst h
    simp [hl]
  · rw [Function.update_of_ne h, Function.update_of_ne h]
    rfl

/-- A block of zeros as the indirect block maps nothing. -/
theorem block_setAddr_nDirect {sb : Super} (haddr : (st.inode i).di.addrs nDirect = 0)
    (hindir : (st.inode i).indir = none)
    (hzero : ∀ k < blockSize, st.disk (b.toNat * blockSize + k) = 0) :
    (st.setAddr sb i nDirect b).block i = st.block i := by
  funext l'
  simp only [Efs.block, Efs.setAddr, Efs.modDi, Efs.modInode_inode_self, Efs.modInode_disk,
    MInode.block, MInode.page, hindir, haddr, Function.update_self, ne_eq, not_true_eq_false,
    and_false, if_false]
  split_ifs with hd hl
  · rw [Function.update_of_ne hd.ne]
  · have hword : word32 st.disk (b.toNat * blockSize + 4 * (l' - nDirect)) =
        word32 (fun _ => 0) 0 := by
      refine word32_congr fun k hk => ?_
      rw [Nat.add_assoc, hzero]
      simp only [nDirect, nIndirect, blockSize] at hd hl ⊢
      omega
    rw [hword]
    rfl
  · rfl

theorem block_setPage {sb : Super} {k : ℕ} (hk : k < nIndirect)
    (haddr : (st.inode i).di.addrs nDirect ≠ 0) :
    (st.setPage sb i k b).block i = Function.update (st.block i) (nDirect + k) b := by
  funext l'
  simp only [Efs.block, Efs.setPage, Efs.modInode_inode_self, Efs.modInode_disk, MInode.block]
  by_cases h : l' = nDirect + k
  · subst h
    rw [Function.update_self, if_neg (by omega), if_pos ⟨by omega, haddr⟩]
    simp [MInode.page]
  · rw [Function.update_of_ne h, MInode.block]
    split_ifs with hd hl
    · rfl
    · have : l' - nDirect ≠ k := by omega
      simp [MInode.page, this]
    · rfl

/-- The block `l` of the file is the block `b` of the disk, which is one of `used` if there was
none. -/
structure Mapped (st st' : Efs) (i l : ℕ) (b : BitVec 32) (used : List (BitVec 32)) : Prop where
  grown : Grown st st' i used
  block : st'.block i = Function.update (st.block i) l b
  ne_zero : b ≠ 0
  old : st.block i l ≠ 0 → b = st.block i l
  addr : (st'.inode i).di.addrs nDirect = 0 ↔ (st.inode i).di.addrs nDirect = 0 ∧ l < nDirect
  length : used.length = (if st.block i l = 0 then 1 else 0) +
    if (st.inode i).di.addrs nDirect = 0 ∧ nDirect ≤ l then 1 else 0

theorem Mapped.refl (hl : st.block i l ≠ 0) (hgrown : Grown st st' i [])
    (hblock : st'.block i = st.block i)
    (haddr : (st'.inode i).di.addrs nDirect = (st.inode i).di.addrs nDirect) :
    Mapped st st' i l (st.block i l) [] := by
  have hdirect : (st.inode i).di.addrs nDirect = 0 → l < nDirect := by
    intro h
    by_contra hd
    refine hl ?_
    rw [Efs.block, MInode.block, if_neg hd, if_neg fun h' => h'.2 h]
  refine ⟨hgrown, by rw [hblock, Function.update_eq_self], hl, fun _ => rfl, ?_, ?_⟩
  · rw [haddr]
    exact ⟨fun h => ⟨h, hdirect h⟩, And.left⟩
  · rw [if_neg hl, if_neg fun h => absurd (hdirect h.1) (Nat.not_lt.2 h.2)]
    rfl

theorem efsIBmap_direct (hwf : WellMapped st i) (hl : l < nDirect) (hs : Supply st bs)
    (hn : st.block i l = 0 → bs ≠ []) :
    ∃ b st' used rest, efsIBmap st i l true = .ok (b, st') ∧ bs = used ++ rest ∧
      Mapped st st' i l b used ∧ WellMapped st' i ∧ Supply st' rest := by
  have hblock : st.block i l = (st.inode i).di.addrs l := by rw [Efs.block, MInode.block, if_pos hl]
  rw [efsIBmap, if_pos hl, efsIAddr]
  by_cases h : st.block i l = 0
  · obtain ⟨b, rest, rfl⟩ := List.exists_cons_of_ne_nil (hn h)
    obtain ⟨sb', hsb'⟩ := hs.alloc
    obtain ⟨no, sb, hno, rfl, halloc⟩ := hsb'.of_cons
    have hb := hs.ne_zero _ List.mem_cons_self
    have hne : nDirect ≠ l := hl.ne'
    rw [if_neg (by simp [← hblock, h]), hno]
    refine ⟨_, st.setAddr sb i l (BitVec.ofInt 32 no), [BitVec.ofInt 32 no], rest, rfl, rfl, ?_⟩
    have haddr : ((st.setAddr sb i l (BitVec.ofInt 32 no)).inode i).di.addrs nDirect =
        (st.inode i).di.addrs nDirect := by
      rw [inode_setAddr]
      exact Function.update_of_ne hne ..
    have hgrown : Grown st (st.setAddr sb i l (BitVec.ofInt 32 no)) i [BitVec.ofInt 32 no] :=
      .data (.setAddr (hblock ▸ h)) rfl haddr (block_setAddr hl) h hb
    refine ⟨⟨hgrown, block_setAddr hl, hb, fun h' => absurd h h', ?_, ?_⟩, ?_,
      hs.drop hgrown ⟨sb', halloc⟩⟩
    · rw [haddr]
      exact ⟨fun h => ⟨h, hl⟩, And.left⟩
    · rw [if_pos h, if_neg fun h => absurd hl (Nat.not_lt.2 h.2)]
      rfl
    · refine hwf.data hgrown hb (hs.unused _ List.mem_cons_self) ?_ haddr (block_setAddr hl)
      rw [haddr, inode_setAddr]
      exact hwf.indir
  · rw [if_pos (.inl (by rwa [← hblock]))]
    exact ⟨_, st, [], bs, by rw [hblock], rfl, .refl h .refl rfl rfl, hwf, hs⟩

/-- `efs_i_bmap` behind the lookup of the indirect block. -/
theorem efsIBmap_page {k : ℕ} (hwf : WellMapped st i) (hk : k < nIndirect)
    (haddr : (st.inode i).di.addrs nDirect ≠ 0) (hs : Supply st bs)
    (hn : st.block i (nDirect + k) = 0 → bs ≠ []) :
    ∃ b st' used rest,
      (let (blk, st) := efsILoadIndir st i ((st.inode i).di.addrs nDirect)
      if blk k ≠ 0 ∨ true = false then .ok (blk k, st)
      else do
        let (no, sb) ← efsBmapAlloc st.sb
        let bno := BitVec.ofInt 32 no
        .ok (bno, { st with sb := sb }.modInode i fun x =>
          { x with indir := some (Function.update blk k bno) })) = Except.ok (b, st') ∧
      bs = used ++ rest ∧ Mapped st st' i (nDirect + k) b used ∧ WellMapped st' i ∧
        Supply st' rest := by
  have hblock : st.block i (nDirect + k) = (st.inode i).page st.disk k := by
    rw [Efs.block, MInode.block, if_neg (by omega), if_pos ⟨by omega, haddr⟩,
      Nat.add_sub_cancel_left]
  have hload : ReadFrame st (st.loadIndir i) := .loadIndir haddr
  have haddr' : ((st.loadIndir i).inode i).di.addrs nDirect = (st.inode i).di.addrs nDirect := by
    rw [hload.di]
  have hs' : Supply (st.loadIndir i) bs := @Supply.drop st _ i bs [] hs .loadIndir hs.alloc
  have hwf' := hload.wellMapped hwf
  rw [efsILoadIndir_eq]
  dsimp only
  by_cases h : st.block i (nDirect + k) = 0
  · obtain ⟨b, rest, rfl⟩ := List.exists_cons_of_ne_nil (hn h)
    obtain ⟨sb', hsb'⟩ := hs'.alloc
    obtain ⟨no, sb, hno, rfl, halloc⟩ := hsb'.of_cons
    have hb := hs.ne_zero _ List.mem_cons_self
    have hpage : ((st.loadIndir i).inode i).page (st.loadIndir i).disk =
        (st.inode i).page st.disk := by
      rw [Efs.loadIndir, Efs.modInode_inode_self]
      rfl
    rw [if_neg (by simp [← hblock, h]), hno]
    refine ⟨BitVec.ofInt 32 no, (st.loadIndir i).setPage sb i k (BitVec.ofInt 32 no),
      [BitVec.ofInt 32 no], rest, ?_, rfl, ?_⟩
    · simp only [Efs.setPage, Efs.modInode, hpage]
      rfl
    have hmap : ((st.loadIndir i).setPage sb i k (BitVec.ofInt 32 no)).block i =
        Function.update ((st.loadIndir i).block i) (nDirect + k) (BitVec.ofInt 32 no) :=
      block_setPage hk (by rwa [haddr'])
    have hgrown : Grown (st.loadIndir i) ((st.loadIndir i).setPage sb i k (BitVec.ofInt 32 no)) i
        [BitVec.ofInt 32 no] :=
      .data .setPage rfl (by rw [inode_setPage]) hmap (by rwa [hload.block]) hb
    have haddr₂ : (((st.loadIndir i).setPage sb i k (BitVec.ofInt 32 no)).inode i).di.addrs
        nDirect = (st.inode i).di.addrs nDirect := by
      rw [inode_setPage, ← haddr']
    refine ⟨⟨Grown.loadIndir.trans hgrown, ?_, hb, fun h' => absurd h h', ?_, ?_⟩, ?_,
      hs'.drop hgrown ⟨sb', halloc⟩⟩
    · rw [hmap, hload.block]
    · rw [haddr₂]
      exact iff_of_false haddr fun h => haddr h.1
    · rw [if_pos h, if_neg fun h => haddr h.1]
      rfl
    · exact hwf'.data hgrown hb (hs'.unused _ List.mem_cons_self) (fun _ => by rwa [haddr₂])
        (by rw [haddr₂, haddr']) hmap
  · rw [if_pos (.inl (by rwa [← hblock]))]
    exact ⟨_, _, [], bs, by rw [hblock], rfl, .refl h .loadIndir (hload.block i) haddr', hwf', hs'⟩

theorem efsIBmap_true (hwf : WellMapped st i) (hl : l < nDirect + nIndirect) (hs : Supply st bs)
    (hn : (if st.block i l = 0 then 1 else 0) +
      (if (st.inode i).di.addrs nDirect = 0 ∧ nDirect ≤ l then 1 else 0) ≤ bs.length) :
    ∃ b st' used rest, efsIBmap st i l true = .ok (b, st') ∧ bs = used ++ rest ∧
      Mapped st st' i l b used ∧ WellMapped st' i ∧ Supply st' rest := by
  by_cases hd : l < nDirect
  · refine efsIBmap_direct hwf hd hs ?_
    rintro h rfl
    rw [if_pos h, List.length_nil] at hn
    omega
  obtain ⟨k, rfl⟩ := Nat.exists_eq_add_of_le (Nat.not_lt.1 hd)
  have hk : k < nIndirect := by omega
  rw [efsIBmap, if_neg hd]
  dsimp only
  rw [Nat.add_sub_cancel_left, if_pos hk, efsIAddr]
  by_cases haddr : (st.inode i).di.addrs nDirect = 0
  · have hzero : st.block i (nDirect + k) = 0 := by
      rw [Efs.block, MInode.block, if_neg hd, if_neg fun h => h.2 haddr]
    have hindir : (st.inode i).indir = none := by
      by_contra h
      exact hwf.indir (Option.isSome_iff_ne_none.2 h) haddr
    rw [if_pos hzero, if_pos ⟨haddr, Nat.not_lt.1 hd⟩] at hn
    obtain ⟨b, rest, rfl⟩ := List.exists_cons_of_ne_nil (show bs ≠ [] by rintro rfl; simp at hn)
    obtain ⟨sb', hsb'⟩ := hs.alloc
    obtain ⟨no, sb, hno, rfl, halloc⟩ := hsb'.of_cons
    have hb := hs.ne_zero _ List.mem_cons_self
    rw [if_neg (by simp [haddr]), hno]
    simp only [bind, Except.bind]
    have hblock : (st.setAddr sb i nDirect (BitVec.ofInt 32 no)).block i = st.block i :=
      block_setAddr_nDirect haddr hindir (hs.zero _ List.mem_cons_self)
    have haddr₁ : ((st.setAddr sb i nDirect (BitVec.ofInt 32 no)).inode i).di.addrs nDirect =
        BitVec.ofInt 32 no := by
      simp only [inode_setAddr, Function.update_self]
    have hgrown : Grown st (st.setAddr sb i nDirect (BitVec.ofInt 32 no)) i
        [BitVec.ofInt 32 no] := by
      refine ⟨.setAddr haddr, rfl, fun b' => ?_⟩
      unfold Efs.block at hblock
      rw [MInode.Uses, MInode.Uses, haddr₁, hblock, haddr, List.mem_singleton]
      constructor
      · rintro ⟨hb', rfl | h⟩
        · exact .inr rfl
        · exact .inl ⟨hb', .inr h⟩
      · rintro (⟨hb', h | h⟩ | rfl)
        · exact absurd h hb'
        · exact ⟨hb', .inr h⟩
        · exact ⟨hb, .inl rfl⟩
    have hwf₁ := hwf.indirectBlock hgrown hb (hs.unused _ List.mem_cons_self) haddr₁ hblock
    have hs₁ : Supply (st.setAddr sb i nDirect (BitVec.ofInt 32 no)) rest :=
      hs.drop hgrown ⟨sb', halloc⟩
    have hpage := efsIBmap_page hwf₁ hk (by rwa [haddr₁]) hs₁ fun _ => by
      rintro rfl
      simp at hn
    obtain ⟨b, st', used, rest', heq, rfl, hmap, hwf', hs'⟩ := hpage
    rw [haddr₁] at heq
    rw [if_neg fun h => hb h.1]
    refine ⟨b, st', BitVec.ofInt 32 no :: used, rest', heq, rfl, ?_, hwf', hs'⟩
    refine ⟨hgrown.trans hmap.grown, ?_, hmap.ne_zero, fun h => absurd hzero h, ?_, ?_⟩
    · rw [hmap.block, hblock]
    · rw [hmap.addr, haddr₁]
      exact iff_of_false (fun h => hb h.1) fun h => hd h.2
    · have hlen := hmap.length
      rw [hblock, if_pos hzero, if_neg fun h => hb (haddr₁ ▸ h.1)] at hlen
      rw [if_pos hzero, if_pos ⟨haddr, Nat.not_lt.1 hd⟩, List.length_cons, hlen]
  · rw [if_pos (.inl haddr)]
    simp only [bind, Except.bind]
    rw [if_neg fun h => haddr h.1]
    refine efsIBmap_page hwf hk haddr hs ?_
    rintro h rfl
    rw [if_pos h, List.length_nil] at hn
    omega

/-! ### Writing to a block -/

/-- The state after bytes have been written to the block `b`. -/
def Efs.patchBlock (st : Efs) (b : BitVec 32) (off : ℕ) (src : List (BitVec 8)) : Efs :=
  { st with disk := patch st.disk (b.toNat * blockSize + off) src }

section Patch

variable {off : ℕ} {src : List (BitVec 8)}

theorem patch_of_block_ne {disk : Disk} {b' : BitVec 32} {k : ℕ} (hne : b' ≠ b)
    (hoff : off + src.length ≤ blockSize) (hk : k < blockSize) :
    patch disk (b.toNat * blockSize + off) src (b'.toNat * blockSize + k) =
      disk (b'.toNat * blockSize + k) := by
  have hnat : b'.toNat ≠ b.toNat := fun h => hne (BitVec.eq_of_toNat_eq h)
  simp only [blockSize] at hoff hk ⊢
  rcases Nat.lt_or_gt_of_ne hnat with h | h
  · exact patch_of_lt (by omega)
  · exact patch_of_ge (by omega)

/-- The block map of an inode does not depend on a block other than its indirect block. -/
theorem block_patchBlock {j : ℕ} (hj : (st.inode j).di.addrs nDirect ≠ 0 →
    (st.inode j).di.addrs nDirect ≠ b) (hoff : off + src.length ≤ blockSize) :
    (st.patchBlock b off src).block j = st.block j :=
  MInode.block_congr fun h _ hk => patch_of_block_ne (hj h) hoff hk

theorem uses_patchBlock {j : ℕ} (hj : (st.inode j).di.addrs nDirect ≠ 0 →
    (st.inode j).di.addrs nDirect ≠ b) (hoff : off + src.length ≤ blockSize) {b' : BitVec 32} :
    ((st.patchBlock b off src).inode j).Uses (st.patchBlock b off src).disk b' ↔
      (st.inode j).Uses st.disk b' := by
  have h := block_patchBlock hj hoff
  unfold Efs.block at h
  rw [MInode.Uses, MInode.Uses, h]
  rfl

variable (hwf : WellMapped st i) (hb : st.block i l ≠ 0) (hoff : off + src.length ≤ blockSize)

include hwf hb

/-- A data block of a inode is nobody's indirect block. -/
theorem WellMapped.addr_ne {j : ℕ} (hj : j < st.inodes)
    (_ : (st.inode j).di.addrs nDirect ≠ 0) : (st.inode j).di.addrs nDirect ≠ st.block i l := by
  by_cases hji : j = i
  · subst hji
    exact (hwf.indirect l hb).symm
  · intro e
    exact hwf.unshared j hj hji _ (MInode.uses_block hb) ⟨hb, .inl e.symm⟩

include hoff

theorem WellMapped.patchBlock : WellMapped (st.patchBlock (st.block i l) off src) i := by
  have hblock : (st.patchBlock (st.block i l) off src).block i = st.block i :=
    block_patchBlock (hwf.addr_ne hb hwf.known) hoff
  refine ⟨hwf.known, hwf.indir, ?_, ?_, fun j hj hji b' => ?_⟩
  · rw [hblock]
    exact hwf.distinct
  · rw [hblock]
    exact hwf.indirect
  · rw [uses_patchBlock (hwf.addr_ne hb hwf.known) hoff, uses_patchBlock (hwf.addr_ne hb hj) hoff]
    exact hwf.unshared j hj hji b'

theorem Supply.patchBlock (hs : Supply st bs) :
    Supply (st.patchBlock (st.block i l) off src) bs := by
  refine ⟨hs.alloc, hs.nodup, hs.ne_zero, fun b hb' j hj => ?_, fun b hb' k hk => ?_⟩
  · rw [uses_patchBlock (hwf.addr_ne hb hj) hoff]
    exact hs.unused b hb' j hj
  · have hne : b ≠ st.block i l := by
      rintro rfl
      exact hs.unused _ hb' i hwf.known (MInode.uses_block hb)
    exact (patch_of_block_ne hne hoff hk).trans (hs.zero b hb' k hk)

end Patch

/-! ### The loop -/

/-- The bytes `src` have been written at `offset` to the file of the inode `i`, which has taken the
blocks `used`. -/
structure DataWritten (st st' : Efs) (i offset : ℕ) (src : List (BitVec 8))
    (used : List (BitVec 32)) : Prop extends MapFrame st st' i where
  uses : ∀ b, (st'.inode i).Uses st'.disk b ↔ (st.inode i).Uses st.disk b ∨ b ∈ used
  kept : ∀ l, st.block i l ≠ 0 → st'.block i l = st.block i l
  mapped : ∀ o, offset ≤ o → o < offset + src.length → st'.block i (o / blockSize) ≠ 0
  frame : ∀ b, ¬(b ≠ 0 ∧ ∃ l, b = st'.block i l) → ∀ k < blockSize,
    st'.disk (b.toNat * blockSize + k) = st.disk (b.toNat * blockSize + k)
  written : ∀ k (hk : k < src.length), (st'.inode i).byte st'.disk (offset + k) = src[k]
  unwritten : ∀ o, o < offset ∨ offset + src.length ≤ o → st.block i (o / blockSize) ≠ 0 →
    (st'.inode i).byte st'.disk o = (st.inode i).byte st.disk o

namespace DataWritten

variable {offset : ℕ} {src src' : List (BitVec 8)} {used used' : List (BitVec 32)}

theorem nil : DataWritten st st i offset [] [] :=
  ⟨.refl, by simp, fun _ _ => rfl, fun o _ h => by simp at h; omega, fun _ _ _ _ => rfl,
    fun k hk => by simp at hk, fun _ _ _ => rfl⟩

theorem trans (h : DataWritten st st' i offset src used)
    (h' : DataWritten st' st'' i (offset + src.length) src' used') :
    DataWritten st st'' i offset (src ++ src') (used ++ used') := by
  refine ⟨h.toMapFrame.trans h'.toMapFrame, fun b => ?_, fun l hl => ?_, fun o ho₁ ho₂ => ?_,
    fun b hb k hk => ?_, fun k hk => ?_, fun o ho hb => ?_⟩
  · rw [h'.uses, h.uses, List.mem_append, or_assoc]
  · have hkept := h.kept l hl
    rw [h'.kept l (hkept ▸ hl), hkept]
  · rw [List.length_append] at ho₂
    by_cases ho : o < offset + src.length
    · have hb := h.mapped o ho₁ ho
      rwa [h'.kept _ hb]
    · exact h'.mapped o (by omega) (by omega)
  · rw [h'.frame b hb k hk, h.frame b _ k hk]
    rintro ⟨hb₀, l, rfl⟩
    exact hb ⟨hb₀, l, (h'.kept l hb₀).symm⟩
  · by_cases hk' : k < src.length
    · rw [h'.unwritten _ (.inl (by omega)) (h.mapped _ (by omega) (by omega)), h.written k hk',
        List.getElem_append_left hk']
    · have := h'.written (k - src.length) (by rw [List.length_append] at hk; omega)
      rw [show offset + src.length + (k - src.length) = offset + k by omega] at this
      rw [this, List.getElem_append_right (by omega)]
  · rw [List.length_append] at ho
    have hkept := h.kept _ hb
    rw [h'.unwritten o (by omega) (hkept ▸ hb), h.unwritten o (by omega) hb]

theorem block {st₁ : Efs} (hmap : Mapped st st₁ i (offset / blockSize) b used)
    (hwf : WellMapped st₁ i) (hoff : offset % blockSize + src.length ≤ blockSize) :
    DataWritten st (st₁.patchBlock b (offset % blockSize) src) i offset src used := by
  have hb : st₁.block i (offset / blockSize) = b := by rw [hmap.block, Function.update_self]
  have haddr : (st₁.inode i).di.addrs nDirect ≠ 0 → (st₁.inode i).di.addrs nDirect ≠ b := by
    rw [← hb]
    exact hwf.addr_ne (by rw [hb]; exact hmap.ne_zero) hwf.known
  have hblock : (st₁.patchBlock b (offset % blockSize) src).block i =
      Function.update (st.block i) (offset / blockSize) b := by
    rw [block_patchBlock haddr hoff, hmap.block]
  have hself : ∀ o, o / blockSize = offset / blockSize →
      ((st₁.patchBlock b (offset % blockSize) src).inode i).byte
        (st₁.patchBlock b (offset % blockSize) src).disk o =
        patch st₁.disk (b.toNat * blockSize + offset % blockSize) src
          (b.toNat * blockSize + o % blockSize) := by
    intro o ho
    rw [Efs.byte_eq, hblock, ho, Function.update_self]
    rfl
  refine ⟨{ hmap.grown.toMapFrame with }, fun b' => ?_, fun l' hl' => ?_, fun o ho₁ ho₂ => ?_,
    fun b' hb' k hk => ?_, fun k hk => ?_, fun o ho hb₀ => ?_⟩
  · rw [uses_patchBlock haddr hoff, hmap.grown.uses]
  · rw [hblock]
    by_cases h : l' = offset / blockSize
    · subst h
      rw [Function.update_self, hmap.old hl']
    · rw [Function.update_of_ne h]
  · have ho : o / blockSize = offset / blockSize := by
      simp only [blockSize] at hoff ⊢
      omega
    rw [hblock, ho, Function.update_self]
    exact hmap.ne_zero
  · have hne : b' ≠ b := by
      rintro rfl
      exact hb' ⟨hmap.ne_zero, offset / blockSize, by rw [hblock, Function.update_self]⟩
    rw [← hmap.grown.disk]
    exact patch_of_block_ne hne hoff hk
  · have hdiv : (offset + k) / blockSize = offset / blockSize := by
      simp only [blockSize] at hoff ⊢
      omega
    have hmod : (offset + k) % blockSize = offset % blockSize + k := by
      simp only [blockSize] at hoff ⊢
      omega
    rw [hself _ hdiv, hmod, patch_of_mem (by omega) (by omega)]
    congr 1
    omega
  · by_cases h : o / blockSize = offset / blockSize
    · have hold := hmap.old (h ▸ hb₀)
      rw [hself o h, Efs.byte_eq, h, ← hold, hmap.grown.disk]
      rcases ho with ho | ho
      · refine patch_of_lt ?_
        simp only [blockSize] at h ⊢
        omega
      · refine patch_of_ge ?_
        simp only [blockSize] at h ⊢
        omega
    · have hblock' : (st₁.patchBlock b (offset % blockSize) src).block i (o / blockSize) =
          st.block i (o / blockSize) := by rw [hblock, Function.update_of_ne h]
      have hne : st.block i (o / blockSize) ≠ b := by
        intro e
        refine h (hwf.distinct _ _ ?_ ?_) <;> rw [hmap.block, Function.update_of_ne h]
        · exact hb₀
        · rw [e, Function.update_self]
      rw [Efs.byte_eq, Efs.byte_eq, hblock', ← hmap.grown.disk]
      exact patch_of_block_ne hne hoff (Nat.mod_lt _ (by decide))

theorem head {st₁ : Efs} {m : ℕ} (hmap : Mapped st st₁ i (offset / blockSize) b used)
    (hwf : WellMapped st₁ i) (hoff : offset % blockSize + (src.take m).length ≤ blockSize)
    (hm : (src.take m).length = m)
    (h : DataWritten (st₁.patchBlock b (offset % blockSize) (src.take m)) st' i (offset + m)
      (src.drop m) used') : DataWritten st st' i offset src (used ++ used') := by
  have hbehind : DataWritten (st₁.patchBlock b (offset % blockSize) (src.take m)) st' i
      (offset + (src.take m).length) (src.drop m) used' := by rwa [hm]
  have hall := (block hmap hwf hoff).trans hbehind
  rwa [List.take_append_drop] at hall

end DataWritten

/-- The number of blocks that a write of `n` bytes at `offset` takes. -/
def Efs.needed (st : Efs) (i offset n : ℕ) : ℕ :=
  if n = 0 then 0
  else
    let last := (offset + n - 1) / blockSize
    ((List.range' (offset / blockSize) (last + 1 - offset / blockSize)).filter
      fun l => st.block i l = 0).length +
      if (st.inode i).di.addrs nDirect = 0 ∧ nDirect ≤ last then 1 else 0

/-- The number of blocks for the blocks of the file behind the first one of the range. -/
private def Efs.neededBehind (st : Efs) (i offset n : ℕ) : ℕ :=
  ((List.range' (offset / blockSize + 1) ((offset + n - 1) / blockSize - offset / blockSize)).filter
    fun l => st.block i l = 0).length +
    if ((st.inode i).di.addrs nDirect = 0 ∧ offset / blockSize < nDirect) ∧
      nDirect ≤ (offset + n - 1) / blockSize then 1 else 0

private theorem needed_eq {offset n : ℕ} (hn : n ≠ 0) : st.needed i offset n =
    (if st.block i (offset / blockSize) = 0 then 1 else 0) +
      (if (st.inode i).di.addrs nDirect = 0 ∧ nDirect ≤ offset / blockSize then 1 else 0) +
        st.neededBehind i offset n := by
  have hle : offset / blockSize ≤ (offset + n - 1) / blockSize := Nat.div_le_div_right (by omega)
  have hcount : ((offset / blockSize :: List.range' (offset / blockSize + 1)
      ((offset + n - 1) / blockSize - offset / blockSize)).filter
        fun l => st.block i l = 0).length =
      (if st.block i (offset / blockSize) = 0 then 1 else 0) +
        ((List.range' (offset / blockSize + 1)
          ((offset + n - 1) / blockSize - offset / blockSize)).filter
            fun l => st.block i l = 0).length := by
    by_cases h : st.block i (offset / blockSize) = 0
    · rw [List.filter_cons_of_pos (by simpa using h), List.length_cons, if_pos h, Nat.add_comm]
    · rw [List.filter_cons_of_neg (by simpa using h), if_neg h, Nat.zero_add]
  have hindirect : (if (st.inode i).di.addrs nDirect = 0 ∧ nDirect ≤ (offset + n - 1) / blockSize
      then 1 else 0) =
      (if (st.inode i).di.addrs nDirect = 0 ∧ nDirect ≤ offset / blockSize then 1 else 0) +
        if ((st.inode i).di.addrs nDirect = 0 ∧ offset / blockSize < nDirect) ∧
          nDirect ≤ (offset + n - 1) / blockSize then 1 else 0 := by
    by_cases ha : (st.inode i).di.addrs nDirect = 0
    · simp only [ha, true_and]
      split_ifs <;> omega
    · simp only [ha, false_and, if_false]
  rw [Efs.needed, if_neg hn]
  dsimp only
  rw [Nat.sub_add_comm hle, List.range'_succ, hcount, hindirect, Efs.neededBehind]
  omega

/-- When the first block of the range has been mapped, the others remain. -/
private theorem neededBehind_eq {offset n : ℕ} {used : List (BitVec 32)} (hn : n ≠ 0)
    (hmap : Mapped st st' i (offset / blockSize) b used) (hblock : st''.block i = st'.block i)
    (haddr : (st''.inode i).di.addrs nDirect = (st'.inode i).di.addrs nDirect) :
    st.neededBehind i offset n = st''.needed i (offset + min n (blockSize - offset % blockSize))
      (n - min n (blockSize - offset % blockSize)) := by
  have hcongr : (List.range' (offset / blockSize + 1)
      ((offset + n - 1) / blockSize - offset / blockSize)).filter (fun l => st''.block i l = 0) =
      (List.range' (offset / blockSize + 1)
        ((offset + n - 1) / blockSize - offset / blockSize)).filter fun l => st.block i l = 0 := by
    refine List.filter_congr fun l hl => ?_
    rw [List.mem_range'_1] at hl
    rw [hblock, hmap.block, Function.update_of_ne (by omega)]
  rw [Efs.neededBehind, ← hcongr, Efs.needed, haddr]
  simp only [hmap.addr]
  by_cases hrest : n - min n (blockSize - offset % blockSize) = 0
  · have hlast : (offset + n - 1) / blockSize = offset / blockSize := by
      simp only [blockSize] at hrest ⊢
      omega
    have hnone : ¬(((st.inode i).di.addrs nDirect = 0 ∧ offset / blockSize < nDirect) ∧
        nDirect ≤ offset / blockSize) := fun h => absurd h.1.2 (Nat.not_lt.2 h.2)
    rw [if_pos hrest, hlast, Nat.sub_self, if_neg hnone]
    rfl
  · have hfirst : (offset + min n (blockSize - offset % blockSize)) / blockSize =
        offset / blockSize + 1 := by
      simp only [blockSize] at hrest ⊢
      omega
    rw [if_neg hrest, hfirst, Nat.add_assoc offset, Nat.add_sub_cancel' (min_le_left ..),
      Nat.add_sub_add_right]

theorem efsIWriteLoop_eq {fuel offset : ℕ} {src : List (BitVec 8)} (hfuel : src.length ≤ fuel)
    (hwf : WellMapped st i) (hmax : offset + src.length ≤ maxFileSize) (hs : Supply st bs)
    (hn : st.needed i offset src.length ≤ bs.length) :
    ∃ st' used rest, efsIWriteLoop i fuel st offset src = .ok (offset + src.length, st') ∧
      bs = used ++ rest ∧ used.length = st.needed i offset src.length ∧
        DataWritten st st' i offset src used ∧ WellMapped st' i ∧ Supply st' rest := by
  induction fuel generalizing st offset src bs with
  | zero =>
    obtain rfl : src = [] := List.length_eq_zero_iff.1 (by omega)
    exact ⟨st, [], bs, rfl, rfl, rfl, .nil, hwf, hs⟩
  | succ fuel ih =>
    by_cases hsrc : src = []
    · subst hsrc
      exact ⟨st, [], bs, by rw [efsIWriteLoop, if_pos rfl]; rfl, rfl, rfl, .nil, hwf, hs⟩
    have hpos : src.length ≠ 0 := fun h => hsrc (List.length_eq_zero_iff.1 h)
    have hl : offset / blockSize < nDirect + nIndirect := by
      simp only [maxFileSize, blockSize, nDirect, nIndirect] at hmax ⊢
      omega
    have hmod : offset % blockSize < blockSize := Nat.mod_lt _ (by decide)
    rw [needed_eq hpos] at hn ⊢
    obtain ⟨b, st₁, used, rest, heq, rfl, hmap, hwf₁, hs₁⟩ := efsIBmap_true hwf hl hs (by omega)
    rw [efsIWriteLoop, if_neg hsrc, heq]
    simp only [bind, Except.bind]
    rw [if_neg hmap.ne_zero]
    set m := min src.length (blockSize - offset % blockSize) with hm
    have htake : (src.take m).length = m := by rw [List.length_take]; omega
    have hdrop : (src.drop m).length = src.length - m := List.length_drop
    have hb : st₁.block i (offset / blockSize) = b := by rw [hmap.block, Function.update_self]
    have hb₀ : st₁.block i (offset / blockSize) ≠ 0 := hb ▸ hmap.ne_zero
    have hoff : offset % blockSize + (src.take m).length ≤ blockSize := by omega
    have hwf₂ := hwf₁.patchBlock hb₀ hoff
    have hs₂ := hs₁.patchBlock hwf₁ hb₀ hoff
    rw [hb] at hwf₂ hs₂
    have hblock₂ : (st₁.patchBlock b (offset % blockSize) (src.take m)).block i = st₁.block i :=
      block_patchBlock (hb ▸ hwf₁.addr_ne hb₀ hwf₁.known) hoff
    have hbehind := neededBehind_eq hpos hmap hblock₂ rfl
    rw [← hm, ← hdrop] at hbehind
    rw [List.length_append, hmap.length] at hn
    obtain ⟨st', used', rest', heq', rfl, hused', hwritten, hwf', hs'⟩ :=
      @ih _ rest (offset + m) (src.drop m) (by omega) hwf₂ (by omega) hs₂ (by omega)
    refine ⟨st', used ++ used', rest', ?_, by rw [List.append_assoc], ?_,
      .head hmap hwf₁ hoff htake hwritten, hwf', hs'⟩
    · rw [show offset + src.length = offset + m + (src.drop m).length by omega]
      exact heq'
    · rw [List.length_append, hmap.length, hused', hbehind]

theorem le_of_efsIWriteLoop {fuel offset last : ℕ} {src : List (BitVec 8)}
    (h : efsIWriteLoop i fuel st offset src = .ok (last, st')) : offset ≤ last := by
  induction fuel generalizing st offset src with
  | zero =>
    obtain ⟨rfl, -⟩ := ok_prod_inj h
    exact le_rfl
  | succ fuel ih =>
    rw [efsIWriteLoop] at h
    split_ifs at h
    · obtain ⟨rfl, -⟩ := ok_prod_inj h
      exact le_rfl
    · obtain ⟨⟨bno, st₁⟩, -, h⟩ := bind_eq_ok.1 h
      dsimp only at h
      split_ifs at h
      · obtain ⟨rfl, -⟩ := ok_prod_inj h
        exact le_rfl
      · exact le_trans (Nat.le_add_right ..) (ih h)

/-! ### The byte string -/

/-- The arguments for which `efs_i_write` returns -1. -/
def Rejected (st : Efs) (i : ℕ) (offset len : BitVec 32) : Prop :=
  (st.inode i).di.size.toNat < offset.toNat ∨ 2 ^ 32 ≤ offset.toNat + len.toNat ∨
    maxFileSize < offset.toNat + len.toNat

/-- A call of `efs_i_read`. -/
def ReadStep (st st' : Efs) : Prop :=
  ∃ i offset len bytes, efsIRead st i offset len = .ok (bytes, st')

/-- The state `st'` after `data` have been written at `offset` to the file of the inode `i`. -/
structure Overlaid (st st' : Efs) (i offset : ℕ) (data : List (BitVec 8)) : Prop where
  size : (st'.inode i).di.size.toNat = max (st.inode i).di.size.toNat (offset + data.length)
  file : st'.file i = overlay (st.file i) offset data
  /-- Every later `efs_i_read` returns what the byte string holds. -/
  reads : ∀ st₁, Relation.ReflTransGen ReadStep st' st₁ → ∀ o len : BitVec 32,
    o.toNat ≤ (st'.inode i).di.size.toNat → o.toNat + len.toNat < 2 ^ 32 →
      ∃ st₂, efsIRead st₁ i o len =
        .ok (((overlay (st.file i) offset data).drop o.toNat).take len.toNat, st₂)
  /-- The other inodes and their files stay the same. -/
  others : ∀ j < st.inodes, j ≠ i → st'.inode j = st.inode j ∧ st'.block j = st.block j ∧
    st'.file j = st.file j
  /-- So does the disk outside the blocks of the file. -/
  frame : ∀ b, ¬(b ≠ 0 ∧ ∃ l, b = st'.block i l) → ∀ k < blockSize,
    st'.disk (b.toNat * blockSize + k) = st.disk (b.toNat * blockSize + k)
  wellFormed : WellFormed st' i

/-- Writing to a file refines writing to a byte string. -/
structure WriteRefines (st : Efs) (i : ℕ) (offset len : BitVec 32) (vaddr : ℕ → BitVec 8) :
    Prop where
  rejected : Rejected st i offset len → efsIWrite st i offset len vaddr = .ok (-1, st)
  rejected_of_eq : ∀ st', efsIWrite st i offset len vaddr = .ok (-1, st') → Rejected st i offset len
  accepted : ¬Rejected st i offset len → ∀ bs, Supply st bs →
    st.needed i offset.toNat len.toNat ≤ bs.length →
      ∃ st', efsIWrite st i offset len vaddr = .ok (len.toNat, st') ∧
        Overlaid st st' i offset.toNat (slice vaddr 0 len.toNat)

/-- The states have the same disk, the same bitmaps and the same blocks of the files. -/
structure SameMap (st st' : Efs) (i : ℕ) : Prop where
  disk : st'.disk = st.disk
  sb : st'.sb = st.sb
  inodes : st'.inodes = st.inodes
  other : ∀ j ≠ i, st'.inode j = st.inode j
  addrs : (st'.inode i).di.addrs = (st.inode i).di.addrs
  indir : (st'.inode i).indir = (st.inode i).indir

namespace SameMap

theorem of_modInode {f : MInode → MInode}
    (haddrs : (f (st.inode i)).di.addrs = (st.inode i).di.addrs)
    (hindir : (f (st.inode i)).indir = (st.inode i).indir) : SameMap st (st.modInode i f) i := by
  refine ⟨rfl, rfl, rfl, fun j hj => Efs.modInode_inode_of_ne hj, ?_, ?_⟩
  · rw [Efs.modInode_inode_self, haddrs]
  · rw [Efs.modInode_inode_self, hindir]

theorem block (h : SameMap st st' i) (j : ℕ) : st'.block j = st.block j := by
  funext l
  unfold Efs.block
  by_cases hj : j = i
  · subst hj
    simp only [MInode.block, MInode.page, h.addrs, h.indir, h.disk]
  · rw [h.other j hj, h.disk]

theorem byte (h : SameMap st st' i) :
    (st'.inode i).byte st'.disk = (st.inode i).byte st.disk := by
  funext o
  rw [Efs.byte_eq, Efs.byte_eq, h.block, h.disk]

theorem uses (h : SameMap st st' i) (j : ℕ) :
    (st'.inode j).Uses st'.disk b ↔ (st.inode j).Uses st.disk b := by
  by_cases hj : j = i
  · subst hj
    have hblock : (st'.inode j).block st'.disk = (st.inode j).block st.disk := h.block j
    rw [MInode.Uses, MInode.Uses, hblock, h.addrs]
  · rw [h.other j hj, h.disk]

theorem wellMapped (h : SameMap st st' i) (hwf : WellMapped st i) : WellMapped st' i := by
  refine ⟨h.inodes ▸ hwf.known, ?_, ?_, ?_, fun j hj hne b => ?_⟩
  · rw [h.indir, h.addrs]
    exact hwf.indir
  · rw [h.block]
    exact hwf.distinct
  · rw [h.block, h.addrs]
    exact hwf.indirect
  · rw [h.uses, h.uses]
    exact hwf.unshared j (h.inodes ▸ hj) hne b

end SameMap

/-- The end of `efs_i_write`: the inode gets the new size and is marked dirty. -/
structure Resized (st st' : Efs) (i n : ℕ) : Prop where
  disk : st'.disk = st.disk
  sb : st'.sb = st.sb
  inodes : st'.inodes = st.inodes
  other : ∀ j ≠ i, st'.inode j = st.inode j
  inode : st'.inode i =
    { st.inode i with di := { (st.inode i).di with size := BitVec.ofNat 32 n }, dirty := true }

namespace Resized

variable {n : ℕ}

theorem efsISdirty_modInode {f : MInode → MInode} (hf : { f (st.inode i) with dirty := true } =
    { st.inode i with
      di := { (st.inode i).di with size := BitVec.ofNat 32 n }, dirty := true }) :
    Resized st (efsISdirty (st.modInode i f) i) i n := by
  have hstep : Resized st ((st.modInode i f).modInode i fun x => { x with dirty := true }) i n := by
    refine ⟨rfl, rfl, rfl, fun j hj => ?_, ?_⟩
    · rw [Efs.modInode_inode_of_ne hj, Efs.modInode_inode_of_ne hj]
    · rw [Efs.modInode_inode_self, Efs.modInode_inode_self, hf]
  unfold efsISdirty
  dsimp only
  split_ifs
  · exact hstep
  · exact ⟨hstep.disk, hstep.sb, hstep.inodes, hstep.other, hstep.inode⟩

theorem of_write {last : ℕ} : Resized st
    (efsISdirty (if (st.inode i).di.size.toNat < last then
      st.modDi i fun x => { x with size := BitVec.ofNat 32 last } else st) i) i
    (max (st.inode i).di.size.toNat last) := by
  split_ifs with h
  · rw [max_eq_right h.le]
    exact efsISdirty_modInode rfl
  · rw [max_eq_left (Nat.not_lt.1 h)]
    have hid : st = st.modInode i id := by
      rw [Efs.modInode, id_eq, Function.update_eq_self]
    nth_rewrite 2 [hid]
    refine efsISdirty_modInode ?_
    rw [BitVec.ofNat_toNat, BitVec.setWidth_eq, id_eq]

theorem sameMap (h : Resized st st' i n) : SameMap st st' i :=
  ⟨h.disk, h.sb, h.inodes, h.other, by rw [h.inode], by rw [h.inode]⟩

theorem wellFormed (h : Resized st st' i n) (hwf : WellMapped st i) (hmax : n ≤ maxFileSize)
    (hholes : ∀ l, l * blockSize < n → st.block i l ≠ 0) : WellFormed st' i := by
  have hsize : (st'.inode i).di.size.toNat = n := by
    rw [h.inode, BitVec.toNat_ofNat]
    exact Nat.mod_eq_of_lt (lt_of_le_of_lt hmax (by decide))
  refine ⟨h.sameMap.wellMapped hwf, by rwa [hsize], ?_⟩
  rwa [hsize, h.sameMap.block]

end Resized

theorem ReadFrame.of_reads (h : Relation.ReflTransGen ReadStep st st') : ReadFrame st st' := by
  induction h with
  | refl => exact .refl
  | tail _ hstep ih =>
    obtain ⟨i, offset, len, bytes, heq⟩ := hstep
    obtain ⟨bytes', st', heq', hframe⟩ := efsIRead_frame _ i offset len
    obtain ⟨-, rfl⟩ := ok_prod_inj (heq.symm.trans heq')
    exact ih.trans hframe

section Overlay

variable {offset : ℕ} {src : List (BitVec 8)} {used : List (BitVec 32)}

/-- The files of the other inodes do not use the blocks that have been written to. -/
theorem DataWritten.file_eq (h : DataWritten st st' i offset src used) (hwf : WellMapped st i)
    (hunused : ∀ b ∈ used, ∀ j < st.inodes, ¬(st.inode j).Uses st.disk b) {j : ℕ}
    (hj : j < st.inodes) (hji : j ≠ i) : st'.block j = st.block j ∧ st'.file j = st.file j := by
  have hframe : ∀ b, b = 0 ∨ (st.inode j).Uses st.disk b → ∀ k < blockSize,
      st'.disk (b.toNat * blockSize + k) = st.disk (b.toNat * blockSize + k) := by
    refine fun b hb => h.frame b ?_
    rintro ⟨hne, l, hl⟩
    have hj' := hb.resolve_left hne
    rcases (h.uses b).1 ⟨hne, .inr ⟨l, hl⟩⟩ with hi | hi
    · exact hwf.unshared j hj hji b hi hj'
    · exact hunused b hi j hj hj'
  have hblock : st'.block j = st.block j := by
    unfold Efs.block
    rw [h.other j hji]
    exact MInode.block_congr fun ha => hframe _ (.inr ⟨ha, .inl rfl⟩)
  refine ⟨hblock, ?_⟩
  have hsize : (st'.inode j).di.size = (st.inode j).di.size := by rw [h.other j hji]
  unfold Efs.file MInode.file
  rw [hsize]
  refine slice_congr fun o _ => ?_
  rw [Efs.byte_eq, Efs.byte_eq, hblock]
  refine hframe _ ?_ _ (Nat.mod_lt _ (by decide))
  rw [or_iff_not_imp_left]
  exact MInode.uses_block

theorem Overlaid.of_written (hwritten : DataWritten st st' i offset src used)
    (hwf : WellFormed st i) (hwf' : WellMapped st' i)
    (hunused : ∀ b ∈ used, ∀ j < st.inodes, ¬(st.inode j).Uses st.disk b)
    (hoffset : offset ≤ (st.inode i).di.size.toNat) (hmax : offset + src.length ≤ maxFileSize)
    (hresized : Resized st' st'' i (max (st.inode i).di.size.toNat (offset + src.length))) :
    Overlaid st st'' i offset src := by
  have hle : max (st.inode i).di.size.toNat (offset + src.length) ≤ maxFileSize :=
    max_le hwf.size hmax
  have hsize : (st''.inode i).di.size.toNat =
      max (st.inode i).di.size.toNat (offset + src.length) := by
    rw [hresized.inode, BitVec.toNat_ofNat]
    exact Nat.mod_eq_of_lt (lt_of_le_of_lt hle (by decide))
  -- Behind the old end there is nothing but the range that has been mapped.
  have hholes : ∀ l, l * blockSize < max (st.inode i).di.size.toNat (offset + src.length) →
      st'.block i l ≠ 0 := by
    intro l hl
    by_cases hlt : l * blockSize < (st.inode i).di.size.toNat
    · rw [hwritten.kept l (hwf.noHoles l hlt)]
      exact hwf.noHoles l hlt
    · have hmapped := hwritten.mapped (l * blockSize) (by omega) (by omega)
      rwa [Nat.mul_div_cancel _ (by decide)] at hmapped
  have hwf'' := hresized.wellFormed hwf' hle hholes
  have hfile : st''.file i = overlay (st.file i) offset src := by
    unfold Efs.file MInode.file
    rw [hsize, hresized.sameMap.byte]
    refine slice_overlay hoffset hwritten.written fun o ho hrest => ?_
    refine hwritten.unwritten o hrest (hwf.noHoles _ ?_)
    exact lt_of_le_of_lt (Nat.div_mul_le_self ..) ho
  refine ⟨hsize, hfile, fun st₁ hreads o len ho hwrap => ?_, fun j hj hji => ?_, fun b hb => ?_,
    hwf''⟩
  · have hframe := ReadFrame.of_reads hreads
    have hread := efsIRead_eq (hframe.wellFormed hwf'').noHoles (by rwa [hframe.di]) hwrap
    rw [hframe.file, hfile] at hread
    obtain ⟨st₂, heq, -⟩ := hread
    exact ⟨st₂, heq⟩
  · obtain ⟨hblock, hfile⟩ := hwritten.file_eq hwf.toWellMapped hunused hj hji
    refine ⟨(hresized.other j hji).trans (hwritten.other j hji),
      (hresized.sameMap.block j).trans hblock, ?_⟩
    rw [← hfile]
    unfold Efs.file
    rw [hresized.other j hji, hresized.disk]
  · rw [hresized.sameMap.block] at hb
    rw [hresized.disk]
    exact hwritten.frame b hb

end Overlay

theorem rejected_iff {offset len : BitVec 32} : Rejected st i offset len ↔
    ((st.inode i).di.size < offset ∨ offset + len < offset) ∨
      maxFileSize < (offset + len).toNat := by
  have := offset.isLt
  have := len.isLt
  rw [Rejected, BitVec.lt_def, BitVec.lt_def, BitVec.toNat_add]
  simp only [maxFileSize, nDirect, nIndirect, blockSize]
  omega

theorem rejected_of_efsIWrite {offset len : BitVec 32} {vaddr : ℕ → BitVec 8}
    (h : efsIWrite st i offset len vaddr = .ok (-1, st')) : Rejected st i offset len := by
  rw [rejected_iff]
  by_contra hacc
  rw [not_or] at hacc
  rw [efsIWrite, if_neg hacc.1, if_neg hacc.2] at h
  obtain ⟨⟨last, st₁⟩, hloop, h⟩ := bind_eq_ok.1 h
  obtain ⟨heq, -⟩ := ok_prod_inj h
  have := le_of_efsIWriteLoop hloop
  omega

/-- Writing to the file of a well-formed inode is writing to a byte string. A write that is rejected
changes nothing. One that is not, with enough free blocks, puts its bytes over those of the file, so
that they are read later, and leaves the other files and the rest of the disk alone. -/
theorem writeRefines_of_wellFormed (hwf : WellFormed st i) (offset len : BitVec 32)
    (vaddr : ℕ → BitVec 8) : WriteRefines st i offset len vaddr := by
  refine ⟨fun h => ?_, fun st' => rejected_of_efsIWrite, fun h bs hs hn => ?_⟩
  · unfold efsIWrite
    rcases rejected_iff.1 h with h | h
    · rw [if_pos h]
    · split_ifs
      · rfl
      · rfl
  · have hacc := h
    rw [rejected_iff, not_or] at hacc
    rw [Rejected] at h
    have hlen : (slice vaddr 0 len.toNat).length = len.toNat := length_slice ..
    have hmax : offset.toNat + (slice vaddr 0 len.toNat).length ≤ maxFileSize := by omega
    obtain ⟨st', used, rest, hloop, rfl, -, hwritten, hwf', -⟩ :=
      efsIWriteLoop_eq hlen.le hwf.toWellMapped hmax hs (by rwa [hlen])
    rw [efsIWrite, if_neg hacc.1, if_neg hacc.2, hloop]
    refine ⟨_, congrArg (fun r => Except.ok (r, _)) ?_, .of_written hwritten hwf hwf'
      (fun b hb => hs.unused b (List.mem_append_left _ hb)) (by omega) hmax ?_⟩
    · rw [hlen]
      push_cast
      omega
    · rw [← hwritten.size]
      exact Resized.of_write

/-- A file system with one inode in memory, whose file is empty, and free blocks from 8 on. -/
def oneFile : Efs where
  disk := fun _ => 0
  sb := ⟨⟨64, 63, 128, 1, 2, 64, 56, 4096, 4, 5, easyfsMagic⟩, ⟨fun _ => 3, 64, 62, 2⟩,
    ⟨fun _ => 0xff, 64, 56, 8⟩, false⟩
  dev := 0
  junk := fun _ _ => 0
  inode := fun _ => ⟨⟨1, .fNone, 0, 0, fun _ => 0, 1⟩, 1, false, true, none⟩
  inodes := 1
  dentry := fun _ => ⟨⟨0, .fNone, fun _ => 0⟩, none, none, [], false, false⟩
  dentries := 0
  ihash := fun _ => []
  dhash := fun _ => []
  idirty := []
  ddirty := []

theorem block_oneFile (i l : ℕ) : oneFile.block i l = 0 := by
  unfold Efs.block MInode.block
  split_ifs with _ h
  · rfl
  · exact absurd rfl h.2
  · rfl

theorem uses_oneFile (i : ℕ) (b : BitVec 32) :
    ¬(oneFile.inode i).Uses oneFile.disk b := by
  rintro ⟨hne, hb | ⟨l, hb⟩⟩
  · exact hne hb
  · exact hne (hb.trans (block_oneFile i l))

theorem wellFormed_oneFile : WellFormed oneFile 0 where
  known := by decide
  size := by decide
  noHoles := fun l hl => absurd hl (Nat.not_lt_zero _)
  indir := fun h => by cases h
  distinct := fun l _ h => absurd (block_oneFile 0 l) h
  indirect := fun l h => absurd (block_oneFile 0 l) h
  unshared := fun _ _ _ b h => absurd h (uses_oneFile 0 b)

private theorem efsBmapAlloc_oneFile : ∃ sb, efsBmapAlloc oneFile.sb = .ok (8, sb) := by
  simp [efsBmapAlloc, bitmapAlloc, oneFile, scanWords, findClear, Bitmap.words]

theorem supply_oneFile : Supply oneFile [8] where
  alloc := by
    obtain ⟨sb, h⟩ := efsBmapAlloc_oneFile
    exact ⟨sb, .cons h .nil⟩
  nodup := by decide
  ne_zero := by simp
  unused := fun b _ j _ => uses_oneFile j b
  zero := fun _ _ _ _ => rfl

theorem writeRefines_three_bytes : ∃ st', efsIWrite oneFile 0 0 3 (fun _ => 7) = .ok (3, st') ∧
    st'.file 0 = [7, 7, 7] ∧ ∃ st'', efsIRead st' 0 1 8 = .ok ([7, 7], st'') := by
  have hacc : ¬Rejected oneFile 0 0 3 := by
    unfold Rejected
    decide
  obtain ⟨st', heq, h⟩ := (writeRefines_of_wellFormed wellFormed_oneFile 0 3 fun _ => 7).accepted
    hacc [8] supply_oneFile (by decide)
  refine ⟨st', heq, h.file, ?_⟩
  exact h.reads st' .refl 1 8 (by rw [h.size]; decide) (by decide)

end RiscvLab.Fs
