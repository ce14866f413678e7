import RiscvLab.Fs.RunTree
import Mathlib.Data.Finset.Card
import Mathlib.Data.Finset.Range

/-!
# The blocks of the files in runs with write-back

In every state of a run, a block that an inode refers to is marked in the bitmap, lies in the block
area, and is referred to from one place only. A block that becomes an indirect block is not cleared,
so that its entries are what an earlier file has left there; this is kept only in runs that take
blocks with zeros for indirect blocks.

## Main definitions

* `MInode.slot` : the block in a slot of an inode.
* `BlocksOwned` : the property.
* `TakesZeros`, `BlocksOk` : the block that becomes an indirect block holds zeros.

## Main results

* `View.Owned.mapStep` : a step of a write keeps the owners of the blocks.
* `blocksOwned_of_reachable`

Source: `fs/easyfs/inode.c`, lines 119–172 and 258–398; `fs/easyfs/super.c`, lines 89–222.
-/

namespace RiscvLab.Fs

open Library Relation

/-! ### Slots -/

/-- The block in a slot, zero if there is none. -/
def MInode.slot (disk : Disk) (x : MInode) : Slot → BitVec 32
  | .addr k => x.di.addrs k
  | .entry k => if x.di.addrs nDirect = 0 then 0 else x.page disk k

/-- The inode of an entry that can be reached from the root. -/
def Efs.LiveInode (st : Efs) (i : ℕ) : Prop :=
  ∃ d, Live st d ∧ hashFindInode st (st.dentry d).dd.ino = some i

/-- The blocks of live inodes are marked, are no metadata, and have one owner. -/
structure BlocksOwned (st : Efs) : Prop where
  marked : ∀ i s, st.LiveInode i → (st.inode i).slot st.disk s ≠ 0 →
    st.sb.bmap.test ((st.inode i).slot st.disk s).toNat = true
  area : ∀ i s, st.LiveInode i → (st.inode i).slot st.disk s ≠ 0 →
    st.sb.ds.blockAreaStart.toNat ≤ ((st.inode i).slot st.disk s).toNat
  unique : ∀ i j s t, st.LiveInode i → st.LiveInode j → (st.inode i).slot st.disk s ≠ 0 →
    (st.inode i).slot st.disk s = (st.inode j).slot st.disk t → i = j ∧ s = t

namespace View

variable {v v' v₀ : View} {i j k s e : ℕ}

/-- The block in a slot, when the indirect block is in memory. -/
def slot (v : View) (i : ℕ) : Slot → BitVec 32
  | .addr k => (v.di i).addrs k
  | .entry k => (v.indir i).elim 0 (· k)

/-- What runs keep of the blocks. -/
structure Owned (v : View) : Prop extends Owners v.LiveInode v.slot v.sb where
  loaded : ∀ i, v.LiveInode i → ((v.di i).addrs nDirect = 0 ↔ v.indir i = none)

/-- Neither the blocks nor the live inodes have changed. -/
theorem Owned.congr (h : v.Owned) (hlive : ∀ j, v'.LiveInode j → v.LiveInode j)
    (haddrs : ∀ j, v'.LiveInode j → (v'.di j).addrs = (v.di j).addrs)
    (hindir : ∀ j, v'.LiveInode j → v'.indir j = v.indir j) (hbmap : v'.sb.bmap = v.sb.bmap)
    (hds : v'.sb.ds.blockAreaStart = v.sb.ds.blockAreaStart) : v'.Owned := by
  refine ⟨h.toOwners.congr (fun j t hj _ => ⟨hlive j hj, ?_⟩) hbmap hds, fun j hj => ?_⟩
  · cases t with
    | addr k => exact congrFun (haddrs j hj) k
    | entry k => rw [slot, slot, hindir j hj]
  · rw [haddrs j hj, hindir j hj]
    exact h.loaded j (hlive j hj)

/-- A block is taken for the slot `s` of the inode `i`. -/
theorem Owned.take {s : Slot} {no : ℤ} {sb : Super} (h : v.Owned)
    (halloc : efsBmapAlloc v.sb = .ok (no, sb)) (hsb : v'.sb = sb)
    (hlive : ∀ j, v'.LiveInode j ↔ v.LiveInode j) (hself : v'.slot i s = BitVec.ofInt 32 no)
    (hother : ∀ j t, v.LiveInode j → (j ≠ i ∨ t ≠ s) → v'.slot j t = v.slot j t)
    (hloaded : ∀ j, v.LiveInode j → ((v'.di j).addrs nDirect = 0 ↔ v'.indir j = none)) :
    v'.Owned := by
  subst hsb
  have howners := h.toOwners.take halloc hself hother
  exact ⟨howners.congr (fun j _ hj _ => ⟨(hlive j).1 hj, rfl⟩) rfl rfl,
    fun j hj => hloaded j ((hlive j).1 hj)⟩

/-! ### A step of a write -/

theorem slot_setAddr_of_ne {a : Slot} {b : BitVec 32}
    (h : j ≠ i ∨ ∀ hk : k < nDirect + 1, a ≠ .addr ⟨k, hk⟩) :
    (v.setAddr i k b).slot j a = v.slot j a := by
  cases a with
  | entry m => rfl
  | addr m =>
    by_cases hj : j = i
    · subst hj
      have hm : (m : ℕ) ≠ k := by
        rintro rfl
        exact (h.resolve_left (by simp)) m.isLt rfl
      simp [slot, setAddr, modDi, hm]
    · simp [slot, setAddr, modDi, hj]

/-- A step of a write to a live inode keeps the owners of the blocks, if a block that becomes an
indirect block holds zeros. -/
theorem Owned.mapStep (h : v.Owned) (hi : v.LiveInode i) (hstep : MapStep i s e v v')
    (hzero : ∀ no sb, nDirect * blockSize < e → (∀ k < nDirect, s ≤ k → (v.di i).addrs k ≠ 0) →
      (v.di i).addrs nDirect = 0 → efsBmapAlloc v.sb = .ok (no, sb) →
        ∀ k < nIndirect, v.diskPage (BitVec.ofInt 32 no) k = 0) : v'.Owned := by
  have hlive (j : ℕ) : v'.LiveInode j ↔ v.LiveInode j := hstep.fileFrame.liveInode
  cases hstep with
  | @direct k no sb hs hk hzero' halloc =>
    have hk' : k < nDirect + 1 := Nat.lt_succ_of_lt hk
    refine h.take (s := .addr ⟨k, hk'⟩) (i := i) halloc rfl hlive ?_ (fun j t hj hjt => ?_)
      fun j hj => ?_
    · simp [slot, setAddr, modDi]
    · exact slot_setAddr_of_ne (hjt.imp_right fun ht _ => ht)
    · have hsame : ((v.setAddr i k (BitVec.ofInt 32 no)).di j).addrs nDirect =
          (v.di j).addrs nDirect :=
        slot_setAddr_of_ne (a := .addr ⟨nDirect, Nat.lt_succ_self _⟩) (.inr fun _ heq => by
          cases heq
          exact absurd hk (lt_irrefl _))
      exact (iff_of_eq (congrArg (· = 0) hsame)).trans (h.loaded j hj)
  | @indirect no sb he hfull hzero' halloc =>
    have hnone : v.indir i = none := (h.loaded i hi).1 hzero'
    have hpage := hzero no sb he hfull hzero' halloc
    obtain ⟨-, -, hne, -, -⟩ := h.guarded.alloc halloc
    rw [hnone, Option.getD_none]
    refine h.take (s := .addr ⟨nDirect, Nat.lt_succ_self _⟩) (i := i) halloc rfl ?_ ?_
      (fun j t hj hjt => ?_) fun j hj => ?_
    · rw [hnone, Option.getD_none] at hlive
      exact hlive
    · simp [slot, setAddr, setIndir, modDi]
    · cases t with
      | addr m => exact slot_setAddr_of_ne (hjt.imp_right fun ht _ => ht)
      | entry m =>
        by_cases hji : j = i
        · subst hji
          simp [slot, setIndir, hnone, hpage m m.isLt]
        · simp [slot, setIndir, setAddr, modDi, hji]
    · by_cases hji : j = i
      · subst hji
        refine iff_of_false (fun h₀ => hne ?_) (by simp [setIndir])
        simpa [setAddr, setIndir, modDi] using h₀
      · simpa [setAddr, setIndir, modDi, hji] using h.loaded j hj
  | load haddr hindir => exact absurd ((h.loaded i hi).2 hindir) haddr
  | @page blk k no sb hk hindir hzero' halloc =>
    refine h.take (s := .entry ⟨k, hk⟩) (i := i) halloc rfl hlive ?_ (fun j t hj hjt => ?_)
      fun j hj => ?_
    · simp [slot, setIndir]
    · cases t with
      | addr m => rfl
      | entry m =>
        by_cases hji : j = i
        · subst hji
          have hm : (m : ℕ) ≠ k := by
            rintro rfl
            exact (hjt.resolve_left (by simp)) rfl
          simp [slot, setIndir, hindir, hm]
        · simp [slot, setIndir, hji]
    · by_cases hji : j = i
      · subst hji
        simpa [setIndir, hindir] using h.loaded j hj
      · simpa [setIndir, hji] using h.loaded j hj
  | data hb hmaps hoff =>
    exact h.congr (fun j hj => (hlive j).1 hj) (fun _ _ => rfl) (fun _ _ => rfl) rfl rfl

end View

/-! ### A write -/

/-- The number of direct blocks that a file has not got yet, from the block `s` on. -/
def missing (x : DInode) (s : ℕ) : ℕ :=
  ((Finset.range nDirect).filter fun k => s ≤ k ∧ x.addrs k = 0).card

theorem missing_update {x : DInode} {s k : ℕ} {b : BitVec 32} (hs : s ≤ k) (hk : k < nDirect)
    (hzero : x.addrs k = 0) (hb : b ≠ 0) :
    missing { x with addrs := Function.update x.addrs k b } s + 1 = missing x s := by
  have hmem : k ∈ (Finset.range nDirect).filter fun k => s ≤ k ∧ x.addrs k = 0 := by
    simp [hs, hk, hzero]
  have herase : ((Finset.range nDirect).filter fun j => s ≤ j ∧ Function.update x.addrs k b j = 0) =
      ((Finset.range nDirect).filter fun k => s ≤ k ∧ x.addrs k = 0).erase k := by
    ext j
    by_cases hj : j = k
    · subst hj
      simpa using fun _ _ => hb
    · simp [hj]
  rw [missing, herase, Finset.card_erase_add_one hmem, missing]

theorem missing_eq_zero {x : DInode} {s : ℕ} (h : ∀ k < nDirect, s ≤ k → x.addrs k ≠ 0) :
    missing x s = 0 := by
  rw [missing, Finset.card_eq_zero, Finset.filter_eq_empty_iff]
  rintro k hk ⟨hs, hzero⟩
  exact h k (Finset.mem_range.1 hk) hs hzero

namespace View

variable {v v' v₀ : View} {i j k s e : ℕ} {no : ℤ} {sb : Super}

/-- The block that a write takes for the indirect block holds zeros. -/
def TakesZeros (v : View) (i s e : ℕ) : Prop :=
  nDirect * blockSize < e → (v.di i).addrs nDirect = 0 → ∀ bs b sb, Taken v.sb sb (bs ++ [b]) →
    bs.length = missing (v.di i) s → ∀ k < blockSize, v.disk (b.toNat * blockSize + k) = 0

/-- What holds in the course of a write that starts in `v₀`. -/
structure Along (v₀ : View) (i s : ℕ) (v : View) : Prop where
  owned : v.Owned
  /-- Until there is an indirect block, the blocks that were taken are direct. -/
  taken : (v.di i).addrs nDirect = 0 → (v₀.di i).addrs nDirect = 0 ∧ ∃ bs, Taken v₀.sb v.sb bs ∧
    bs.length + missing (v.di i) s = missing (v₀.di i) s
  /-- Only blocks of the file have been written to. -/
  disk : ∀ b : BitVec 32, (∀ t, v.slot i t ≠ 0 → v.slot i t ≠ b) → ∀ k < blockSize,
    v.disk (b.toNat * blockSize + k) = v₀.disk (b.toNat * blockSize + k)

theorem Owned.along (h : v.Owned) : Along v i s v :=
  ⟨h, fun h₀ => ⟨h₀, [], .nil, Nat.zero_add _⟩, fun _ _ _ _ => rfl⟩

/-- A block that a file has stays in its place. -/
theorem MapStep.slot {t : Slot} (hstep : MapStep i s e v v') (hne : v.slot j t ≠ 0) :
    v'.slot j t = v.slot j t := by
  by_cases hji : j = i
  · subst hji
    cases hstep with
    | @direct k no sb hs hk hzero halloc =>
      refine slot_setAddr_of_ne (.inr ?_)
      rintro hk' rfl
      exact hne hzero
    | @indirect no sb he hfull hzero halloc =>
      cases t with
      | addr m =>
        have hsame : (v.setAddr j nDirect (BitVec.ofInt 32 no)).slot j (.addr m) =
            v.slot j (.addr m) := by
          refine slot_setAddr_of_ne (.inr ?_)
          rintro hk' heq
          rw [heq] at hne
          exact hne hzero
        exact hsame
      | entry m =>
        cases hindir : v.indir j with
        | none => simp [View.slot, hindir] at hne
        | some blk => simp [View.slot, setIndir, hindir]
    | load haddr hindir =>
      cases t with
      | addr m => rfl
      | entry m => simp [View.slot, hindir] at hne
    | @page blk k no sb hk hindir hzero halloc =>
      cases t with
      | addr m => rfl
      | entry m =>
        have hm : (m : ℕ) ≠ k := by
          rintro rfl
          simp [View.slot, hindir, hzero] at hne
        simp [View.slot, setIndir, hindir, hm]
    | data hb hmaps hoff => rfl
  · obtain ⟨hdi, hindir⟩ := hstep.fileFrame.other j hji
    cases t with
    | addr m => rw [View.slot, View.slot, hdi]
    | entry m => rw [View.slot, View.slot, hindir]

theorem exists_slot_of_maps {b : BitVec 32} (h : v.Maps i b) : ∃ t, v.slot i t = b := by
  rcases h with ⟨k, hk, rfl⟩ | ⟨blk, hblk, k, hk, rfl⟩
  · exact ⟨.addr ⟨k, Nat.lt_succ_of_lt hk⟩, rfl⟩
  · exact ⟨.entry ⟨k, hk⟩, by rw [slot, hblk]; rfl⟩

theorem Along.step (h : Along v₀ i s v) (hi : v.LiveInode i) (hzeros : v₀.TakesZeros i s e)
    (hstep : MapStep i s e v v') : Along v₀ i s v' := by
  have howned : v'.Owned := by
    refine h.owned.mapStep hi hstep fun no sb he hfull hzero halloc k hk => ?_
    obtain ⟨hclear, -, -, -, -⟩ := h.owned.guarded.alloc halloc
    obtain ⟨hzero₀, bs, htaken, hlen⟩ := h.taken hzero
    rw [missing_eq_zero hfull, Nat.add_zero] at hlen
    have hdisk := hzeros he hzero₀ bs _ sb (htaken.append (.cons halloc .nil)) hlen
    refine word32_eq_zero fun m hm => ?_
    have hlt : 4 * k + m < blockSize := by
      simp only [nIndirect, blockSize] at hk ⊢
      omega
    rw [Nat.add_assoc, h.disk _ (fun t hne heq => ?_) _ hlt, hdisk _ hlt]
    have hmarked := h.owned.marked i t hi hne
    rw [heq, hclear] at hmarked
    cases hmarked
  refine ⟨howned, ?_, fun b hb k hk => ?_⟩
  · cases hstep with
    | @direct k no sb hs hk hzero halloc =>
      intro h₀
      obtain ⟨-, -, hne, -, -⟩ := h.owned.guarded.alloc halloc
      have hsame : ((v.setAddr i k (BitVec.ofInt 32 no)).di i).addrs nDirect =
          (v.di i).addrs nDirect := by simp [setAddr, modDi, hk.ne']
      obtain ⟨hzero₀, bs, htaken, hlen⟩ := h.taken (hsame.symm.trans h₀)
      refine ⟨hzero₀, bs ++ [BitVec.ofInt 32 no], htaken.append (.cons halloc .nil), ?_⟩
      have hmiss : missing ((v.setAddr i k (BitVec.ofInt 32 no)).di i) s + 1 =
          missing (v.di i) s := by
        rw [← missing_update hs hk hzero hne]
        exact congrArg (missing · s + 1) (Function.update_self ..)
      rw [List.length_append, List.length_singleton, ← hlen, ← hmiss, Nat.add_assoc,
        Nat.add_comm 1]
    | @indirect no sb he hfull hzero halloc =>
      intro h₀
      obtain ⟨-, -, hne, -, -⟩ := h.owned.guarded.alloc halloc
      exact absurd (by simpa [setAddr, setIndir, modDi] using h₀) hne
    | load haddr hindir => exact fun h₀ => absurd h₀ haddr
    | page hk hindir hzero halloc =>
      intro h₀
      rw [(h.owned.loaded i hi).1 h₀] at hindir
      cases hindir
    | data hb hmaps hoff => exact h.taken
  · have hb' (t : Slot) (ht : v.slot i t ≠ 0) : v.slot i t ≠ b := by
      have hsame := hstep.slot ht
      rw [← hsame] at ht ⊢
      exact hb t ht
    rw [← h.disk b hb' k hk]
    cases hstep with
    | @data b' off src hne hmaps hoff =>
      obtain ⟨t, rfl⟩ := exists_slot_of_maps hmaps
      exact patch_of_block_ne (hb' t hne).symm hoff hk
    | _ => rfl

theorem Along.steps (h : Along v₀ i s v) (hi : v.LiveInode i) (hzeros : v₀.TakesZeros i s e)
    (hsteps : ReflTransGen (MapStep i s e) v v') : Along v₀ i s v' := by
  induction hsteps with
  | refl => exact h
  | tail hsteps hstep ih =>
    exact ih.step ((fileFrame_of_mapSteps hsteps).1.liveInode.2 hi) hzeros hstep

/-- A call of `efs_i_write` keeps the owners of the blocks. -/
theorem Owned.writes (h : v.Owned) (hi : v.LiveInode i) (hzeros : v.TakesZeros i s e)
    (hwrites : v.Writes i s e v') : v'.Owned := by
  have hlive (j : ℕ) : v'.LiveInode j ↔ v.LiveInode j := hwrites.fileFrame.liveInode
  cases hwrites with
  | rejected => exact h
  | @written v₁ size hsteps hsize =>
    have hlive₁ (j : ℕ) : v₁.LiveInode j ↔ v.LiveInode j :=
      (fileFrame_of_mapSteps hsteps).1.liveInode
    have halong := h.along.steps hi hzeros hsteps
    refine halong.owned.congr (fun j hj => (hlive₁ j).2 ((hlive j).1 hj)) (fun j _ => ?_)
      (fun _ _ => rfl) rfl rfl
    by_cases hj : j = i
    · subst hj
      simp [modDi, iSdirty]
    · simp [modDi, iSdirty, hj]

end View

/-! ### Freeing blocks -/

/-- The superblocks differ at most in what is free. -/
def DSuper.SamePlaces (ds ds' : DSuper) : Prop :=
  ds' = { ds with inodeFree := ds'.inodeFree, blockFree := ds'.blockFree }

namespace DSuper.SamePlaces

variable {ds ds' ds'' : DSuper}

theorem refl : ds.SamePlaces ds := rfl

theorem trans (h : ds.SamePlaces ds') (h' : ds'.SamePlaces ds'') : ds.SamePlaces ds'' := by
  rw [SamePlaces] at h h' ⊢
  rw [h', h]

theorem area (h : ds.SamePlaces ds') : ds'.blockAreaStart = ds.blockAreaStart := by rw [h]

end DSuper.SamePlaces

/-- Only marks of `B` are taken away. -/
structure FreesOnly (B : ℕ → Prop) (sb sb' : Super) : Prop where
  test : ∀ m, ¬B m → sb'.bmap.test m = sb.bmap.test m
  hint : ¬B 0 → 0 < sb.bmap.allocation → 0 < sb'.bmap.allocation
  size : sb'.bmap.size = sb.bmap.size
  places : sb.ds.SamePlaces sb'.ds

namespace FreesOnly

variable {B : ℕ → Prop} {sb sb₁ sb' : Super}

theorem refl : FreesOnly B sb sb := ⟨fun _ _ => rfl, fun _ h => h, rfl, rfl⟩

theorem trans (h : FreesOnly B sb sb₁) (h' : FreesOnly B sb₁ sb') : FreesOnly B sb sb' where
  test m hm := (h'.test m hm).trans (h.test m hm)
  hint hB hpos := h'.hint hB (h.hint hB hpos)
  size := h'.size.trans h.size
  places := h.places.trans h'.places

theorem efsBmapFree {b : BitVec 32} (hb : B b.toNat) (h : efsBmapFree sb b.toInt = .ok sb') :
    FreesOnly B sb sb' := by
  rw [Fs.efsBmapFree] at h
  split at h
  · cases h
  · next hfree =>
    have hdrop := bitmapFree_of_isFree (not_not.1 hfree)
    rw [hdrop] at h
    obtain rfl := Except.ok.inj h
    refine ⟨fun m hm => ?_, fun hB hpos => ?_, rfl, rfl⟩
    · have hne : m ≠ b.toNat := by
        rintro rfl
        exact hm hb
      rw [Bitmap.test_drop, decide_eq_false hne]
      rfl
    · have hne : b.toNat ≠ 0 := by
        intro h₀
        exact hB (h₀ ▸ hb)
      rw [Bitmap.drop_allocation]
      omega

theorem efsIFreeAddrs {addr : ℕ → BitVec 32} {n k : ℕ}
    (hB : ∀ j < k + n, addr j ≠ 0 → B (addr j).toNat)
    (h : efsIFreeAddrs addr n k sb = .ok sb') : FreesOnly B sb sb' := by
  induction n generalizing k sb with
  | zero =>
    obtain rfl := Except.ok.inj h
    exact .refl
  | succ n ih =>
    rw [Fs.efsIFreeAddrs] at h
    split at h
    · obtain rfl := Except.ok.inj h
      exact .refl
    · next hne =>
      obtain ⟨sb₁, hfree, h⟩ := bind_eq_ok.1 h
      have hfirst := efsBmapFree (hB k (by omega) hne) hfree
      exact hfirst.trans (ih (fun j hj => hB j (by omega)) h)

end FreesOnly

namespace View

variable {v v' v₀ : View} {d i j k p pi : ℕ} {sb : Super}

theorem freesOnly_of_freesBlocks (h : FreesBlocks v i sb) :
    FreesOnly (fun m => ∃ s, v.slot i s ≠ 0 ∧ (v.slot i s).toNat = m) v.sb sb := by
  obtain ⟨sb₁, haddrs, hindir⟩ := h
  have h₁ : FreesOnly (fun m => ∃ s, v.slot i s ≠ 0 ∧ (v.slot i s).toNat = m) v.sb sb₁ :=
    .efsIFreeAddrs (fun j hj hne => ⟨.addr ⟨j, by omega⟩, hne, rfl⟩) haddrs
  refine h₁.trans ?_
  rw [efsIFreeIndir.eq_def] at hindir
  split at hindir
  · next blk hblk =>
    have hslot (j : Fin nIndirect) : v.slot i (.entry j) = blk j := by rw [slot, hblk]; rfl
    refine .efsIFreeAddrs (fun j hj hne => ⟨.entry ⟨j, by omega⟩, ?_, ?_⟩) hindir
    · rw [hslot]
      exact hne
    · rw [hslot]
  · obtain rfl := Except.ok.inj hindir
    exact .refl

/-- Marks of blocks that have no owner may be taken away. -/
theorem Owned.free {B : ℕ → Prop} (h : v.Owned) (hfree : FreesOnly B v.sb sb)
    (hB : ∀ m, B m → v.sb.ds.blockAreaStart.toNat ≤ m ∧ m ≠ 0)
    (hown : ∀ j s, v.LiveInode j → v.slot j s ≠ 0 → ¬B (v.slot j s).toNat) :
    { v with sb := sb }.Owned := by
  refine ⟨⟨fun j s hj hjs => ?_, fun j s hj hjs => ?_, h.unique,
    ⟨fun k hk hlt hle => ?_, ?_, ?_⟩⟩, h.loaded⟩
  · exact (hfree.test _ (hown j s hj hjs)).trans (h.marked j s hj hjs)
  · have := h.area j s hj hjs
    rw [← hfree.places.area] at this
    exact this
  · have hlt' : k < v.sb.ds.blockAreaStart.toNat := by
      rw [← hfree.places.area]
      exact hlt
    have hle' : (k : ℤ) ≤ v.sb.bmap.size := by
      rw [← hfree.size]
      exact hle
    exact (hfree.test k fun hBk => absurd (hB k hBk).1 (by omega)).trans
      (h.guarded.reserved k hk hlt' hle')
  · exact hfree.hint (fun h₀ => (hB 0 h₀).2 rfl) h.guarded.hint
  · have := h.guarded.bits
    rw [← hfree.size] at this
    exact this

/-! ### The calls keep the owners -/

theorem addrs_release {sb : Super} (j : ℕ) :
    (((v.release i sb).remove d p pi).di j).addrs = (v.di j).addrs := by
  rw [di_remove]
  exact modDi_congr (f := fun x => { x with nlink := x.nlink - 1, size := 0 }) DInode.addrs rfl j

/-- The inode `i` is given up, which no entry refers to any more. -/
theorem Owned.release (h : v.Owned) (hi : v.LiveInode i) (hfrees : FreesBlocks v i sb)
    (hlive : ∀ j, v'.LiveInode j → v.LiveInode j ∧ j ≠ i)
    (haddrs : ∀ j, (v'.di j).addrs = (v.di j).addrs) (hindir : v'.indir = v.indir)
    (hbmap : v'.sb.bmap = sb.bmap) (hds : sb.ds.SamePlaces v'.sb.ds) : v'.Owned := by
  have hkept : { v' with sb := v.sb }.Owned :=
    h.congr (fun j hj => (hlive j hj).1) (fun j _ => haddrs j) (fun j _ => congrFun hindir j) rfl
      rfl
  have hslot (j : ℕ) (s : Slot) : v'.slot j s = v.slot j s := by
    cases s with
    | addr k => exact congrFun (haddrs j) k
    | entry k => rw [slot, slot, hindir]
  have hfree : FreesOnly (fun m => ∃ s, v.slot i s ≠ 0 ∧ (v.slot i s).toNat = m)
      v.sb v'.sb := by
    have := freesOnly_of_freesBlocks hfrees
    exact ⟨fun m hm => hbmap ▸ this.test m hm, fun hB hpos => hbmap ▸ this.hint hB hpos,
      hbmap ▸ this.size, this.places.trans hds⟩
  refine hkept.free hfree ?_ ?_
  · rintro m ⟨s, hne, rfl⟩
    exact ⟨h.area i s hi hne, fun h₀ => hne (BitVec.eq_of_toNat_eq h₀)⟩
  · rintro j t hj hjt ⟨s, hne, heq⟩
    rw [show ({ v' with sb := v.sb } : View).slot j t = v.slot j t from hslot j t] at heq
    exact (hlive j hj).2 (h.unique i j s t hi (hlive j hj).1 hne (BitVec.eq_of_toNat_eq heq)).1.symm

theorem efsImapFree_bmap {sb sb' : Super} {no : ℤ} (h : efsImapFree sb no = .ok sb') :
    sb'.bmap = sb.bmap ∧ sb.ds.SamePlaces sb'.ds := by
  rw [efsImapFree] at h
  split at h
  · cases h
  · obtain rfl := Except.ok.inj h
    exact ⟨rfl, rfl⟩

theorem efsImapAlloc_bmap {sb sb' : Super} {no : ℤ} (h : efsImapAlloc sb = .ok (no, sb')) :
    sb'.bmap = sb.bmap ∧ sb.ds.SamePlaces sb'.ds := by
  rw [efsImapAlloc] at h
  dsimp only at h
  split at h
  · cases h
  · obtain ⟨-, rfl⟩ := ok_prod_inj h
    exact ⟨rfl, rfl⟩

theorem Owned.load {full : Bool} (h : v.Owned) : (v.load d i full).Owned :=
  h.congr (fun _ => same_load.liveInode) (fun _ _ => rfl) (fun _ _ => rfl) rfl rfl

theorem Owned.removes (h : v.Owned) (hs : v.Sane) (hd : (v.tree dirSize).Linked d)
    (hrem : v.Removes d v') : v'.Owned := by
  obtain rfl | ⟨i, full, hf, rfl | ⟨p, pi, sb, sb', hr, rfl⟩⟩ := hrem.cases hs hd
  · exact h
  · exact h.load
  · obtain ⟨hbmap, hds⟩ := efsImapFree_bmap hr.imap
    exact h.load.release hr.live hr.frees (fun _ hj => hr.liveInode.1 hj) addrs_release rfl hbmap
      hds

theorem Owned.renames (h : v.Owned) (hren : v.Renames d v') : v'.Owned := by
  have hsame := same_of_renames hren
  cases hren with
  | same => exact h
  | rename hf hp hd hname =>
    exact h.congr (fun _ => hsame.liveInode) (fun _ _ => rfl) (fun _ _ => rfl) rfl rfl

section Create

variable {type : FileType} {name : ℕ → BitVec 8}

theorem addrs_create (j : ℕ) : ((v.create p pi k sb type name).di j).addrs =
    if j = v.inodes then fun _ => 0 else (v.di j).addrs := by
  have hlast : ((v.create p pi k sb type name).di j).addrs = ((v.addInode k sb).di j).addrs := by
    rw [View.create, enter]
    refine (modDi_congr (f := fun x => { x with size := x.size + 24 }) DInode.addrs rfl j).trans ?_
    exact modDi_congr (v := v.addInode k sb) (f := fun x => { x with type := type }) DInode.addrs
      rfl j
  rw [hlast]
  by_cases hj : j = v.inodes
  · simp [addInode, hj]
  · simp [addInode, hj]

theorem indir_create (j : ℕ) : (v.create p pi k sb type name).indir j =
    if j = v.inodes then none else v.indir j := by
  by_cases hj : j = v.inodes
  · rw [if_pos hj, hj]
    exact Function.update_self ..
  · rw [if_neg hj]
    exact Function.update_of_ne hj ..

theorem slot_create (j : ℕ) (t : Slot) : (v.create p pi k sb type name).slot j t =
    if j = v.inodes then 0 else v.slot j t := by
  cases t with
  | addr k =>
    rw [slot, addrs_create]
    split <;> rfl
  | entry k =>
    rw [slot, indir_create]
    split <;> rfl

theorem Owned.create (h : v.Owned) (hc : v.Enters p pi k sb) :
    (v.create p pi k sb type name).Owned := by
  obtain ⟨hbmap, hds⟩ := efsImapAlloc_bmap hc.alloc
  refine ⟨h.toOwners.congr (fun j t hj hne => ?_) hbmap hds.area, fun j hj => ?_⟩
  · have hji : j ≠ v.inodes := fun hji => hne (by rw [slot_create, if_pos hji])
    exact ⟨(hc.liveInode.1 hj).resolve_right hji, by rw [slot_create, if_neg hji]⟩
  · rw [addrs_create, indir_create]
    by_cases hji : j = v.inodes
    · rw [if_pos hji, if_pos hji]
      exact iff_of_true rfl rfl
    · rw [if_neg hji, if_neg hji]
      exact h.loaded j ((hc.liveInode.1 hj).resolve_right hji)

end Create

theorem Owned.creates {type : FileType} (h : v.Owned) (hs : v.Sane)
    (hd : (v.tree dirSize).Linked d) (hcr : v.Creates d type v') : v'.Owned := by
  obtain rfl | ⟨pi, hf, rfl | ⟨k, sb, name, hc, rfl⟩⟩ := hcr.cases hs hd
  · exact h
  · exact h.load
  · exact h.load.create hc

/-! ### Runs -/

private theorem rootInode_addrs (k : ℕ) (hk : k < nDirect + 1) :
    rootInode.getD (36 + k) 0 = 0 := by
  revert k
  decide

section Mounted

variable {disk : Disk} {bpages ipages : ℕ → BitVec 64} {diskSize : ℕ}

variable (h : v.Mounted disk diskSize ipages bpages)

include h

/-- The root directory has no blocks after mount. -/
theorem Mounted.addrs_root {k : ℕ} (hk : k < nDirect + 1) : (v.di 0).addrs k = 0 := by
  rw [h.di]
  have hw : 36 + k < rootInode.length := by
    have : rootInode.length = 50 := rfl
    simp only [nDirect] at hk
    omega
  have haddr : inodeAreaStart diskSize * blockSize + 4 * 32 + 16 + 4 * k =
      inodeAreaStart diskSize * blockSize + 4 * (36 + k) := by omega
  change word32 _ (inodeAreaStart diskSize * blockSize + 4 * 32 + 16 + 4 * k) = 0
  rw [haddr, h.word32_root hw, ← List.getD_eq_getElem _ 0 hw]
  exact rootInode_addrs k hk

theorem Mounted.area_eq : v.sb.ds.blockAreaStart.toNat = blockAreaStart diskSize := by
  have hle := blockAreaStart_le h.fits
  rw [h.sb, mounted_ds, easySb, BitVec.toNat_ofNat, Nat.mod_eq_of_lt]
  omega

/-- The bitmap that `mkfs` writes guards the blocks before the block area. -/
theorem Mounted.guarded : v.sb.Guarded := by
  have hlt : blockAreaStart diskSize < blockSize :=
    (blockAreaStart_le h.fits).trans_lt (by decide)
  have hsize : v.sb.bmap.size = totalBlocks diskSize := by
    rw [h.sb, mounted_bmap, bitmapResetUnused_size, (bitmapResetAllo_cases _ 1).1,
      rawBmap_size, toInt_blockCount_of_fits h.fits]
  refine ⟨fun k hk hka hle => ?_, ?_, ?_⟩
  · rw [h.area_eq] at hka
    rw [hsize] at hle
    have hbs : blockSize = 4096 := rfl
    have hmap : 0 < dataMapBlocks diskSize := by
      simp only [dataMapBlocks, ceilDiv, blockSize]
      omega
    have hmarked : (rawBmap disk bpages diskSize).test k = true := by
      rw [test_rawBmap_first hlt hmap (by omega), decide_eq_true_iff, markedEnd]
      split <;> omega
    obtain ⟨-, htest⟩ := @test_bitmapResetAllo _ 1 k (.inr hmarked)
    rw [h.sb, mounted_bmap, test_bitmapResetUnused, htest, hmarked]
  · rw [h.sb, mounted_bmap, bitmapResetUnused_allocation]
    exact (bitmapResetAllo_cases _ 1).2.1
  · have := h.fits.2
    rw [hsize]
    omega

theorem Mounted.owned : v.Owned := by
  have hslot (i : ℕ) (s : Slot) (hi : v.LiveInode i) : v.slot i s = 0 := by
    obtain rfl := h.liveInode hi
    cases s with
    | addr k => exact h.addrs_root k.isLt
    | entry k => rw [slot, h.indir, Option.elim_none]
  refine ⟨⟨fun i s hi hne => absurd (hslot i s hi) hne,
    fun i s hi hne => absurd (hslot i s hi) hne,
    fun i j s t hi _ hne => absurd (hslot i s hi) hne, h.guarded⟩, fun i hi => ?_⟩
  obtain rfl := h.liveInode hi
  exact iff_of_true (h.addrs_root (Nat.lt_succ_self _)) h.indir

end Mounted

end View

/-- If a call of `efs_i_write` takes a block for the indirect block, the block holds zeros. -/
def Efs.TakesZeros (st : Efs) (i : ℕ) (offset len : BitVec 32) : Prop :=
  ¬Rejected st i offset len →
    st.view.TakesZeros i (offset.toNat / blockSize) (offset.toNat + len.toNat)

/-- No write goes to a directory but those of `efs_d_update`, and a block that becomes an indirect
block holds zeros. -/
def BlocksOk (st : Efs) : FsEvent → Prop
  | .write d offset len _ => (st.dentry d).dd.type ≠ .fDir ∧
    ∀ i, hashFindInode st (st.dentry d).dd.ino = some i → st.TakesZeros i offset len
  | .sync pad => ∀ st', efsSyncInodes pad (efsSyncSuper st).idirty (efsSyncSuper st) = .ok st' →
    DentriesMeet Efs.TakesZeros st'.ddirty st'
  | _ => True

theorem BlocksOk.filesOnly {st : Efs} {ev : FsEvent} (h : BlocksOk st ev) : FilesOnly st ev := by
  cases ev with
  | write d offset len vaddr => exact h.1
  | _ => trivial

/-- A write to the direct blocks takes no indirect block. -/
theorem takesZeros_of_le {st : Efs} {i : ℕ} {offset len : BitVec 32}
    (h : offset.toNat + len.toNat ≤ nDirect * blockSize) : st.TakesZeros i offset len :=
  fun _ hlt => absurd hlt (Nat.not_lt.2 h)

theorem updateMeets_of_le {st : Efs} {i offset : ℕ} {ds : List ℕ}
    (h : offset + ds.length * direntSize ≤ nDirect * blockSize) :
    UpdateMeets Efs.TakesZeros i ds offset st := by
  induction ds generalizing st offset with
  | nil => trivial
  | cons d ds ih =>
    rw [List.length_cons, Nat.add_mul, Nat.one_mul] at h
    refine ⟨takesZeros_of_le ?_, fun r st' _ => ih (by omega)⟩
    have hoffset := Nat.mod_le offset (2 ^ 32)
    have hsize : (BitVec.ofNat 32 direntSize).toNat = direntSize := rfl
    rw [hsize, BitVec.toNat_ofNat]
    omega

theorem dentriesMeet_of_le {st : Efs} {l : List ℕ} (hs : st.view.Sane) (hl : st.ddirty = l)
    (h : ∀ d ∈ l, (st.dentry d).child.length * direntSize ≤ nDirect * blockSize) :
    DentriesMeet Efs.TakesZeros l st := by
  induction l generalizing st with
  | nil => trivial
  | cons d l ih =>
    refine ⟨fun i _ => updateMeets_of_le ?_, fun st' hupdate => ?_⟩
    · rw [Nat.zero_add]
      exact h d List.mem_cons_self
    · obtain ⟨hs', hround, hl'⟩ := hs.efsDUpdate hl hupdate
      have hstep : View.DentryStep st.view st'.view := .mk hl hupdate
      have hentry : (efsDCdirty st' d).view.entry = st.view.entry := by
        rw [hround]
        obtain ⟨d', l', -, ⟨-, hv⟩ | ⟨i, -, -, -, -, -, hwrites⟩⟩ := hstep.cases hs
        · rw [hv]
        · exact (fileFrame_of_writes hwrites).entry
      refine ih (hround ▸ hs') hl' fun e he => ?_
      change ((efsDCdirty st' d).view.entry e).child.length * direntSize ≤ nDirect * blockSize
      rw [hentry]
      exact h e (List.mem_cons_of_mem _ he)

theorem dentries_of_inodeSteps {v v' : View} (h : ReflTransGen View.InodeStep v v') :
    v'.ddirty = v.ddirty ∧ v'.entry = v.entry := by
  induction h with
  | refl => exact ⟨rfl, rfl⟩
  | tail _ hstep ih =>
    cases hstep with
    | mk hlist hno => exact ih

/-- A pass meets the condition if no directory on the list has more than 2048 entries. -/
theorem blocksOk_sync_of_le {st : Efs} {pad : ℕ → BitVec 16} (hs : st.view.Sane)
    (h : ∀ d ∈ st.ddirty, (st.dentry d).child.length * direntSize ≤ nDirect * blockSize) :
    BlocksOk st (.sync pad) := by
  intro st₁ hinodes
  obtain ⟨hsteps, -, hs₁⟩ := hs.syncInodes hinodes
  obtain ⟨hddirty, hentry⟩ := dentries_of_inodeSteps hsteps
  rw [view_efsSyncSuper] at hddirty hentry
  refine dentriesMeet_of_le hs₁ rfl fun d hd => ?_
  change d ∈ st₁.view.ddirty at hd
  change (st₁.view.entry d).child.length * direntSize ≤ nDirect * blockSize
  rw [hddirty] at hd
  rw [hentry]
  exact h d hd

/-- The owners of the blocks are kept by every write that takes a block with zeros. -/
theorem keptByWrites_owned : KeptByWrites Efs.TakesZeros View.Owned := by
  intro st st' i offset len vaddr r howned hi hzeros h
  by_cases hrej : Rejected st i offset len
  · rw [eq_of_rejected hrej h]
    exact howned
  · exact howned.writes hi (hzeros hrej) (writes_efsIWrite h)

theorem View.Owned.inodeSteps {v v' : View} (h : v.Owned) (hsteps : ReflTransGen InodeStep v v') :
    v'.Owned := by
  induction hsteps with
  | refl => exact h
  | tail _ hstep ih =>
    cases hstep with
    | mk hlist hno => exact ih.congr (fun _ hj => hj) (fun _ _ => rfl) (fun _ _ => rfl) rfl rfl

theorem View.Owned.setDdirty {v : View} {l : List ℕ} (h : v.Owned) :
    { v with ddirty := l }.Owned :=
  ⟨h.toOwners, h.loaded⟩

theorem View.Owned.syncSuper {st : Efs} (h : st.view.Owned) : (efsSyncSuper st).view.Owned := by
  rw [view_efsSyncSuper]
  exact h.congr (fun _ hj => hj) (fun _ _ => rfl) (fun _ _ => rfl) rfl rfl

theorem View.Owned.step {st st' : Efs} {ev : FsEvent} (h : st.view.Owned) (hs : st.view.Sane)
    (hok : BlocksOk st ev) (hstep : FsStep st ev st') : st'.view.Owned := by
  cases ev with
  | creat pd name type =>
    obtain ⟨hlive, r, hstep⟩ := hstep
    have hd := hlive.linked_view hs.tree
    exact h.creates hs hd (creates_efsDCreat hs.tree hs.seesDirs hd hstep)
  | write d offset len vaddr =>
    obtain ⟨hlive, i, r, hf, hstep⟩ := hstep
    have hi : st.view.LiveInode i := ⟨d, hlive.linked_view hs.tree, hf⟩
    exact keptByWrites_owned st st' i offset len vaddr r h hi (hok.2 i hf) hstep
  | unlink d =>
    have hd := hstep.1.linked_view hs.tree
    exact h.removes hs hd (removes_efsDUnlink hs.tree hs.seesDirs hd hstep.2)
  | rename d name =>
    exact h.renames (renames_efsDRename hs.tree (hstep.1.linked_view hs.tree) hstep.2)
  | sync pad =>
    obtain ⟨st₁, hinodes, hdentries⟩ := bind_eq_ok.1 hstep
    obtain ⟨hsteps, -, hs₁⟩ := hs.syncInodes hinodes
    exact keptByWrites_owned.efsSyncDentries (fun _ _ hv => hv.setDdirty) hs₁ rfl
      (hok st₁ hinodes) (h.syncSuper.inodeSteps hsteps) hdentries

/-- The blocks in the slots are those that the invariant is about. -/
theorem View.Owned.blocksOwned {st : Efs} (h : st.view.Owned) (hs : st.view.Sane) :
    BlocksOwned st := by
  have hlive (i : ℕ) (hi : st.LiveInode i) : st.view.LiveInode i := by
    obtain ⟨d, hd, hf⟩ := hi
    exact ⟨d, hd.linked_view hs.tree, hf⟩
  have hslot (i : ℕ) (s : Slot) (hi : st.LiveInode i) :
      (st.inode i).slot st.disk s = st.view.slot i s := by
    cases s with
    | addr k => rfl
    | entry k =>
      have hloaded : (st.inode i).di.addrs nDirect = 0 ↔ (st.inode i).indir = none :=
        h.loaded i (hlive i hi)
      change (if _ then _ else _) = ((st.inode i).indir.elim 0 (· k))
      rw [MInode.page.eq_def]
      cases hindir : (st.inode i).indir with
      | none => rw [if_pos (hloaded.2 hindir), Option.elim_none]
      | some blk =>
        rw [if_neg fun h₀ => by rw [hloaded.1 h₀] at hindir; cases hindir]
        rfl
  have howners : Owners st.LiveInode (fun i => (st.inode i).slot st.disk) st.sb :=
    h.toOwners.congr (fun j t hj _ => ⟨hlive j hj, hslot j t hj⟩) rfl rfl
  exact ⟨howners.marked, howners.area, howners.unique⟩

/-- In every state of a run from a blank disk, the blocks of live inodes are marked, lie in the
block area and have one owner, if the blocks that become indirect blocks hold zeros. -/
theorem blocksOwned_of_reachable {st : Efs}
    (h : Reachable Efs.FreshBlank (guarded BlocksOk FsStep) st) : BlocksOwned st := by
  have hinv : st.view.Sane ∧ st.view.Owned := by
    refine h.invariant (P := fun st => st.view.Sane ∧ st.view.Owned) ?_ ?_
    · intro st hfresh
      obtain ⟨diskSize, ipages, bpages, hmounted⟩ := Efs.FreshOn.mounted hfresh
      exact ⟨hmounted.sane, hmounted.owned⟩
    · rintro st ev st' ⟨hs, howned⟩ ⟨hok, hstep⟩
      exact ⟨hs.step hok.filesOnly hstep, howned.step hs hok hstep⟩
  exact hinv.2.blocksOwned hinv.1

/-- Three bytes are written to the entry 1. -/
private def writeThree : FsEvent := .write 1 0 3 fun _ => 7

/-- The file `a` is created on a disk of 400 blocks, three bytes are written to it, and a pass
writes the directory. Afterwards the root directory and the file have a block each. -/
theorem blocksOwned_creat_write_sync : ∃ st,
    Reachable Efs.FreshBlank (guarded BlocksOk FsStep) st ∧ st.LiveInode 0 ∧ st.LiveInode 1 ∧
      (st.inode 0).slot st.disk (.addr 0) ≠ 0 ∧ (st.inode 1).slot st.disk (.addr 0) ≠ 0 ∧
        BlocksOwned st := by
  have hends : endsWith (fsRun [.creat 0 (cstr [97]) .fReg]) (fun st₁ =>
      (st₁.dentry 1).dd.type = .fReg ∧ (writeThree.exec st₁).toOption.map (fun st₂ =>
        decide (st₂.ddirty = [0] ∧ (st₂.dentry 0).child = [1] ∧
          (efsSync st₂ fun _ => 0).toOption.map (fun st => decide ((st.dentry 0).child = [1] ∧
            hashFindInode st (st.dentry 0).dd.ino = some 0 ∧
            hashFindInode st (st.dentry 1).dd.ino = some 1 ∧
            (st.inode 0).slot st.disk (.addr 0) ≠ 0 ∧
            (st.inode 1).slot st.disk (.addr 0) ≠ 0)) = some true)) = some true) = true := by
    decide +kernel
  obtain ⟨st₀, st₁, hfresh, hrun, hend⟩ := exists_of_endsWith hends
  obtain ⟨htype, hend⟩ := of_decide_eq_true hend
  obtain ⟨st₂, hwrite, hend⟩ := exists_of_map_toOption hend
  obtain ⟨hddirty, hchild, hend⟩ := of_decide_eq_true hend
  obtain ⟨st, hsync, hend⟩ := exists_of_map_toOption hend
  obtain ⟨hchild', hroot, hfile, hslot₀, hslot₁⟩ := of_decide_eq_true hend
  obtain ⟨st₁, hcreat, hst⟩ := bind_eq_ok.1 hrun
  obtain rfl := Except.ok.inj hst
  obtain ⟨diskSize, ipages, bpages, hmounted⟩ := Efs.FreshOn.mounted hfresh
  have hok₀ : BlocksOk st₀ (.creat 0 (cstr [97]) .fReg) := trivial
  have hok₁ : BlocksOk st₁ writeThree :=
    ⟨by rw [htype]; decide, fun i _ => takesZeros_of_le (by decide)⟩
  have hs₁ := hmounted.sane.step hok₀.filesOnly (fsStep_exec hcreat)
  have hs₂ := hs₁.step hok₁.filesOnly (fsStep_exec hwrite)
  have hok₂ : BlocksOk st₂ (.sync fun _ => 0) := by
    refine blocksOk_sync_of_le hs₂ fun d hd => ?_
    rw [hddirty] at hd
    rw [List.mem_singleton.1 hd, hchild]
    decide
  have hreach : Reachable Efs.FreshBlank (guarded BlocksOk FsStep) st :=
    (((Reachable.start hfresh).next ⟨hok₀, fsStep_exec hcreat⟩).next
      ⟨hok₁, fsStep_exec hwrite⟩).next ⟨hok₂, hsync⟩
  have hlive : Live st 1 := .child .root (by rw [hchild']; exact List.mem_cons_self)
  exact ⟨st, hreach, ⟨0, .root, hroot⟩, ⟨1, hlive, hfile⟩, hslot₀, hslot₁,
    blocksOwned_of_reachable hreach⟩

/-- The block of the file `a`, with a byte 1, becomes the indirect block of the file `b`. -/
def staleRun : List FsEvent :=
  [.creat 0 (cstr [97]) .fReg, .creat 0 (cstr [98]) .fReg, .write 1 0 1 fun _ => 1] ++
    (List.range 12).map (fun k => .write 2 (BitVec.ofNat 32 (4096 * k)) 4096 fun _ => 0) ++
    [.unlink 1, .write 2 (12 * 4096) 1 fun _ => 0]

/-- The first entry of the indirect block is the superblock. -/
theorem exists_block_not_owned :
    ∃ st, Reachable Efs.FreshBlank FsStep st ∧ ¬BlocksOwned st := by
  have hends : endsWith (fsRun staleRun) (fun st => 2 ∈ (st.dentry 0).child ∧
      hashFindInode st (st.dentry 2).dd.ino = some 2 ∧
        (st.inode 2).slot st.disk (.entry ⟨0, by decide⟩) = 1 ∧ st.sb.ds.blockAreaStart = 5) =
      true := by decide +kernel
  obtain ⟨st₀, st, hfresh, hrun, hend⟩ := exists_of_endsWith hends
  obtain ⟨hchild, hfind, hslot, harea⟩ := of_decide_eq_true hend
  refine ⟨st, reachable_fsRun hrun (.start hfresh), fun h => ?_⟩
  have hlive : st.LiveInode 2 := ⟨2, .child .root hchild, hfind⟩
  have hle := h.area 2 (.entry ⟨0, by decide⟩) hlive (by rw [hslot]; decide)
  rw [hslot, harea] at hle
  exact absurd hle (by decide)

end RiscvLab.Fs
