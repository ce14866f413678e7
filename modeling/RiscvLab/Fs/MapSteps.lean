import Mathlib.Logic.Relation
import RiscvLab.Fs.BlockOwner
import RiscvLab.Fs.View

/-!
# The changes that a write consists of

`efs_i_write` changes the file system in small steps: it takes a block for a direct address, for the
indirect block or for an entry of the indirect block, it reads the indirect block, or it writes
bytes to a block of the file. An invariant that these steps keep is kept by every call
(`writes_efsIWrite`), whatever the file looks like.

A block that is taken for the indirect block is not cleared: the entries are what the disk has
there.

## Main definitions

* `View.MapStep` : a step of a write to the file of an inode.
* `View.Rounds` : the loop of `efs_i_write`.
* `View.Writes` : what a call of `efs_i_write` does.

Source: `fs/easyfs/inode.c`, lines 119–172 and 258–286.
-/

namespace RiscvLab.Fs

open Library Relation

namespace View

/-- The words of the block `b` on the disk. -/
def diskPage (v : View) (b : BitVec 32) (k : ℕ) : BitVec 32 :=
  word32 v.disk (b.toNat * blockSize + 4 * k)

/-- The address `i_addrs[k]` is set. -/
def setAddr (v : View) (i k : ℕ) (b : BitVec 32) : View :=
  v.modDi i fun x => { x with addrs := Function.update x.addrs k b }

/-- The indirect block in memory is set. -/
def setIndir (v : View) (i : ℕ) (blk : ℕ → BitVec 32) : View :=
  { v with indir := Function.update v.indir i (some blk) }

/-- The block `b` is one of the file of the inode `i`; an indirect block is in memory. -/
def Maps (v : View) (i : ℕ) (b : BitVec 32) : Prop :=
  (∃ k < nDirect, (v.di i).addrs k = b) ∨ ∃ blk, v.indir i = some blk ∧ ∃ k < nIndirect, blk k = b

/-- The block of the disk for the block `l` of the file, when the indirect block is in memory. -/
def block (v : View) (i l : ℕ) : BitVec 32 :=
  if l < nDirect then (v.di i).addrs l
  else if l < nDirect + nIndirect then (v.indir i).elim 0 (· (l - nDirect))
  else 0

/-- The block that would be taken next has the number zero. -/
def HandsZero (v : View) : Prop :=
  ∃ no sb, efsBmapAlloc v.sb = .ok (no, sb) ∧ BitVec.ofInt 32 no = 0

/-- A step of a write to the file of the inode `i` from the block `s` on, which ends at the offset
`e`. The blocks are taken in order. -/
inductive MapStep (i s e : ℕ) : View → View → Prop
  | direct {v : View} {k : ℕ} {no : ℤ} {sb : Super} (hs : s ≤ k) (hk : k < nDirect)
    (hzero : (v.di i).addrs k = 0) (halloc : efsBmapAlloc v.sb = .ok (no, sb)) :
    MapStep i s e v { v.setAddr i k (BitVec.ofInt 32 no) with sb := sb }
  | indirect {v : View} {no : ℤ} {sb : Super} (he : nDirect * blockSize < e)
    (hfull : ∀ k < nDirect, s ≤ k → (v.di i).addrs k ≠ 0) (hzero : (v.di i).addrs nDirect = 0)
    (halloc : efsBmapAlloc v.sb = .ok (no, sb)) :
    MapStep i s e v { (v.setAddr i nDirect (BitVec.ofInt 32 no)).setIndir i
      ((v.indir i).getD (v.diskPage (BitVec.ofInt 32 no))) with sb := sb }
  | load {v : View} (haddr : (v.di i).addrs nDirect ≠ 0) (hindir : v.indir i = none) :
    MapStep i s e v (v.setIndir i (v.diskPage ((v.di i).addrs nDirect)))
  | page {v : View} {blk : ℕ → BitVec 32} {k : ℕ} {no : ℤ} {sb : Super} (hk : k < nIndirect)
    (hindir : v.indir i = some blk) (hzero : blk k = 0)
    (halloc : efsBmapAlloc v.sb = .ok (no, sb)) :
    MapStep i s e v { v.setIndir i (Function.update blk k (BitVec.ofInt 32 no)) with sb := sb }
  | data {v : View} {b : BitVec 32} {off : ℕ} {src : List (BitVec 8)} (hb : b ≠ 0)
    (hmaps : v.Maps i b) (hoff : off + src.length ≤ blockSize) :
    MapStep i s e v { v with disk := patch v.disk (b.toNat * blockSize + off) src }

/-- The rounds of the loop of `efs_i_write`, with the bytes `src` to write at the offset `o`. A
round writes a part of them to a block; the loop stops if there is none. -/
inductive Rounds (i s e : ℕ) : ℕ → List (BitVec 8) → View → View → Prop
  | done {o : ℕ} {v : View} : Rounds i s e o [] v v
  | stop {o : ℕ} {src : List (BitVec 8)} {v v₁ v' : View} (h : ReflTransGen (MapStep i s e) v v')
    (h₁ : ReflTransGen (MapStep i s e) v v₁) (hzero : v₁.HandsZero) : Rounds i s e o src v v'
  | round {o : ℕ} {part rest : List (BitVec 8)} {v v₁ v' : View}
    (h : ReflTransGen (MapStep i s e) v v₁) (hdisk : v₁.disk = v.disk)
    (hne : v₁.block i (o / blockSize) ≠ 0) (hlen : o % blockSize + part.length ≤ blockSize)
    (hrest : Rounds i s e (o + part.length) rest
      { v₁ with
        disk := patch v₁.disk
          ((v₁.block i (o / blockSize)).toNat * blockSize + o % blockSize) part } v') :
    Rounds i s e o (part ++ rest) v v'

/-- What a call of `efs_i_write` does to the file of the inode `i`, from the block `s` on and up to
the offset `e`. -/
inductive Writes (v : View) (i s e : ℕ) : View → Prop
  | rejected : Writes v i s e v
  | written {v₁ : View} {size : BitVec 32} (h : ReflTransGen (MapStep i s e) v v₁)
    (hsize : e ≤ (v.di i).size.toNat → size = (v.di i).size) :
    Writes v i s e ((v₁.modDi i fun x => { x with size := size }).iSdirty i)

end View

variable {st st' : Efs} {i l s e : ℕ} {b : BitVec 32}

theorem View.size_setAddr {v : View} {k : ℕ} (j : ℕ) :
    ((v.setAddr i k b).di j).size = (v.di j).size := by
  by_cases hj : j = i
  · subst hj
    simp [setAddr, modDi]
  · simp [setAddr, modDi, hj]

theorem efsBmapAlloc_imap {sb sb' : Super} {no : ℤ} (h : efsBmapAlloc sb = .ok (no, sb')) :
    sb'.imap = sb.imap := by
  rw [efsBmapAlloc] at h
  dsimp only at h
  split at h
  · cases h
  · obtain ⟨-, rfl⟩ := ok_prod_inj h
    rfl

/-! ### What a write leaves alone -/

/-- A write to the file of the inode `i` leaves the directories and the other inodes alone. -/
structure View.FileFrame (i : ℕ) (v v' : View) : Prop where
  dentries : v'.dentries = v.dentries
  entry : v'.entry = v.entry
  ddirty : v'.ddirty = v.ddirty
  inodes : v'.inodes = v.inodes
  ihash : v'.ihash = v.ihash
  imap : v'.sb.imap = v.sb.imap
  ds : v'.sb.ds = { v.sb.ds with blockFree := v'.sb.ds.blockFree }
  size : v'.sb.bmap.size = v.sb.bmap.size
  no : ∀ j, (v'.di j).no = (v.di j).no
  type : ∀ j, (v'.di j).type = (v.di j).type
  nlink : ∀ j, (v'.di j).nlink = (v.di j).nlink
  other : ∀ j ≠ i, v'.di j = v.di j ∧ v'.indir j = v.indir j

namespace View.FileFrame

variable {v v' v₁ : View}

theorem refl : FileFrame i v v :=
  ⟨rfl, rfl, rfl, rfl, rfl, rfl, rfl, rfl, fun _ => rfl, fun _ => rfl, fun _ => rfl,
    fun _ _ => ⟨rfl, rfl⟩⟩

theorem trans (h : FileFrame i v v₁) (h' : FileFrame i v₁ v') : FileFrame i v v' where
  dentries := h'.dentries.trans h.dentries
  entry := h'.entry.trans h.entry
  ddirty := h'.ddirty.trans h.ddirty
  inodes := h'.inodes.trans h.inodes
  ihash := h'.ihash.trans h.ihash
  imap := h'.imap.trans h.imap
  ds := by rw [h'.ds, h.ds]
  size := h'.size.trans h.size
  no j := (h'.no j).trans (h.no j)
  type j := (h'.type j).trans (h.type j)
  nlink j := (h'.nlink j).trans (h.nlink j)
  other j hj :=
    ⟨(h'.other j hj).1.trans (h.other j hj).1, (h'.other j hj).2.trans (h.other j hj).2⟩

theorem modDi {f : DInode → DInode} (hno : (f (v.di i)).no = (v.di i).no)
    (htype : (f (v.di i)).type = (v.di i).type) (hnlink : (f (v.di i)).nlink = (v.di i).nlink) :
    FileFrame i v (v.modDi i f) :=
  { refl (i := i) (v := v) with
    no := modDi_congr DInode.no hno
    type := modDi_congr DInode.type htype
    nlink := modDi_congr DInode.nlink hnlink
    other := fun _ hj => ⟨Function.update_of_ne hj .., rfl⟩ }

theorem setIndir {blk : ℕ → BitVec 32} : FileFrame i v (v.setIndir i blk) :=
  { refl (i := i) (v := v) with other := fun _ hj => ⟨rfl, Function.update_of_ne hj ..⟩ }

theorem alloc {no : ℤ} {sb : Super} (h : FileFrame i v v')
    (halloc : efsBmapAlloc v.sb = .ok (no, sb)) : FileFrame i v { v' with sb := sb } := by
  obtain ⟨k, -, -, -, hgrab, -, hds⟩ := efsBmapAlloc_ok halloc
  refine { h with imap := efsBmapAlloc_imap halloc, ds := hds, size := ?_ }
  rw [hgrab, Bitmap.grab_size]

end View.FileFrame

theorem View.MapStep.fileFrame {v v' : View} (h : MapStep i s e v v') : FileFrame i v v' := by
  cases h with
  | direct hs hk hzero halloc => exact (FileFrame.modDi rfl rfl rfl).alloc halloc
  | indirect he hfull hzero halloc =>
    exact ((FileFrame.modDi rfl rfl rfl).trans .setIndir).alloc halloc
  | load haddr hindir => exact .setIndir
  | page hk hindir hzero halloc => exact FileFrame.setIndir.alloc halloc
  | data hb hmaps hoff => exact { FileFrame.refl (i := i) (v := v) with }

theorem View.MapStep.idirty {v v' : View} (h : MapStep i s e v v') : v'.idirty = v.idirty := by
  cases h <;> rfl

theorem fileFrame_of_mapSteps {v v' : View} (h : ReflTransGen (View.MapStep i s e) v v') :
    View.FileFrame i v v' ∧ v'.idirty = v.idirty := by
  induction h with
  | refl => exact ⟨.refl, rfl⟩
  | tail _ hstep ih => exact ⟨ih.1.trans hstep.fileFrame, hstep.idirty.trans ih.2⟩

theorem View.Writes.fileFrame {v v' : View} (h : v.Writes i s e v') : FileFrame i v v' := by
  cases h with
  | rejected => exact .refl
  | @written v₁ size hsteps hsize =>
    have hmod : FileFrame i v₁ (v₁.modDi i fun x => { x with size := size }) :=
      .modDi rfl rfl rfl
    exact (fileFrame_of_mapSteps hsteps).1.trans { hmod with }

/-! ### Finding a block -/

theorem view_modIndir {blk : ℕ → BitVec 32} :
    (st.modInode i fun x => { x with indir := some blk }).view = st.view.setIndir i blk := by
  simp only [Efs.view, Efs.modInode, View.setIndir, View.mk.injEq, true_and, and_true]
  constructor <;> funext j <;> by_cases hj : j = i
  · subst hj
    simp
  · simp [hj]
  · subst hj
    simp
  · simp [hj]

/-- `i_addrs[k]`, with a block that is taken if there is none. -/
theorem efsIAddr_cases {k : ℕ} (h : efsIAddr st i k true = .ok (b, st')) :
    b = (st.inode i).di.addrs k ∧ b ≠ 0 ∧ st' = st ∨
    (st.inode i).di.addrs k = 0 ∧ ∃ no sb, efsBmapAlloc st.sb = .ok (no, sb) ∧
      b = BitVec.ofInt 32 no ∧ (st'.inode i).indir = (st.inode i).indir ∧
        st'.view = { st.view.setAddr i k b with sb := sb } := by
  rw [efsIAddr] at h
  dsimp only at h
  split at h
  · next hk =>
    obtain ⟨rfl, rfl⟩ := ok_prod_inj h
    exact .inl ⟨rfl, hk.resolve_right (by decide), rfl⟩
  · next hk =>
    obtain ⟨⟨no, sb⟩, halloc, h⟩ := bind_eq_ok.1 h
    obtain ⟨rfl, rfl⟩ := ok_prod_inj h
    refine .inr ⟨not_not.1 fun hne => hk (.inl hne), no, sb, halloc, rfl, ?_, ?_⟩
    · rw [Efs.modDi, Efs.modInode_inode_self]
    · rw [view_modDi]
      rfl

/-- The indirect block in memory, which is read if it is not. -/
theorem view_efsILoadIndir (b : BitVec 32) :
    (efsILoadIndir st i b).1 = ((st.inode i).indir.getD (st.view.diskPage b)) ∧
      (efsILoadIndir st i b).2.view =
        st.view.setIndir i ((st.inode i).indir.getD (st.view.diskPage b)) := by
  rw [efsILoadIndir]
  split
  · next blk hblk =>
    rw [hblk]
    refine ⟨rfl, ?_⟩
    have hself : Function.update st.view.indir i (some blk) = st.view.indir :=
      Function.update_eq_self_iff.2 hblk.symm
    rw [View.setIndir, Option.getD_some, hself]
  · next hnone =>
    rw [hnone]
    exact ⟨rfl, view_modIndir⟩

/-- An indirect block that is in memory is set to what it is. -/
theorem View.setIndir_eq_self {v : View} {blk : ℕ → BitVec 32} (h : v.indir i = some blk) :
    v.setIndir i blk = v := by
  rw [setIndir, Function.update_eq_self_iff.2 h.symm]

theorem mapSteps_load {v : View} (haddr : (v.di i).addrs nDirect ≠ 0) :
    ReflTransGen (View.MapStep i s e) v
      (v.setIndir i ((v.indir i).getD (v.diskPage ((v.di i).addrs nDirect)))) := by
  cases hindir : v.indir i with
  | some blk =>
    rw [Option.getD_some, View.setIndir_eq_self hindir]
  | none => exact .single (.load haddr hindir)

/-- The last part of `efs_i_bmap`, when the indirect block is in memory. -/
theorem mapSteps_page {k : ℕ} {blk : ℕ → BitVec 32} (hk : k < nIndirect)
    (hindir : st.view.indir i = some blk)
    (h : (if blk k ≠ 0 ∨ true = false then .ok (blk k, st)
      else do
        let (no, sb) ← efsBmapAlloc st.sb
        let bno := BitVec.ofInt 32 no
        .ok (bno, { st with sb := sb }.modInode i fun x =>
          { x with indir := some (Function.update blk k bno) })) = Except.ok (b, st')) :
    ReflTransGen (View.MapStep i s e) st.view st'.view ∧ st'.disk = st.disk ∧
      st'.view.block i (nDirect + k) = b ∧ (b = 0 → st.view.HandsZero) := by
  have hblock {v : View} {blk' : ℕ → BitVec 32} (hv : v.indir i = some blk') :
      v.block i (nDirect + k) = blk' k := by
    rw [View.block, if_neg (by omega), if_pos (by omega), hv, Nat.add_sub_cancel_left]
    rfl
  split at h
  · next hne =>
    obtain ⟨rfl, rfl⟩ := ok_prod_inj h
    exact ⟨.refl, rfl, hblock hindir, fun hzero => absurd hzero (hne.resolve_right (by decide))⟩
  · next hzero =>
    obtain ⟨⟨no, sb⟩, halloc, h⟩ := bind_eq_ok.1 h
    obtain ⟨rfl, rfl⟩ := ok_prod_inj h
    rw [view_modIndir]
    have hstep : View.MapStep i s e st.view _ :=
      .page hk hindir (not_not.1 fun hne => hzero (.inl hne)) halloc
    refine ⟨.single hstep, rfl, ?_, fun hno => ⟨no, sb, halloc, hno⟩⟩
    exact (hblock (Function.update_self ..)).trans (Function.update_self ..)

/-- A direct address that is set stays as it is. -/
theorem View.MapStep.addr {v v' : View} {k : ℕ} (h : MapStep i s e v v') (hk : k < nDirect)
    (hne : (v.di i).addrs k ≠ 0) : (v'.di i).addrs k = (v.di i).addrs k := by
  cases h with
  | @direct j no sb hs hj hzero halloc =>
    have hkj : k ≠ j := by
      rintro rfl
      exact hne hzero
    simp [setAddr, modDi, hkj]
  | indirect he hfull hzero halloc => simp [setAddr, setIndir, modDi, hk.ne]
  | load haddr hindir => rfl
  | page hk' hindir hzero halloc => rfl
  | data hb hmaps hoff => rfl

theorem addr_of_mapSteps {v v' : View} {k : ℕ} (h : ReflTransGen (View.MapStep i s e) v v')
    (hk : k < nDirect) (hne : (v.di i).addrs k ≠ 0) : (v'.di i).addrs k = (v.di i).addrs k := by
  induction h with
  | refl => rfl
  | tail _ hstep ih =>
    rw [← ih]
    exact hstep.addr hk (by rwa [ih])

/-- `efs_i_bmap` for a block of the file before the offset `e`, when the direct addresses before it
are set. -/
theorem mapSteps_efsIBmap (hl : l < nDirect + nIndirect) (hs : s ≤ l) (he : l * blockSize < e)
    (hfull : ∀ k < nDirect, s ≤ k → k < l → (st.view.di i).addrs k ≠ 0)
    (h : efsIBmap st i l true = .ok (b, st')) :
    ReflTransGen (View.MapStep i s e) st.view st'.view ∧ st'.disk = st.disk ∧
      st'.view.block i l = b ∧
        (b = 0 → ∃ v₁, ReflTransGen (View.MapStep i s e) st.view v₁ ∧ v₁.HandsZero) := by
  rw [efsIBmap] at h
  split at h
  · next hd =>
    have hblock (v : View) : v.block i l = (v.di i).addrs l := if_pos hd
    rcases efsIAddr_cases h with ⟨rfl, hne, rfl⟩ | ⟨hzero, no, sb, halloc, rfl, -, hv⟩
    · exact ⟨.refl, rfl, hblock _, fun h₀ => absurd h₀ hne⟩
    · have hdisk : st'.disk = st.disk := congrArg View.disk hv
      rw [hv]
      have hstep : View.MapStep i s e st.view _ := .direct hs hd hzero halloc
      refine ⟨.single hstep, hdisk, ?_, fun h₀ => ⟨_, .refl, no, sb, halloc, h₀⟩⟩
      rw [hblock]
      simp [View.setAddr, View.modDi]
  · next hd =>
    have hk : l - nDirect < nIndirect := by omega
    have hend : nDirect * blockSize < e :=
      lt_of_le_of_lt (Nat.mul_le_mul_right _ (Nat.not_lt.1 hd)) he
    dsimp only at h
    rw [if_pos hk] at h
    obtain ⟨⟨a, st₁⟩, haddr, h⟩ := bind_eq_ok.1 h
    dsimp only at h
    rw [if_neg (by simp)] at h
    obtain ⟨hblk, hload⟩ := @view_efsILoadIndir st₁ i a
    rw [hblk] at h
    generalize (efsILoadIndir st₁ i a).2 = st₂ at h hload
    have hindir : st₂.view.indir i = some ((st₁.inode i).indir.getD (st₁.view.diskPage a)) := by
      rw [hload]
      exact Function.update_self ..
    have hdisk₂ : st₂.disk = st₁.disk := congrArg View.disk hload
    have hfirst : ReflTransGen (View.MapStep i s e) st.view st₂.view ∧ st₁.disk = st.disk := by
      rw [hload]
      rcases efsIAddr_cases haddr with ⟨rfl, hne, rfl⟩ | ⟨hzero, no, sb, halloc, rfl, hsame, hv⟩
      · exact ⟨mapSteps_load hne, rfl⟩
      · refine ⟨?_, congrArg View.disk hv⟩
        rw [hsame, hv]
        refine .single (.indirect hend (fun k hk hsk => hfull k hk hsk ?_) hzero halloc)
        omega
    obtain ⟨hfirst, hdisk₁⟩ := hfirst
    obtain ⟨hsteps, hdisk, hblock, hzero⟩ := mapSteps_page hk hindir h
    rw [Nat.add_sub_cancel' (Nat.not_lt.1 hd)] at hblock
    exact ⟨hfirst.trans hsteps, hdisk.trans (hdisk₂.trans hdisk₁), hblock,
      fun h₀ => ⟨_, hfirst, hzero h₀⟩⟩

/-! ### Writing -/

theorem rounds_efsIWriteLoop {fuel offset last : ℕ} {src : List (BitVec 8)}
    (hfuel : src.length ≤ fuel) (hs : s ≤ offset / blockSize) (he : offset + src.length ≤ e)
    (hmax : e ≤ maxFileSize)
    (hfull : ∀ k < nDirect, s ≤ k → k < offset / blockSize → (st.view.di i).addrs k ≠ 0)
    (h : efsIWriteLoop i fuel st offset src = .ok (last, st')) :
    View.Rounds i s e offset src st.view st'.view ∧ last ≤ offset + src.length := by
  induction fuel generalizing st offset src with
  | zero =>
    obtain ⟨rfl, rfl⟩ := ok_prod_inj h
    obtain rfl := List.length_eq_zero_iff.1 (Nat.le_zero.1 hfuel)
    exact ⟨.done, Nat.le_add_right ..⟩
  | succ fuel ih =>
    rw [efsIWriteLoop] at h
    split at h
    · next hsrc =>
      subst hsrc
      obtain ⟨rfl, rfl⟩ := ok_prod_inj h
      exact ⟨.done, Nat.le_add_right ..⟩
    · next hsrc =>
      have hpos : 0 < src.length := List.length_pos_iff.2 hsrc
      have hl : offset / blockSize < nDirect + nIndirect := by
        simp only [maxFileSize, blockSize, nDirect, nIndirect] at hmax ⊢
        omega
      have hlt : offset / blockSize * blockSize < e :=
        (Nat.div_mul_le_self ..).trans_lt (by omega)
      obtain ⟨⟨b, st₁⟩, hbmap, h⟩ := bind_eq_ok.1 h
      obtain ⟨hsteps, hdisk, rfl, hzero⟩ := mapSteps_efsIBmap hl hs hlt hfull hbmap
      dsimp only at h
      split at h
      · next hb =>
        obtain ⟨rfl, rfl⟩ := ok_prod_inj h
        obtain ⟨v₁, h₁, hzero⟩ := hzero hb
        exact ⟨.stop hsteps h₁ hzero, Nat.le_add_right ..⟩
      · next hb =>
        have hmod : offset % blockSize < blockSize := Nat.mod_lt _ (by decide)
        generalize hm : min src.length (blockSize - offset % blockSize) = m at h
        have hlen := @List.length_drop _ m src
        have hpart : (src.take m).length = m := by
          rw [List.length_take]
          omega
        have hnext : offset / blockSize ≤ (offset + m) / blockSize ∧
            (offset + m) / blockSize ≤ offset / blockSize + 1 := by
          simp only [blockSize] at hm ⊢
          omega
        have hfull' : ∀ k < nDirect, s ≤ k → k < (offset + m) / blockSize →
            (st₁.view.di i).addrs k ≠ 0 := by
          intro k hk hsk hlt'
          rcases Nat.lt_or_ge k (offset / blockSize) with hlt | hge
          · rw [addr_of_mapSteps hsteps hk (hfull k hk hsk hlt)]
            exact hfull k hk hsk hlt
          · obtain rfl : k = offset / blockSize := by omega
            rwa [View.block, if_pos hk] at hb
        obtain ⟨hrest, hle⟩ := ih (by omega) (hs.trans hnext.1) (by omega) (by exact hfull') h
        have hround : View.Rounds i s e offset (src.take m ++ src.drop m) st.view st'.view :=
          .round hsteps hdisk hb (by omega) (by rw [hpart]; exact hrest)
        rw [List.take_append_drop] at hround
        exact ⟨hround, by omega⟩

theorem View.maps_block {v : View} (hne : v.block i l ≠ 0) : v.Maps i (v.block i l) := by
  rw [block] at hne ⊢
  split_ifs at hne ⊢ with hd hl
  · exact .inl ⟨l, hd, rfl⟩
  · cases hindir : v.indir i with
    | none =>
      rw [hindir] at hne
      exact absurd rfl hne
    | some blk => exact .inr ⟨blk, hindir, l - nDirect, by omega, rfl⟩
  · exact absurd rfl hne

theorem View.Rounds.mapSteps {v v' : View} {o : ℕ} {src : List (BitVec 8)}
    (h : Rounds i s e o src v v') : ReflTransGen (MapStep i s e) v v' := by
  induction h with
  | done => exact .refl
  | stop h h₁ hzero => exact h
  | round h hdisk hne hlen hrest ih => exact h.trans (.head (.data hne (maps_block hne) hlen) ih)

theorem size_of_mapSteps {v v' : View} (h : ReflTransGen (View.MapStep i s e) v v') (j : ℕ) :
    (v'.di j).size = (v.di j).size := by
  induction h with
  | refl => rfl
  | tail _ hstep ih =>
    rw [← ih]
    cases hstep <;> first
      | rfl
      | exact View.size_setAddr j

theorem eq_of_rejected {offset len : BitVec 32} {vaddr : ℕ → BitVec 8} {r : ℤ}
    (hrej : Rejected st i offset len) (h : efsIWrite st i offset len vaddr = .ok (r, st')) :
    st' = st := by
  unfold efsIWrite at h
  rcases rejected_iff.1 hrej with h₁ | h₂
  · rw [if_pos h₁] at h
    exact (ok_prod_inj h).2.symm
  · split_ifs at h
    · exact (ok_prod_inj h).2.symm
    · exact (ok_prod_inj h).2.symm

/-- A call of `efs_i_write` that is not rejected. -/
theorem rounds_efsIWrite {offset len : BitVec 32} {vaddr : ℕ → BitVec 8} {r : ℤ}
    (hacc : ¬Rejected st i offset len) (h : efsIWrite st i offset len vaddr = .ok (r, st')) :
    ∃ v₁ size, View.Rounds i (offset.toNat / blockSize) (offset.toNat + len.toNat) offset.toNat
      (slice vaddr 0 len.toNat) st.view v₁ ∧
        (offset.toNat + len.toNat ≤ (st.view.di i).size.toNat → size = (st.view.di i).size) ∧
          st'.view = (v₁.modDi i fun x => { x with size := size }).iSdirty i := by
  unfold efsIWrite at h
  split_ifs at h with h₁ h₂
  · exact absurd (rejected_iff.2 (.inl h₁)) hacc
  · exact absurd (rejected_iff.2 (.inr h₂)) hacc
  · rw [Rejected] at hacc
    obtain ⟨⟨last, st₁⟩, hloop, h⟩ := bind_eq_ok.1 h
    obtain ⟨-, rfl⟩ := ok_prod_inj h
    have hlen : (slice vaddr 0 len.toNat).length = len.toNat := length_slice ..
    obtain ⟨hrounds, hle⟩ := rounds_efsIWriteLoop (e := offset.toNat + len.toNat) hlen.le le_rfl
      (by omega) (by omega) (fun k _ hge hlt => absurd hlt (Nat.not_lt.2 hge)) hloop
    have hsize₁ : (st₁.inode i).di.size = (st.inode i).di.size :=
      size_of_mapSteps hrounds.mapSteps i
    rw [view_efsISdirty]
    split
    · next hlt =>
      rw [view_modDi]
      refine ⟨_, _, hrounds, fun he => absurd hlt ?_, rfl⟩
      have he' : offset.toNat + len.toNat ≤ (st.inode i).di.size.toNat := he
      rw [hsize₁]
      omega
    · have hself : st₁.view.modDi i (fun x => { x with size := (st.view.di i).size }) =
          st₁.view := by
        refine View.modDi_self ?_
        exact congrArg (fun n => { st₁.view.di i with size := n }) hsize₁.symm
      exact ⟨_, _, hrounds, fun _ => rfl, by rw [hself]⟩

/-- A call of `efs_i_write` that does not panic. -/
theorem writes_efsIWrite {offset len : BitVec 32} {vaddr : ℕ → BitVec 8} {r : ℤ}
    (h : efsIWrite st i offset len vaddr = .ok (r, st')) :
    st.view.Writes i (offset.toNat / blockSize) (offset.toNat + len.toNat) st'.view := by
  by_cases hrej : Rejected st i offset len
  · rw [eq_of_rejected hrej h]
    exact .rejected
  · obtain ⟨v₁, size, hrounds, hsize, hv⟩ := rounds_efsIWrite hrej h
    rw [hv]
    exact .written hrounds.mapSteps hsize

end RiscvLab.Fs
