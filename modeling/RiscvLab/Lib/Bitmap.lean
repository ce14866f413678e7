import Mathlib.Data.BitVec
import Mathlib.Logic.Function.Basic
import Mathlib.Data.Int.Notation

/-!
# Bitmaps

A bitmap is an array of 64-bit words with a count of unused bits and a hint where the search for a
clear bit starts. `bitmap_alloc` scans from the hint on; it does not come back to lower bits, so the
hint has to stay at or below every clear bit, and `bitmap_free` lowers it. The search runs to the
end of the last word, and the index it finds is compared with the size by `res > size`: the bit with
the index `size` is handed out if the words reach that far, although `bitmap_free` and
`bitmap_is_free` take it to be out of range.

## Main definitions

* `Bitmap`, `bitmapAlloc`, `bitmapFree`, `bitmapIsFree`
* `Bitmap.FirstClear`, the first clear bit of a range

## Main results

* `bitmapAlloc_of_firstClear`, `bitmapAlloc_cases` : what `bitmap_alloc` returns.

Source: `lib/bitmap.c`, lines 5–111; `include/lib/bitmap.h`.
-/

namespace RiscvLab

/-- `struct bitmap`. -/
structure Bitmap where
  map : ℕ → BitVec 64
  size : ℤ
  unused : ℤ
  allocation : ℕ

namespace Bitmap

/-- The bit with the index `k`. -/
def test (b : Bitmap) (k : ℕ) : Bool := (b.map (k / 64)).getLsbD (k % 64)

def setBit (b : Bitmap) (k : ℕ) : Bitmap :=
  { b with map := Function.update b.map (k / 64) (b.map (k / 64) ||| 1#64 <<< (k % 64)) }

def clearBit (b : Bitmap) (k : ℕ) : Bitmap :=
  { b with map := Function.update b.map (k / 64) (b.map (k / 64) &&& ~~~(1#64 <<< (k % 64))) }

/-- `total_blocks`: the number of words. -/
def words (b : Bitmap) : ℕ := ((b.size + 63).tdiv 64).toNat

end Bitmap

/-- `bitmap_init_zone`. -/
def bitmapInitZone (map : ℕ → BitVec 64) (sizeBits : ℤ) : Bitmap where
  map := map
  size := sizeBits
  unused := sizeBits
  allocation := 0

/-- The loop of `bitmap_alloc` over the `n` bits of a word from `bit` on. -/
def findClear (w : BitVec 64) : ℕ → ℕ → Option ℕ
  | 0, _ => none
  | n + 1, bit => if w.getLsbD bit = false then some bit else findClear w n (bit + 1)

/-- The loop of `bitmap_alloc` over `n` words from the word `i` on; the bits of the word
`startBlock` are searched from `startBit` on. -/
def scanWords (map : ℕ → BitVec 64) (startBlock startBit : ℕ) : ℕ → ℕ → Option (ℕ × ℕ)
  | 0, _ => none
  | n + 1, i =>
    if map i ≠ BitVec.allOnes 64 then
      let bit := if i = startBlock then startBit else 0
      match findClear (map i) (64 - bit) bit with
      | some bit => some (i, bit)
      | none => scanWords map startBlock startBit n (i + 1)
    else scanWords map startBlock startBit n (i + 1)

/-- `bitmap_alloc`. -/
def bitmapAlloc (b : Bitmap) : ℤ × Bitmap :=
  if b.unused = 0 then (-1, b)
  else
    let startBlock := b.allocation / 64
    match scanWords b.map startBlock (b.allocation % 64) (b.words - startBlock) startBlock with
    | some (i, bit) =>
      let res := i * 64 + bit
      if (res : ℤ) > b.size then (-1, b)
      else (res, { b.setBit res with unused := b.unused - 1, allocation := res + 1 })
    | none => (-1, b)

/-- `bitmap_free`. -/
def bitmapFree (b : Bitmap) (index : ℤ) : Bitmap :=
  if index < 0 ∨ index ≥ b.size then b
  else
    let k := index.toNat
    let b := if k < b.allocation then { b with allocation := k } else b
    if b.test k then { b.clearBit k with unused := b.unused + 1 } else b

/-- `bitmap_is_free`. -/
def bitmapIsFree (b : Bitmap) (index : ℤ) : ℤ :=
  if index < 0 ∨ index ≥ b.size then -1
  else if b.test index.toNat then 0 else 1

/-- `bitmap_reset_allo`. -/
def bitmapResetAllo (b : Bitmap) (start : ℕ) : Bitmap :=
  let (index, b) := bitmapAlloc { b with allocation := start }
  bitmapFree b index

/-- `bitmap_reset_unused`. -/
def bitmapResetUnused (b : Bitmap) (unused : ℤ) : Bitmap := { b with unused := unused }

section

variable (b : Bitmap) (u : ℤ) (k : ℕ)

@[simp] theorem bitmapResetUnused_unused : (bitmapResetUnused b u).unused = u := rfl
@[simp] theorem bitmapResetUnused_size : (bitmapResetUnused b u).size = b.size := rfl
@[simp] theorem bitmapResetUnused_allocation :
    (bitmapResetUnused b u).allocation = b.allocation := rfl
@[simp] theorem test_bitmapResetUnused : (bitmapResetUnused b u).test k = b.test k := rfl

end

namespace Bitmap

variable {b : Bitmap} {j k : ℕ}

private theorem getLsbD_one_shiftLeft {i n : ℕ} (hi : i < 64) (hn : n < 64) :
    (1#64 <<< n).getLsbD i = decide (i = n) := by
  rw [BitVec.getLsbD_shiftLeft, BitVec.getLsbD_one]
  by_cases h : i = n
  · simp [h, hn]
  · by_cases hlt : i < n
    · simp [hlt, h]
    · have hne : i - n ≠ 0 := by omega
      simp [hlt, h, hi, hne]

@[simp]
theorem test_setBit : (b.setBit k).test j = (decide (j = k) || b.test j) := by
  by_cases hw : j / 64 = k / 64
  · have hiff : j % 64 = k % 64 ↔ j = k := by omega
    simp only [test, setBit, hw, Function.update_self, BitVec.getLsbD_or,
      getLsbD_one_shiftLeft (Nat.mod_lt j (by decide : 0 < 64)) (Nat.mod_lt k (by decide)), hiff]
    exact Bool.or_comm _ _
  · have hne : j ≠ k := fun h => hw (h ▸ rfl)
    simp [test, setBit, Function.update_of_ne hw, hne]

@[simp]
theorem test_clearBit : (b.clearBit k).test j = (!decide (j = k) && b.test j) := by
  by_cases hw : j / 64 = k / 64
  · have hiff : j % 64 = k % 64 ↔ j = k := by omega
    have hlt : j % 64 < 64 := Nat.mod_lt j (by decide)
    simp only [test, clearBit, hw, Function.update_self, BitVec.getLsbD_and, BitVec.getLsbD_not,
      getLsbD_one_shiftLeft hlt (Nat.mod_lt k (by decide : 0 < 64)), hiff, hlt, decide_true,
      Bool.true_and]
    exact Bool.and_comm _ _
  · have hne : j ≠ k := fun h => hw (h ▸ rfl)
    simp [test, clearBit, Function.update_of_ne hw, hne]

/-- `k` is the first clear bit from `lo` on, and is below `hi`. -/
structure FirstClear (b : Bitmap) (lo hi k : ℕ) : Prop where
  le : lo ≤ k
  lt : k < hi
  clear : b.test k = false
  first : ∀ j, lo ≤ j → j < k → b.test j = true

end Bitmap

section Scan

variable {w : BitVec 64} {n bit r : ℕ}

private theorem findClear_eq_some (h : findClear w n bit = some r) :
    bit ≤ r ∧ r < bit + n ∧ w.getLsbD r = false ∧ ∀ j, bit ≤ j → j < r → w.getLsbD j = true := by
  induction n generalizing bit with
  | zero => simp [findClear] at h
  | succ n ih =>
    rw [findClear] at h
    split at h
    · next hbit =>
      obtain rfl := Option.some.inj h
      exact ⟨le_rfl, by omega, hbit, fun j h₁ h₂ => by omega⟩
    · next hbit =>
      obtain ⟨h₁, h₂, h₃, h₄⟩ := ih h
      refine ⟨by omega, by omega, h₃, fun j hj hjr => ?_⟩
      rcases Nat.eq_or_lt_of_le hj with rfl | hlt
      · simpa using hbit
      · exact h₄ j hlt hjr

private theorem findClear_eq_none (h : findClear w n bit = none) :
    ∀ j, bit ≤ j → j < bit + n → w.getLsbD j = true := by
  induction n generalizing bit with
  | zero => intro j h₁ h₂; omega
  | succ n ih =>
    rw [findClear] at h
    split at h
    · cases h
    · next hbit =>
      intro j hj hjn
      rcases Nat.eq_or_lt_of_le hj with rfl | hlt
      · simpa using hbit
      · exact ih h j hlt (by omega)

end Scan

section Scan

variable {b : Bitmap} {n i lo k : ℕ}

private theorem test_word {i j : ℕ} (hj : j < 64) :
    b.test (64 * i + j) = (b.map i).getLsbD j := by
  have h₁ : (64 * i + j) / 64 = i := by omega
  have h₂ : (64 * i + j) % 64 = j := by omega
  rw [Bitmap.test, h₁, h₂]

/-- Once the bits of a word from `s` up to `e` are set, all bits of interest before `e` are. -/
private theorem test_word_add {s e : ℕ} (hs : ∀ j, j < 64 → (lo ≤ 64 * i + j ↔ s ≤ j))
    (hset : ∀ j, lo ≤ j → j < 64 * i → b.test j = true) (he : e ≤ 64)
    (hword : ∀ j, s ≤ j → j < e → (b.map i).getLsbD j = true) :
    ∀ j, lo ≤ j → j < 64 * i + e → b.test j = true := by
  intro j hlo hj
  by_cases hlt : j < 64 * i
  · exact hset j hlo hlt
  · obtain ⟨r, rfl⟩ := Nat.exists_eq_add_of_le (Nat.le_of_not_lt hlt)
    have hr : r < 64 := by omega
    rw [test_word hr]
    exact hword r ((hs r hr).1 hlo) (by omega)

/-- A scan that has come to the word `i` goes on to the first clear bit. -/
private theorem scanWords_spec (hi : lo / 64 ≤ i)
    (hset : ∀ j, lo ≤ j → j < 64 * i → b.test j = true) :
    match scanWords b.map (lo / 64) (lo % 64) n i with
    | some (i', bit) => b.FirstClear lo (64 * (i + n)) (i' * 64 + bit)
    | none => ∀ j, lo ≤ j → j < 64 * (i + n) → b.test j = true := by
  induction n generalizing i with
  | zero => simpa [scanWords] using hset
  | succ n ih =>
    have hs : ∀ j, j < 64 → (lo ≤ 64 * i + j ↔ (if i = lo / 64 then lo % 64 else 0) ≤ j) := by
      intro j hj
      split <;> omega
    have hle : (if i = lo / 64 then lo % 64 else 0) < 64 := by split <;> omega
    rw [scanWords]
    generalize (if i = lo / 64 then lo % 64 else 0) = s at hs hle
    rw [show i + (n + 1) = i + 1 + n by omega]
    by_cases hones : b.map i = BitVec.allOnes 64
    · rw [if_neg (not_not.2 hones)]
      refine ih (by omega) (test_word_add hs hset le_rfl fun j _ hj => ?_)
      rw [hones, BitVec.getLsbD_allOnes, decide_eq_true hj]
    · rw [if_pos hones]
      cases hf : findClear (b.map i) (64 - s) s with
      | none =>
        simp only [hf]
        refine ih (by omega) (test_word_add hs hset le_rfl fun j hsj hj => ?_)
        exact findClear_eq_none hf j hsj (by omega)
      | some bit =>
        obtain ⟨h₁, h₂, h₃, h₄⟩ := findClear_eq_some hf
        have hbit : bit < 64 := by omega
        simp only [hf]
        rw [show i * 64 + bit = 64 * i + bit by omega]
        exact ⟨(hs bit hbit).2 h₁, by omega, by rw [test_word hbit, h₃],
          test_word_add hs hset hbit.le h₄⟩

/-- The scan of `bitmap_alloc` starts in the word of the hint. -/
private theorem scanWords_alloc (b : Bitmap) :
    match scanWords b.map (b.allocation / 64) (b.allocation % 64) (b.words - b.allocation / 64)
      (b.allocation / 64) with
    | some (i, bit) => b.FirstClear b.allocation (64 * b.words) (i * 64 + bit)
    | none => ∀ j, b.allocation ≤ j → j < 64 * b.words → b.test j = true := by
  have h := @scanWords_spec b (b.words - b.allocation / 64) (b.allocation / 64) b.allocation le_rfl
    fun j h₁ h₂ => by omega
  by_cases hle : b.allocation / 64 ≤ b.words
  · rwa [Nat.add_sub_cancel' hle] at h
  · rw [Nat.sub_eq_zero_of_le (by omega)] at h ⊢
    intro j h₁ h₂
    omega

end Scan

namespace Bitmap

variable {b : Bitmap} {lo hi j k : ℕ}

theorem FirstClear.unique (hj : b.FirstClear lo hi j) (hk : b.FirstClear lo hi k) : j = k := by
  rcases Nat.lt_trichotomy j k with h | h | h
  · have := hk.first j hj.le h
    simp [hj.clear] at this
  · exact h
  · have := hj.first k hk.le h
    simp [hk.clear] at this

theorem exists_firstClear (hlo : lo ≤ k) (hhi : k < hi) (hk : b.test k = false) :
    ∃ j, j ≤ k ∧ b.FirstClear lo hi j := by
  have hex : ∃ j, lo ≤ j ∧ b.test j = false := ⟨k, hlo, hk⟩
  have hle : Nat.find hex ≤ k := Nat.find_le ⟨hlo, hk⟩
  refine ⟨Nat.find hex, hle, (Nat.find_spec hex).1, by omega, (Nat.find_spec hex).2,
    fun j hj hlt => ?_⟩
  have := Nat.find_min hex hlt
  simpa [hj] using this

/-- What `bitmap_alloc` does with the bit that it finds. -/
def grab (b : Bitmap) (k : ℕ) : Bitmap :=
  { b.setBit k with unused := b.unused - 1, allocation := k + 1 }

@[simp] theorem grab_size : (b.grab k).size = b.size := rfl
@[simp] theorem grab_unused : (b.grab k).unused = b.unused - 1 := rfl
@[simp] theorem grab_allocation : (b.grab k).allocation = k + 1 := rfl
@[simp] theorem grab_words : (b.grab k).words = b.words := rfl

@[simp]
theorem test_grab : (b.grab k).test j = (decide (j = k) || b.test j) := test_setBit

/-- What `bitmap_free` does with a bit that is set. -/
def drop (b : Bitmap) (k : ℕ) : Bitmap :=
  { b.clearBit k with unused := b.unused + 1, allocation := min b.allocation k }

@[simp] theorem drop_size : (b.drop k).size = b.size := rfl
@[simp] theorem drop_unused : (b.drop k).unused = b.unused + 1 := rfl
@[simp] theorem drop_allocation : (b.drop k).allocation = min b.allocation k := rfl
@[simp] theorem drop_words : (b.drop k).words = b.words := rfl

@[simp]
theorem test_drop : (b.drop k).test j = (!decide (j = k) && b.test j) := test_clearBit

theorem lt_words (h : (k : ℤ) < b.size) : k < 64 * b.words := by
  rw [words, Int.tdiv_eq_ediv_of_nonneg (by omega)]
  omega

theorem words_le {m : ℕ} (h₀ : 0 ≤ b.size) (h : b.size ≤ 64 * m) : b.words ≤ m := by
  rw [words, Int.tdiv_eq_ediv_of_nonneg (by omega)]
  omega

/-- The words reach beyond the size unless the size is a multiple of their length. -/
theorem lt_words_iff (h : (k : ℤ) = b.size) : k < 64 * b.words ↔ k % 64 ≠ 0 := by
  rw [words, Int.tdiv_eq_ediv_of_nonneg (by omega)]
  omega

end Bitmap

section Alloc

variable {b : Bitmap} {k : ℕ}

/-- `bitmap_alloc` takes the first clear bit from the hint on, if its index is at most the size. The
comparison admits the size itself, which is one bit behind the last. -/
theorem bitmapAlloc_of_firstClear (hu : b.unused ≠ 0)
    (hk : b.FirstClear b.allocation (64 * b.words) k) (hsize : (k : ℤ) ≤ b.size) :
    bitmapAlloc b = ((k : ℤ), b.grab k) := by
  have h := scanWords_alloc b
  rw [bitmapAlloc, if_neg hu]
  split at h
  · next i bit hs =>
    obtain rfl := h.unique hk
    simp only [hs]
    rw [if_neg (by omega), Bitmap.grab]
  · have := h k hk.le hk.lt
    simp [hk.clear] at this

/-- `bitmap_alloc` fails if there is no clear bit from the hint up to the size. -/
theorem bitmapAlloc_eq_neg_one
    (h : b.unused = 0 ∨
      ∀ j : ℕ, b.allocation ≤ j → j < 64 * b.words → (j : ℤ) ≤ b.size → b.test j = true) :
    bitmapAlloc b = (-1, b) := by
  rw [bitmapAlloc]
  split
  · rfl
  · next hu =>
    have hall := h.resolve_left hu
    have hs := scanWords_alloc b
    split at hs
    · next i bit heq =>
      simp only [heq]
      rw [if_pos]
      by_contra hle
      have := hall _ hs.le hs.lt (by omega)
      simp [hs.clear] at this
    · next heq => simp only [heq]

/-- `bitmap_alloc` fails and changes nothing, or takes the first clear bit. -/
theorem bitmapAlloc_cases (b : Bitmap) : bitmapAlloc b = (-1, b) ∨
    ∃ k : ℕ, b.FirstClear b.allocation (64 * b.words) k ∧ (k : ℤ) ≤ b.size ∧
      bitmapAlloc b = ((k : ℤ), b.grab k) := by
  by_cases hu : b.unused = 0
  · exact .inl (bitmapAlloc_eq_neg_one (.inl hu))
  · have hs := scanWords_alloc b
    split at hs
    · next i bit _ =>
      by_cases hle : ((i * 64 + bit : ℕ) : ℤ) ≤ b.size
      · exact .inr ⟨_, hs, hle, bitmapAlloc_of_firstClear hu hs hle⟩
      · refine .inl (bitmapAlloc_eq_neg_one (.inr fun j h₁ _ h₃ => hs.first j h₁ ?_))
        omega
    · exact .inl (bitmapAlloc_eq_neg_one (.inr fun j h₁ h₂ _ => hs j h₁ h₂))

/-- A bit that `bitmap_alloc` hands out was clear. It lies at the hint or behind it. -/
theorem bitmapAlloc_ok {b b' : Bitmap} {no : ℤ} (h : bitmapAlloc b = (no, b')) (hno : no ≠ -1) :
    ∃ k : ℕ, no = k ∧ b.test k = false ∧ (k : ℤ) ≤ b.size ∧ b' = b.grab k ∧ b.allocation ≤ k := by
  rcases bitmapAlloc_cases b with hb | ⟨k, hk, hle, hb⟩
  · exact absurd (congrArg Prod.fst (h.symm.trans hb)) hno
  · obtain ⟨rfl, rfl⟩ := Prod.mk.inj (h.symm.trans hb)
    exact ⟨k, rfl, hk.clear, hle, rfl, hk.le⟩

theorem bitmapFree_of_test (hk : (k : ℤ) < b.size) (ht : b.test k = true) :
    bitmapFree b k = b.drop k := by
  rw [bitmapFree, if_neg (by omega), Int.toNat_natCast]
  by_cases hlt : k < b.allocation
  · have ht' : Bitmap.test { b with allocation := k } k = true := ht
    simp only [if_pos hlt, ht', if_true, Bitmap.drop, Nat.min_eq_right hlt.le]
    rfl
  · simp only [if_neg hlt, ht, if_true, Bitmap.drop, Nat.min_eq_left (Nat.le_of_not_lt hlt)]
    rfl

/-- `bitmap_is_free` answers zero exactly for the bits in range that are set. -/
theorem bitmapIsFree_eq_zero_iff : bitmapIsFree b k = 0 ↔ (k : ℤ) < b.size ∧ b.test k = true := by
  rw [bitmapIsFree, Int.toNat_natCast]
  split
  · exact ⟨fun h => by simp at h, fun h => by omega⟩
  · cases ht : b.test k
    · simp
    · simp only [if_true, and_true, true_iff]
      omega

private theorem bitmapAlloc_setHint {start : ℕ} (hu : b.unused ≠ 0)
    (hk : b.FirstClear start (64 * b.words) k) (hsize : (k : ℤ) ≤ b.size) :
    bitmapAlloc { b with allocation := start } =
      ((k : ℤ), { b with allocation := start }.grab k) :=
  bitmapAlloc_of_firstClear hu ⟨hk.le, hk.lt, hk.clear, hk.first⟩ hsize

/-- The hint is put at the first clear bit, if that is below the size. -/
theorem bitmapResetAllo_of_lt {start : ℕ} (hu : b.unused ≠ 0)
    (hk : b.FirstClear start (64 * b.words) k) (hsize : (k : ℤ) < b.size) :
    (bitmapResetAllo b start).size = b.size ∧ (bitmapResetAllo b start).allocation = k ∧
      ∀ j, (bitmapResetAllo b start).test j = b.test j := by
  have hreset : bitmapResetAllo b start = ({ b with allocation := start }.grab k).drop k := by
    rw [bitmapResetAllo, bitmapAlloc_setHint hu hk hsize.le]
    exact bitmapFree_of_test hsize (by simp)
  rw [hreset]
  refine ⟨rfl, by simp, fun j => ?_⟩
  have htest : Bitmap.test { b with allocation := start } j = b.test j := rfl
  rw [Bitmap.test_drop, Bitmap.test_grab, htest]
  by_cases hj : j = k
  · simp [hj, hk.clear]
  · simp [hj]

/-- If the first clear bit has the index `size`, it stays taken. -/
theorem bitmapResetAllo_of_eq {start : ℕ} (hu : b.unused ≠ 0)
    (hk : b.FirstClear start (64 * b.words) k) (hsize : (k : ℤ) = b.size) :
    bitmapResetAllo b start = { b with allocation := start }.grab k := by
  rw [bitmapResetAllo, bitmapAlloc_setHint hu hk hsize.le]
  exact if_pos (.inr hsize.ge)

/-- Putting the hint in place leaves the bits, but that with the index `size` may have been taken,
and is not given back. The hint is not put below the place where the search starts. -/
theorem bitmapResetAllo_cases (b : Bitmap) (start : ℕ) :
    (bitmapResetAllo b start).size = b.size ∧ start ≤ (bitmapResetAllo b start).allocation ∧
      ((∀ j, (bitmapResetAllo b start).test j = b.test j) ∨
        ∃ k : ℕ, start ≤ k ∧ (k : ℤ) = b.size ∧ b.test k = false ∧
          ∀ j, (bitmapResetAllo b start).test j = (decide (j = k) || b.test j)) := by
  rcases bitmapAlloc_cases { b with allocation := start } with h | ⟨k, hk, hle, h⟩
  · have hreset : bitmapResetAllo b start = { b with allocation := start } := by
      rw [bitmapResetAllo, h]
      exact if_pos (.inl (by decide))
    rw [hreset]
    exact ⟨rfl, le_rfl, .inl fun _ => rfl⟩
  · have hu : b.unused ≠ 0 := by
      intro hu
      have := bitmapAlloc_eq_neg_one (b := { b with allocation := start }) (.inl hu)
      rw [h] at this
      have := congrArg Prod.fst this
      simp only at this
      omega
    have hstart : start ≤ k := hk.le
    rcases hle.lt_or_eq with hlt | heq
    · obtain ⟨hsize, hhint, htest⟩ :=
        bitmapResetAllo_of_lt hu ⟨hk.le, hk.lt, hk.clear, hk.first⟩ hlt
      exact ⟨hsize, hstart.trans hhint.ge, .inl htest⟩
    · have hreset := bitmapResetAllo_of_eq hu ⟨hk.le, hk.lt, hk.clear, hk.first⟩ heq
      rw [hreset, Bitmap.grab_allocation]
      exact ⟨rfl, by omega, .inr ⟨k, hstart, heq, hk.clear, fun j => Bitmap.test_grab ..⟩⟩

theorem test_bitmapResetAllo {start j : ℕ} (hj : (j : ℤ) < b.size ∨ b.test j = true) :
    (bitmapResetAllo b start).size = b.size ∧ (bitmapResetAllo b start).test j = b.test j := by
  obtain ⟨hsize, -, htest | ⟨k, -, hk, hclear, htest⟩⟩ := bitmapResetAllo_cases b start
  · exact ⟨hsize, htest j⟩
  · have hne : j ≠ k := by
      rintro rfl
      rcases hj with hlt | hset
      · exact hlt.ne hk
      · rw [hset] at hclear
        cases hclear
    rw [htest, decide_eq_false hne, Bool.false_or]
    exact ⟨hsize, rfl⟩

end Alloc

end RiscvLab
