import Mathlib.Data.BitVec
import Mathlib.Data.List.TakeWhile
import Mathlib.Logic.Function.Basic
import RiscvLab.Library.Bytes

/-!
# Strings

A string is a store of bytes that is read from its start up to a zero byte; `cstr` makes one from a
list. `strncpy` writes into a memory, and `strncmp` compares two strings on at most `n` bytes. Of a
field of `n` bytes, only the bytes before the first zero count: `chars s n`.

When `strncpy` finds the end of its source it has copied the zero and moved on; the second zero then
goes to the byte behind. If there is room for the string and one zero only, this byte is not in the
field any more.

## Main definitions

* `HasLength` : the length of a string.
* `CopiesInside` : `strncpy` copies the string and leaves what is outside of the field.

## Main results

* `strncmp_eq_zero_iff` : two strings compare equal on `n` bytes exactly if they have the same
  `chars`.
* `chars_strncpy` : a field that has been copied into holds the first `n` bytes of the source.
* `strncpy_inside_iff` : the source must not be just one byte shorter than the field.

Source: `lib/string.c`, lines 44–81.
-/

namespace RiscvLab

open Library

/-- The string with the bytes of a list. -/
def cstr (l : List (BitVec 8)) (i : ℕ) : BitVec 8 := l.getD i 0

/-- The bytes of `s` before the first zero, of the first `n`. -/
def chars (s : ℕ → BitVec 8) : ℕ → List (BitVec 8)
  | 0 => []
  | n + 1 => if s 0 = 0 then [] else s 0 :: chars (fun i => s (i + 1)) n

/-- The loop of `strncpy`, with `n` bytes left, at the byte `k`: the memory, `copied`, and how far
`_dst` has been moved. -/
def strncpyLoop (src : ℕ → BitVec 8) (dst : ℕ) : ℕ → ℕ → (ℕ → BitVec 8) → (ℕ → BitVec 8) × ℕ × ℕ
  | 0, k, mem => (mem, k, k)
  | n + 1, k, mem =>
    let mem := Function.update mem (dst + k) (src k)
    if src k = 0 then (mem, k, k + 1) else strncpyLoop src dst n (k + 1) mem

/-- `strncpy`: the memory and the number of bytes copied. If the source ends before `len` bytes are
copied, its zero has been copied already and a second one is written behind it. -/
def strncpy (mem : ℕ → BitVec 8) (dst : ℕ) (src : ℕ → BitVec 8) (len : ℕ) :
    (ℕ → BitVec 8) × ℕ :=
  let (mem, copied, pos) := strncpyLoop src dst len 0 mem
  if copied < len then (Function.update mem (dst + pos) 0, copied) else (mem, copied)

/-- `strncmp`, from the byte `k` on. -/
def strncmpFrom (p q : ℕ → BitVec 8) : ℕ → ℕ → ℤ
  | 0, _ => 0
  | n + 1, k =>
    if p k ≠ 0 ∧ p k = q k then strncmpFrom p q n (k + 1) else (p k).toNat - (q k).toNat

/-- `strncmp`. -/
def strncmp (p q : ℕ → BitVec 8) (n : ℕ) : ℤ := strncmpFrom p q n 0

/-- The string has `l` bytes before its zero: `strlen`. -/
def HasLength (s : ℕ → BitVec 8) (l : ℕ) : Prop := s l = 0 ∧ ∀ i < l, s i ≠ 0

/-- `strhash` of a string of at most `n` bytes. -/
def strhash (s : ℕ → BitVec 8) (n : ℕ) : ℕ :=
  let hash : BitVec 64 :=
    (chars s n).foldl (fun (h : BitVec 64) c => (h <<< 5) + h + c.setWidth 64) 5381
  (hash &&& 0x7FFFFFFF).toNat

/-! ### Comparing -/

private theorem strncmpFrom_eq_zero_iff {p q : ℕ → BitVec 8} (n k : ℕ) :
    strncmpFrom p q n k = 0 ↔ chars (fun i => p (k + i)) n = chars (fun i => q (k + i)) n := by
  induction n generalizing k with
  | zero => simp [strncmpFrom, chars]
  | succ n ih =>
    have hshift : ∀ s : ℕ → BitVec 8, (fun i => s (k + (i + 1))) = fun i => s (k + 1 + i) :=
      fun s => funext fun i => by rw [show k + (i + 1) = k + 1 + i by omega]
    simp only [strncmpFrom, chars, Nat.add_zero, hshift]
    by_cases hp : p k = 0
    · by_cases hq : q k = 0
      · simp [hp, hq]
      · have hne : (q k).toNat ≠ 0 := fun h => hq (BitVec.eq_of_toNat_eq h)
        simp only [hp, hq, ne_eq, not_true_eq_false, false_and, if_false, if_true]
        exact iff_of_false (by simp [hne]) (by simp)
    · by_cases hpq : p k = q k
      · rw [if_pos ⟨hp, hpq⟩, if_neg hp, if_neg (hpq ▸ hp), ih, hpq, List.cons.injEq]
        simp
      · rw [if_neg (fun h => hpq h.2), if_neg hp]
        have hne : (p k).toNat ≠ (q k).toNat := fun h => hpq (BitVec.eq_of_toNat_eq h)
        have hint : ((p k).toNat : ℤ) - (q k).toNat ≠ 0 := by omega
        refine iff_of_false hint fun h => ?_
        split at h
        · cases h
        · exact hpq (List.cons.inj h).1

/-- Two strings compare equal on `n` bytes exactly if they have the same bytes before the first
zero. -/
theorem strncmp_eq_zero_iff {p q : ℕ → BitVec 8} {n : ℕ} :
    strncmp p q n = 0 ↔ chars p n = chars q n := by
  rw [strncmp, strncmpFrom_eq_zero_iff]
  simp only [Nat.zero_add]

theorem chars_congr {p q : ℕ → BitVec 8} {n : ℕ} (h : ∀ i < n, p i = q i) :
    chars p n = chars q n := by
  induction n generalizing p q with
  | zero => rfl
  | succ n ih =>
    rw [chars, chars, h 0 (by omega), ih fun i hi => h (i + 1) (by omega)]

theorem chars_congr_of_zero {p q : ℕ → BitVec 8} {n k : ℕ} (h : ∀ i ≤ k, p i = q i)
    (h₀ : q k = 0) : chars p n = chars q n := by
  induction n generalizing p q k with
  | zero => rfl
  | succ n ih =>
    rw [chars, chars, h 0 (by omega)]
    cases k with
    | zero => rw [if_pos h₀, if_pos h₀]
    | succ k => rw [ih (k := k) (fun i hi => h (i + 1) (by omega)) h₀]

/-! ### Copying -/

/-- The bytes that the loop has copied, and where it stops. -/
private theorem strncpyLoop_spec {src : ℕ → BitVec 8} {dst n k : ℕ} {mem mem' : ℕ → BitVec 8}
    {copied pos : ℕ} (hk : ∀ i < k, mem (dst + i) = src i)
    (h : strncpyLoop src dst n k mem = (mem', copied, pos)) :
    (∀ i < pos, mem' (dst + i) = src i) ∧ (∀ i < copied, k ≤ i → src i ≠ 0) ∧
      (∀ a, a < dst + k ∨ dst + pos ≤ a → mem' a = mem a) ∧
        (copied = k + n ∧ pos = k + n ∨
          k ≤ copied ∧ copied < k + n ∧ pos = copied + 1 ∧ src copied = 0) := by
  induction n generalizing k mem with
  | zero =>
    obtain ⟨rfl, rfl, rfl⟩ := h
    exact ⟨hk, fun i hi hle => absurd hi (Nat.not_lt.2 hle), fun _ _ => rfl, .inl ⟨rfl, rfl⟩⟩
  | succ n ih =>
    have hnext : ∀ i < k + 1, Function.update mem (dst + k) (src k) (dst + i) = src i := by
      intro i hi
      rcases eq_or_ne i k with rfl | hne
      · exact Function.update_self ..
      · rw [Function.update_of_ne (by omega)]
        exact hk i (by omega)
    simp only [strncpyLoop] at h
    split at h
    · next hzero =>
      obtain ⟨rfl, rfl, rfl⟩ := h
      refine ⟨hnext, fun i hi hle => absurd hi (Nat.not_lt.2 hle), fun a ha => ?_,
        .inr ⟨le_rfl, by omega, rfl, hzero⟩⟩
      exact Function.update_of_ne (by omega) ..
    · next hzero =>
      obtain ⟨hbytes, hne, hframe, hstop⟩ := ih hnext h
      have hpos : k + 1 ≤ pos := by
        rcases hstop with ⟨-, hpos⟩ | ⟨hle, -, hpos, -⟩ <;> omega
      refine ⟨hbytes, fun i hi hle => ?_, fun a ha => ?_, ?_⟩
      · rcases Nat.eq_or_lt_of_le hle with rfl | hlt
        · exact hzero
        · exact hne i hi hlt
      · rw [hframe a (by omega), Function.update_of_ne (by omega)]
      · rcases hstop with ⟨h₁, h₂⟩ | ⟨h₁, h₂, h₃, hzero'⟩
        · exact .inl ⟨by omega, by omega⟩
        · exact .inr ⟨by omega, by omega, h₃, hzero'⟩

/-- A field of `n` bytes that `strncpy` has copied into holds the first `n` bytes of the source. -/
theorem chars_strncpy_add (mem : ℕ → BitVec 8) (dst : ℕ) (src : ℕ → BitVec 8) (n : ℕ) :
    chars (fun i => (strncpy mem dst src n).1 (dst + i)) n = chars src n := by
  obtain ⟨mem', copied, pos, hloop⟩ : ∃ mem' copied pos,
      strncpyLoop src dst n 0 mem = (mem', copied, pos) := ⟨_, _, _, rfl⟩
  obtain ⟨hbytes, -, -, hstop⟩ := strncpyLoop_spec (by simp) hloop
  simp only [Nat.zero_add] at hstop
  simp only [strncpy, hloop]
  obtain ⟨rfl, rfl⟩ | ⟨-, hcopied, rfl, hzero⟩ := hstop
  · rw [if_neg (Nat.lt_irrefl _)]
    exact chars_congr hbytes
  · rw [if_pos hcopied]
    refine chars_congr_of_zero (fun i hi => ?_) hzero
    exact (Function.update_of_ne (by omega) _ _).trans (hbytes i (by omega))

/-- `strncpy` copies a string up to its end, or up to `n` characters. -/
theorem chars_strncpy (mem src : ℕ → BitVec 8) (n : ℕ) :
    chars (strncpy mem 0 src n).1 n = chars src n := by
  rw [← chars_strncpy_add mem 0 src n]
  simp only [Nat.zero_add]

/-- The call `strncpy(dst, src, len)`, for a source of `l` bytes, stores the bytes that fit and a
zero behind them if there is room, returns their number, and changes nothing outside of
`dst[0..len)`. -/
structure CopiesInside (mem : ℕ → BitVec 8) (dst : ℕ) (src : ℕ → BitVec 8) (len l : ℕ) : Prop where
  bytes : ∀ i < min len l, (strncpy mem dst src len).1 (dst + i) = src i
  zero : l < len → (strncpy mem dst src len).1 (dst + l) = 0
  count : (strncpy mem dst src len).2 = min len l
  frame : ∀ a, a < dst ∨ dst + len ≤ a → (strncpy mem dst src len).1 a = mem a

section Inside

variable {mem src : ℕ → BitVec 8} {dst len l : ℕ}

theorem HasLength.eq_of_zero {k : ℕ} (h : HasLength src l) (hzero : src k = 0)
    (hne : ∀ i < k, src i ≠ 0) : k = l := by
  rcases Nat.lt_trichotomy k l with hlt | rfl | hgt
  · exact absurd hzero (h.2 k hlt)
  · rfl
  · exact absurd h.1 (hne l hgt)

/-- A source that does not fit is cut off. -/
theorem strncpy_of_le (h : HasLength src l) (hle : len ≤ l) :
    (strncpy mem dst src len).2 = len ∧
      (∀ i < len, (strncpy mem dst src len).1 (dst + i) = src i) ∧
        ∀ a, a < dst ∨ dst + len ≤ a → (strncpy mem dst src len).1 a = mem a := by
  obtain ⟨mem', copied, pos, hloop⟩ : ∃ mem' copied pos,
      strncpyLoop src dst len 0 mem = (mem', copied, pos) := ⟨_, _, _, rfl⟩
  obtain ⟨hbytes, -, hframe, hstop⟩ := strncpyLoop_spec (by simp) hloop
  simp only [Nat.zero_add, Nat.add_zero] at hframe hstop
  obtain ⟨rfl, rfl⟩ | ⟨-, hlt, -, hzero⟩ := hstop
  · simp only [strncpy, hloop, lt_irrefl, if_false]
    exact ⟨trivial, hbytes, hframe⟩
  · exact absurd hzero (h.2 copied (by omega))

/-- A source that fits is followed by two zeros. -/
theorem strncpy_of_lt (h : HasLength src l) (hlt : l < len) :
    (strncpy mem dst src len).2 = l ∧
      (∀ i ≤ l, (strncpy mem dst src len).1 (dst + i) = src i) ∧
        (strncpy mem dst src len).1 (dst + (l + 1)) = 0 ∧
          ∀ a, a < dst ∨ dst + (l + 2) ≤ a → (strncpy mem dst src len).1 a = mem a := by
  obtain ⟨mem', copied, pos, hloop⟩ : ∃ mem' copied pos,
      strncpyLoop src dst len 0 mem = (mem', copied, pos) := ⟨_, _, _, rfl⟩
  obtain ⟨hbytes, hne, hframe, hstop⟩ := strncpyLoop_spec (by simp) hloop
  simp only [Nat.zero_add, Nat.add_zero] at hframe hstop
  obtain ⟨rfl, rfl⟩ | ⟨-, hcopied, rfl, hzero⟩ := hstop
  · exact absurd h.1 (hne l hlt (Nat.zero_le l))
  · obtain rfl := h.eq_of_zero hzero fun i hi => hne i hi (Nat.zero_le i)
    simp only [strncpy, hloop, if_pos hcopied]
    refine ⟨trivial, fun i hi => ?_, Function.update_self .., fun a ha => ?_⟩
    · rw [Function.update_of_ne (by omega)]
      exact hbytes i (by omega)
    · rw [Function.update_of_ne (by omega)]
      exact hframe a (by omega)

/-- `strncpy` stays inside of the field, whatever the memory holds, exactly if the source does not
have one byte less than the field. -/
theorem strncpy_inside_iff (h : HasLength src l) :
    (∀ mem dst, CopiesInside mem dst src len l) ↔ l + 1 ≠ len := by
  constructor
  · rintro hinside rfl
    -- the second zero is written to `dst[len]`
    have hframe := (hinside (fun _ => 1) 0).frame (0 + (l + 1)) (.inr le_rfl)
    rw [(strncpy_of_lt h (Nat.lt_succ_self l)).2.2.1] at hframe
    cases hframe
  · intro hne mem dst
    by_cases hlt : l < len
    · obtain ⟨hcount, hbytes, -, hframe⟩ := @strncpy_of_lt mem src dst len l h hlt
      have hmin : min len l = l := Nat.min_eq_right hlt.le
      refine ⟨fun i hi => hbytes i (by omega), fun _ => ?_, by rw [hcount, hmin],
        fun a ha => hframe a (by omega)⟩
      rw [hbytes l le_rfl, h.1]
    · obtain ⟨hcount, hbytes, hframe⟩ := @strncpy_of_le mem src dst len l h (Nat.not_lt.1 hlt)
      have hmin : min len l = len := Nat.min_eq_left (Nat.not_lt.1 hlt)
      exact ⟨fun i hi => hbytes i (by omega), fun h => absurd h hlt, by rw [hcount, hmin], hframe⟩

end Inside

/-- A name of 15 bytes is copied into a field of 16 bytes, and the byte behind the field is
cleared. -/
theorem exists_strncpy_outside : ∃ (mem : ℕ → BitVec 8) (src : ℕ → BitVec 8),
    HasLength src 15 ∧ (strncpy mem 0 src 16).1 16 ≠ mem 16 ∧ ¬CopiesInside mem 0 src 16 15 := by
  have hlength : HasLength (cstr (List.replicate 15 97)) 15 := by
    unfold HasLength
    decide
  have hne : (strncpy (fun _ => 1) 0 (cstr (List.replicate 15 97)) 16).1 16 ≠ 1 := by decide
  exact ⟨fun _ => 1, _, hlength, hne, fun h => hne (h.frame 16 (.inr (by decide)))⟩

/-- A name of 4 bytes in a field of 16 bytes. -/
theorem strncpy_inside_root : HasLength (cstr [0x72, 0x6F, 0x6F, 0x74]) 4 ∧
    ∀ mem dst, CopiesInside mem dst (cstr [0x72, 0x6F, 0x6F, 0x74]) 16 4 := by
  have hlength : HasLength (cstr [0x72, 0x6F, 0x6F, 0x74]) 4 := by
    unfold HasLength
    decide
  exact ⟨hlength, (strncpy_inside_iff hlength).2 (by decide)⟩

/-! ### Comparing what has been copied -/

section Stored

variable {s t : ℕ → BitVec 8} {l m n : ℕ}

theorem chars_eq_slice (h : HasLength s l) : chars s n = slice s 0 (min n l) := by
  induction n generalizing s l with
  | zero =>
    rw [Nat.zero_min]
    rfl
  | succ n ih =>
    rw [chars]
    cases l with
    | zero =>
      rw [if_pos h.1, Nat.min_zero]
      rfl
    | succ l =>
      have htail : HasLength (fun i => s (i + 1)) l := ⟨h.1, fun i hi => h.2 (i + 1) (by omega)⟩
      rw [if_neg (h.2 0 (Nat.succ_pos l)), ih htail, Nat.add_min_add_right, slice, slice,
        List.range_succ_eq_map, List.map_cons, List.map_map]
      simp [Function.comp_def]

/-- The bytes of a string with its zero, `n` at most, are given by those before the zero. -/
theorem take_slice_eq (h : HasLength s l) : (slice s 0 (l + 1)).take n =
    if (chars s n).length < n then chars s n ++ [0] else chars s n := by
  rw [chars_eq_slice h, length_slice, take_slice]
  by_cases hlt : l < n
  · have hlast : slice s (0 + l) 1 = [0] := by simp [slice, h.1]
    rw [if_pos (by omega), Nat.min_eq_right (Nat.succ_le_of_lt hlt), Nat.min_eq_right hlt.le,
      ← hlast]
    exact slice_add s 0 l 1
  · rw [if_neg (by omega), Nat.min_eq_left (by omega), Nat.min_eq_left (by omega)]

/-- Conversely, those before the zero are given by all. -/
theorem takeWhile_take_slice (h : HasLength s l) :
    ((slice s 0 (l + 1)).take n).takeWhile (· ≠ 0) = chars s n := by
  have hne : ∀ c ∈ chars s n, decide (c ≠ 0) = true := by
    intro c hc
    rw [chars_eq_slice h] at hc
    obtain ⟨i, hi, rfl⟩ := List.mem_map.1 hc
    have hi' := List.mem_range.1 hi
    rw [Nat.zero_add]
    exact decide_eq_true (h.2 i (by omega))
  rw [take_slice_eq h]
  split
  · rw [List.takeWhile_append_of_pos hne]
    simp
  · exact List.takeWhile_eq_self_iff.2 hne

theorem chars_eq_iff_take (hs : HasLength s l) (ht : HasLength t m) : chars s n = chars t n ↔
    (slice s 0 (l + 1)).take n = (slice t 0 (m + 1)).take n := by
  constructor
  · intro h
    rw [take_slice_eq hs, take_slice_eq ht, h]
  · intro h
    rw [← takeWhile_take_slice hs, ← takeWhile_take_slice ht, h]

end Stored

end RiscvLab
