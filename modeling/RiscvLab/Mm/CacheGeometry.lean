import RiscvLab.Mm.SlabSteps

/-!
# The geometry of a cache

`kmem_cache_create` rounds the size of the objects up to a power of two in 64 bits and stores it in
16, and takes the order of the slabs from the size before rounding. `slab_create` writes the
addresses of the objects of a slab behind `struct slab`, in the page of that structure. Above 32768
bytes the rounded size is stored as 0; up to 8 bytes there are at least 512 objects in a page, and
their addresses do not fit into the page of the slab. In between everything fits
(`wellSized_iff`).

## Main definitions

* `WellSized` : a cache in whose slabs the objects and the table of their addresses fit.

Source: `mm/slab.c`, lines 46–56, 78–93 and 145–162; `include/mm/slab.h`, lines 32–40.
-/

namespace RiscvLab.Mm

/-- A cache for objects of `n` bytes in whose slabs everything fits: the size is a power of two, a
slab has at least four objects, they lie in its block, and the words of the table behind `struct
slab` lie in its page. -/
structure WellSized (n : BitVec 16) (cache : KmemCache) : Prop where
  pow : ∃ k, cache.size = 2 ^ k
  le : n.toNat ≤ cache.size
  count : 4 ≤ cache.countPerSlab
  objs : cache.countPerSlab * cache.size ≤ 2 ^ cache.order * pgSize
  table : ∀ slab, ∀ i < cache.countPerSlab,
    freeListField slab + 8 * (i + 1) + 8 ≤ getPageAddr slab + pgSize

variable {n : BitVec 16} {cache : KmemCache}

/-- A slab has room for 506 addresses. -/
theorem WellSized.count_le (h : WellSized n cache) : cache.countPerSlab ≤ 506 := by
  have hpos := h.count
  have := h.table 0 (cache.countPerSlab - 1) (by omega)
  simp only [freeListField, pgSize] at this
  omega

theorem WellSized.size_pos (h : WellSized n cache) : 0 < cache.size := by
  obtain ⟨k, hk⟩ := h.pow
  rw [hk]
  exact Nat.two_pow_pos k

/-- The size that is stored for objects of more than half of `2 ^ 16` bytes. -/
theorem ofSize_size_eq_zero (cpu : Fin ncpu → ℕ) (h : 32768 < n.toNat) :
    (KmemCache.ofSize n cpu).size = 0 := by
  have hwide : (n.setWidth 64).toNat = n.toNat := by
    rw [BitVec.toNat_setWidth]
    exact Nat.mod_eq_of_lt (by omega)
  have hpow := nextPowerOf2_toNat (n := n.setWidth 64) (by omega) (by omega)
  have hle := Nat.clog_le_of_le_pow (show n.toNat ≤ 2 ^ 16 by omega)
  have hlt := (Nat.lt_clog_iff_pow_lt (by decide)).mpr (show 2 ^ 15 < n.toNat by omega)
  have hclog : Nat.clog 2 n.toNat = 16 := by omega
  rw [KmemCache.ofSize, BitVec.toNat_setWidth, hpow, hwide, hclog]
  rfl

/-- Small objects are too many for the table. -/
theorem le_ofSize_countPerSlab (cpu : Fin ncpu → ℕ) (h : n.toNat ≤ 8) :
    512 ≤ (KmemCache.ofSize n cpu).countPerSlab := by
  rcases Nat.eq_zero_or_pos n.toNat with h₀ | h₁
  · obtain rfl : n = 0 := BitVec.eq_of_toNat_eq h₀
    have horder : calcSlabOrder 0 = 0 := calcSlabOrder_eq_zero (by decide)
    simp only [KmemCache.ofSize, horder]
    decide
  · have hclog := Nat.clog_le_of_le_pow (show n.toNat ≤ 2 ^ 3 by omega)
    rw [ofSize_countPerSlab cpu h₁ (by omega)]
    exact Nat.pow_le_pow_right (n := 2) (i := 9) (by decide) (by omega)

/-- `kmem_cache_create` makes a cache in whose slabs everything fits exactly for objects of 9 to
32768 bytes. -/
theorem wellSized_iff (n : BitVec 16) (cpu : Fin ncpu → ℕ) :
    WellSized n (KmemCache.ofSize n cpu) ↔ 9 ≤ n.toNat ∧ n.toNat ≤ 32768 := by
  constructor
  · intro h
    refine ⟨?_, ?_⟩
    · by_contra hlt
      have h512 := le_ofSize_countPerSlab cpu (show n.toNat ≤ 8 by omega)
      have h506 := h.count_le
      omega
    · by_contra hgt
      have h₀ := ofSize_size_eq_zero cpu (show 32768 < n.toNat by omega)
      exact h.size_pos.ne' h₀
  · rintro ⟨h9, h32768⟩
    have hsize := ofSize_size cpu (show 1 ≤ n.toNat by omega) h32768
    refine ⟨⟨_, hsize⟩, ?_, four_le_ofSize_countPerSlab cpu (by omega) h32768,
      (ofSize_count_mul_size cpu (by omega) h32768).le, fun slab i hi => ?_⟩
    · rw [hsize]
      exact Nat.le_pow_clog (by decide) _
    · have hle := ofSize_countPerSlab_le cpu h9 h32768
      simp only [freeListField, pgSize]
      omega

/-- Objects of 8 bytes: the last of the 512 addresses lie behind the page of the slab. -/
theorem not_wellSized_eight : ¬WellSized 8 (KmemCache.ofSize 8 fun _ => 0) := by
  intro h
  have h506 := h.count_le
  have h512 := le_ofSize_countPerSlab (n := 8) (fun _ => 0) (by decide)
  omega

end RiscvLab.Mm
