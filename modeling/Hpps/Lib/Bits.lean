import Mathlib

/-! Rounding up to a power of two by smearing the highest bit over all lower ones. -/
namespace Bits

variable {m x n w k : ℕ}

/-- `x` has the bits of `m`, each copied down by the first `n` multiples of `w`. -/
def Smeared (m w n x : ℕ) : Prop := ∀ i, x.testBit i = true ↔ ∃ j < n, m.testBit (i + j * w) = true

theorem smeared_self : Smeared m w 1 m := by
  intro i
  simp

/-- Half the distance, twice the copies. -/
theorem Smeared.half (h : Smeared m (2 * w) n x) : Smeared m w (2 * n) (x ||| x >>> w) := by
  intro i
  rw [Nat.testBit_or, Bool.or_eq_true, Nat.testBit_shiftRight, h i, h (w + i)]
  constructor
  · rintro (⟨j, hj, hm⟩ | ⟨j, hj, hm⟩)
    · exact ⟨2 * j, by omega, by rwa [show i + 2 * j * w = i + j * (2 * w) by ring]⟩
    · exact ⟨2 * j + 1, by omega, by rwa [show i + (2 * j + 1) * w = w + i + j * (2 * w) by ring]⟩
  · rintro ⟨j, hj, hm⟩
    rcases Nat.even_or_odd' j with ⟨c, rfl | rfl⟩
    · exact .inl ⟨c, by omega, by rwa [show i + c * (2 * w) = i + 2 * c * w by ring]⟩
    · exact .inr ⟨c, by omega, by rwa [show w + i + c * (2 * w) = i + (2 * c + 1) * w by ring]⟩

/-- Copied down by every distance, the highest bit fills all lower ones. -/
theorem Smeared.eq (h : Smeared m 1 n x) (hm : m ≠ 0) (hn : m < 2 ^ n) : x = 2 ^ (m.log2 + 1) - 1 := by
  have hlog : m.log2 < n := (Nat.log2_lt hm).mpr hn
  apply Nat.eq_of_testBit_eq
  intro i
  rw [Nat.testBit_two_pow_sub_one, Bool.eq_iff_iff, h i, decide_eq_true_iff]
  constructor
  · rintro ⟨j, -, hj⟩
    by_contra hi
    have hlt : m < 2 ^ (i + j * 1) := Nat.lt_log2_self.trans_le (Nat.pow_le_pow_right (by omega) (by omega))
    rw [Nat.testBit_lt_two_pow hlt] at hj
    cases hj
  · intro hi
    refine ⟨m.log2 - i, by omega, ?_⟩
    rw [show i + (m.log2 - i) * 1 = m.log2 by omega]
    exact Nat.testBit_log2 hm

/-- The least power of two from `m + 1` on. -/
theorem isLeast_two_pow (hm : m ≠ 0) : IsLeast {c | (∃ k, c = 2 ^ k) ∧ m + 1 ≤ c} (2 ^ (m.log2 + 1)) := by
  refine ⟨⟨⟨_, rfl⟩, Nat.lt_log2_self⟩, ?_⟩
  rintro _ ⟨⟨k, rfl⟩, hk⟩
  apply Nat.pow_le_pow_right (by omega)
  by_contra hlt
  have hle : 2 ^ k ≤ 2 ^ m.log2 := Nat.pow_le_pow_right (by omega) (by omega)
  have hself : 2 ^ m.log2 ≤ m := Nat.log2_self_le hm
  omega

end Bits
