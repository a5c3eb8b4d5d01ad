import ConfigLedger.Proofs.Number.Rounding

/-!
# Naturals that binary64 tells apart

A version is compared through its place on the binary64 number line, which is exact only
below `exactBound`, that is `2 ^ 53`. There no bit is rounded away: the magnitude of a natural
`n` is a multiple of `perField` that depends on `n.log2` alone, plus the bits of `n` shifted
up to the top of the significand (`magnitudeNearest_units`). It follows that the conversion
keeps the strict order (`magnitudeNearest_units_lt`), so such naturals are equal as binary64
numbers only if they are equal (`equal_ofUInt64`).
-/

namespace ConfigLedger
namespace Binary64

/-- Below this bound every natural is a binary64 number. -/
def exactBound : Nat :=
  0x20000000000000

theorem unitsPerOne_eq {a b : Nat} (h : a + b = 1074) : unitsPerOne = 2 ^ a * 2 ^ b := by
  rw [unitsPerOne, ← h, Nat.shiftLeft_eq, Nat.one_mul, pow_add]

theorem log2_le_of_lt_exactBound {n : Nat} (h : n < exactBound) : n.log2 ≤ 52 := by
  by_cases hn : n = 0
  · simp [hn]
  · have : n.log2 < 53 := (Nat.log2_lt hn).2 h
    omega

theorem log2_mul_unitsPerOne {n : Nat} (hn : n ≠ 0) :
    (n * unitsPerOne).log2 = n.log2 + 1074 := by
  obtain ⟨k, hk⟩ : ∃ k, k = 1074 := ⟨_, rfl⟩
  have hunits : unitsPerOne = 2 ^ k := by
    rw [unitsPerOne_eq (show k + 0 = 1074 from hk), pow_zero, Nat.mul_one]
  rw [hunits, ← hk, Nat.log2_eq_iff (Nat.mul_ne_zero hn (by positivity)), pow_add, add_right_comm,
    pow_add]
  exact ⟨Nat.mul_le_mul_right _ (Nat.log2_self_le hn),
    Nat.mul_lt_mul_of_pos_right Nat.lt_log2_self (by positivity)⟩

/-- **No bit is rounded away below the bound.** The significand of `n` is `n` itself, shifted up
until it has 53 bits. -/
theorem magnitudeNearest_units {n : Nat} (hn : n ≠ 0) (h : n < exactBound) :
    magnitudeNearest (n * unitsPerOne) 1 =
      (n.log2 + 1022) * perField + n * 2 ^ (52 - n.log2) := by
  have hlog := log2_le_of_lt_exactBound h
  have hshift : n.log2 + 1074 - 52 = n.log2 + 1022 := by omega
  have hsplit : n * unitsPerOne = n * 2 ^ (52 - n.log2) * 2 ^ (n.log2 + 1022) := by
    rw [unitsPerOne_eq (show 52 - n.log2 + (n.log2 + 1022) = 1074 by omega), Nat.mul_assoc]
  rw [magnitudeNearest, Nat.div_one, log2_mul_unitsPerOne hn, hshift, Nat.shiftLeft_eq,
    Nat.one_mul, hsplit, roundHalfEven, Nat.mul_mod_left, Nat.mul_div_cancel _ (by positivity)]
  simp

/-- The significand of a natural below the bound has 53 bits. -/
theorem significand_bounds {n : Nat} (hn : n ≠ 0) (h : n < exactBound) :
    perField ≤ n * 2 ^ (52 - n.log2) ∧ n * 2 ^ (52 - n.log2) < 2 * perField := by
  have hlog := log2_le_of_lt_exactBound h
  have hfield : perField = 2 ^ n.log2 * 2 ^ (52 - n.log2) := by
    rw [perField_eq, ← pow_add, Nat.add_sub_cancel' hlog]
  constructor
  · rw [hfield]
    exact Nat.mul_le_mul_right _ (Nat.log2_self_le hn)
  · rw [hfield, ← Nat.mul_assoc, ← pow_succ']
    exact Nat.mul_lt_mul_of_pos_right Nat.lt_log2_self (by positivity)

theorem magnitudeNearest_zero : magnitudeNearest (0 * unitsPerOne) 1 = 0 := by
  simp [magnitudeNearest, roundHalfEven]

/-- Below the bound the magnitude rises strictly. -/
theorem magnitudeNearest_units_lt {n m : Nat} (hnm : n < m) (h : m < exactBound) :
    magnitudeNearest (n * unitsPerOne) 1 < magnitudeNearest (m * unitsPerOne) 1 := by
  have hm : m ≠ 0 := by omega
  obtain ⟨hlow, -⟩ := significand_bounds hm h
  rw [magnitudeNearest_units hm h]
  -- zero has no leading bit, so it is looked at by itself
  by_cases hn : n = 0
  · subst hn
    rw [magnitudeNearest_zero]
    have : 0 < perField := by decide
    omega
  have hn' : n < exactBound := hnm.trans h
  obtain ⟨-, hhigh⟩ := significand_bounds hn hn'
  rw [magnitudeNearest_units hn hn']
  rcases Nat.eq_or_lt_of_le (log2_le_log2 hnm.le) with hlog | hlog
  · -- the same exponent field, so the significands decide
    rw [hlog]
    have := Nat.mul_lt_mul_of_pos_right hnm (show 0 < 2 ^ (52 - m.log2) by positivity)
    omega
  · -- a larger exponent field outweighs every significand
    have := Nat.mul_le_mul_right perField (show n.log2 + 1 ≤ m.log2 from hlog)
    rw [Nat.add_mul] at this
    rw [Nat.add_mul, Nat.add_mul]
    omega

theorem rank_ofUInt64_lt {n m : UInt64} (hnm : n.toNat < m.toNat) (h : m.toNat < exactBound) :
    (ofUInt64 n).rank < (ofUInt64 m).rank := by
  rw [rank_ofUInt64, rank_ofUInt64]
  exact_mod_cast magnitudeNearest_units_lt hnm h

/-- Small naturals are equal as binary64 numbers only if they are equal. -/
theorem equal_ofUInt64 {n m : UInt64} (hn : n.toNat < exactBound) (hm : m.toNat < exactBound) :
    (ofUInt64 n).equal (ofUInt64 m) = true ↔ n = m := by
  rw [equal, beq_iff_eq, ← UInt64.toNat_inj]
  refine ⟨fun heq => ?_, fun heq => by rw [UInt64.toNat_inj.1 heq]⟩
  rcases lt_trichotomy n.toNat m.toNat with hlt | h | hgt
  · exact absurd heq (rank_ofUInt64_lt hlt hm).ne
  · exact h
  · exact absurd heq (rank_ofUInt64_lt hgt hn).ne'

end Binary64
end ConfigLedger
