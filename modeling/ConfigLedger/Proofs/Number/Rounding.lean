import ConfigLedger.Number.Binary64
import Mathlib.Data.Nat.Log
import Mathlib.Tactic.Linarith
import Mathlib.Tactic.Ring

/-!
# Rounding keeps the order

The magnitude nearest to a quotient never falls when the quotient rises
(`magnitudeNearest_mono`). Where the two quotients have the same leading bit, the same number of
bits is dropped and the significands decide; otherwise the exponent field of the larger one
outweighs what its significand can be short of.

All 64-bit naturals are in range, so their places on the binary64 number line rise with them
(`rank_ofUInt64_le`). They need not rise strictly: naturals that are rounded to one number stand
at one place (`ofUInt64_eq_iff`).
-/

namespace ConfigLedger
namespace Binary64

theorem perField_eq : perField = 2 ^ 52 := rfl

theorem log2_le_log2 {n m : Nat} (h : n ≤ m) : n.log2 ≤ m.log2 := by
  rw [Nat.log2_eq_log_two, Nat.log2_eq_log_two]
  exact Nat.log_mono_right h

/-! ### Quotients -/

theorem roundHalfEven_mul (k : Nat) {den : Nat} (hden : 0 < den) :
    roundHalfEven (k * den) den = k := by
  rw [roundHalfEven, Nat.mul_mod_left, Nat.mul_div_cancel _ hden]
  simp [hden]

theorem roundHalfEven_mono {num num' : Nat} (den : Nat) (h : num ≤ num') :
    roundHalfEven num den ≤ roundHalfEven num' den := by
  have hquotient : num / den ≤ num' / den := Nat.div_le_div_right h
  have hsplit := Nat.div_add_mod num den
  have hsplit' := Nat.div_add_mod num' den
  simp only [roundHalfEven]
  rcases Nat.eq_or_lt_of_le hquotient with heq | hlt
  · -- both lie between the same two naturals, so what is left over decides
    have hremainder : num % den ≤ num' % den := by
      rw [heq] at hsplit
      omega
    rw [heq]
    split <;> split <;> (try split) <;> (try split) <;> omega
  · -- a larger quotient makes up for any remainder
    split <;> split <;> (try split) <;> (try split) <;> omega

section

variable {num num' den : Nat}

/-- A significand has 53 bits, up to a carry. -/
theorem roundHalfEven_shifted_le (num : Nat) (hden : 0 < den) :
    roundHalfEven num (den <<< ((num / den).log2 - 52)) ≤ 2 * perField := by
  obtain ⟨shift, hshift⟩ : ∃ shift, shift = (num / den).log2 - 52 := ⟨_, rfl⟩
  -- what the shift leaves is below a power of two
  have hpow : 2 ^ ((num / den).log2 + 1) ≤ 2 ^ (53 + shift) :=
    Nat.pow_le_pow_right (by decide) (by omega)
  have hlt : num / den < 2 ^ (53 + shift) := Nat.lt_log2_self.trans_le hpow
  have hnum : num ≤ 2 * perField * (den <<< shift) := by
    calc num ≤ 2 ^ (53 + shift) * den := ((Nat.div_lt_iff_lt_mul hden).1 hlt).le
      _ = 2 * perField * (den <<< shift) := by
        rw [Nat.shiftLeft_eq, pow_add, perField_eq]
        ring
  have hpos : 0 < den <<< shift := by
    rw [Nat.shiftLeft_eq]
    positivity
  rw [← hshift]
  exact (roundHalfEven_mono _ hnum).trans (roundHalfEven_mul _ hpos).le

/-- A significand that bits were dropped from has its leading bit. -/
theorem perField_le_roundHalfEven (hden : 0 < den) (h : 52 < (num / den).log2) :
    perField ≤ roundHalfEven num (den <<< ((num / den).log2 - 52)) := by
  obtain ⟨shift, hshift⟩ : ∃ shift, shift = (num / den).log2 - 52 := ⟨_, rfl⟩
  have hne : num / den ≠ 0 := fun hzero => by simp [hzero] at h
  -- the leading bit of the quotient is not dropped
  have hnum : perField * (den <<< shift) ≤ num := by
    calc perField * (den <<< shift)
        = 2 ^ (52 + shift) * den := by
          rw [Nat.shiftLeft_eq, pow_add, perField_eq]
          ring
      _ = 2 ^ (num / den).log2 * den := by rw [hshift, Nat.add_sub_cancel' h.le]
      _ ≤ num / den * den := Nat.mul_le_mul_right _ (Nat.log2_self_le hne)
      _ ≤ num := Nat.div_mul_le_self _ _
  have hpos : 0 < den <<< shift := by
    rw [Nat.shiftLeft_eq]
    positivity
  rw [← hshift]
  exact (roundHalfEven_mul _ hpos).ge.trans (roundHalfEven_mono _ hnum)

/-- **Rounding keeps the order.** -/
theorem magnitudeNearest_mono (hden : 0 < den) (h : num ≤ num') :
    magnitudeNearest num den ≤ magnitudeNearest num' den := by
  have hlog : (num / den).log2 - 52 ≤ (num' / den).log2 - 52 :=
    Nat.sub_le_sub_right (log2_le_log2 (Nat.div_le_div_right h)) 52
  rw [magnitudeNearest, magnitudeNearest]
  rcases Nat.eq_or_lt_of_le hlog with heq | hlt
  · -- the same bits are dropped, so the significands decide
    rw [heq]
    exact Nat.add_le_add_left (roundHalfEven_mono _ h) _
  · -- the larger exponent field makes up for any significand
    have hhigh := roundHalfEven_shifted_le num hden
    have hlow := perField_le_roundHalfEven hden (show 52 < (num' / den).log2 by omega)
    have hfields := Nat.mul_le_mul_right perField (Nat.succ_le_of_lt hlt)
    rw [Nat.succ_mul] at hfields
    omega

end

/-! ### 64-bit naturals -/

theorem magnitudeNearest_ofUInt64_lt (n : UInt64) :
    magnitudeNearest (n.toNat * unitsPerOne) 1 < 0x7ff0000000000000 := by
  have hle : n.toNat ≤ 0x10000000000000000 := n.toNat_lt.le
  have hlargest : magnitudeNearest (0x10000000000000000 * unitsPerOne) 1 < 0x7ff0000000000000 := by
    decide +kernel
  exact (magnitudeNearest_mono Nat.one_pos (Nat.mul_le_mul_right _ hle)).trans_lt hlargest

theorem ofUInt64_eq (n : UInt64) :
    ofUInt64 n =
      ⟨false, magnitudeNearest (n.toNat * unitsPerOne) 1, magnitudeNearest_ofUInt64_lt n⟩ := by
  rw [ofUInt64, ofNat?, round?, dif_pos (magnitudeNearest_ofUInt64_lt n)]
  rfl

theorem rank_ofUInt64 (n : UInt64) :
    (ofUInt64 n).rank = (magnitudeNearest (n.toNat * unitsPerOne) 1 : Int) := by
  rw [ofUInt64_eq]
  rfl

/-- **The places of 64-bit naturals rise with them**, though not strictly. -/
theorem rank_ofUInt64_le {n m : UInt64} (h : n ≤ m) :
    (ofUInt64 n).rank ≤ (ofUInt64 m).rank := by
  have hunits : n.toNat * unitsPerOne ≤ m.toNat * unitsPerOne :=
    Nat.mul_le_mul_right _ (UInt64.le_iff_toNat_le.1 h)
  rw [rank_ofUInt64, rank_ofUInt64]
  exact_mod_cast magnitudeNearest_mono Nat.one_pos hunits

/-- Naturals that stand at one place are rounded to one number. -/
theorem ofUInt64_eq_iff {n m : UInt64} :
    ofUInt64 n = ofUInt64 m ↔ (ofUInt64 n).rank = (ofUInt64 m).rank := by
  refine ⟨congrArg rank, fun h => ?_⟩
  rw [rank_ofUInt64, rank_ofUInt64, Int.ofNat_inj] at h
  simp only [ofUInt64_eq, h]

end Binary64
end ConfigLedger
