import ConfigLedger.Number.Binary64
import Mathlib.Algebra.Group.Nat.Defs
import Mathlib.Order.Monotone.Basic

/-!
# Ranks and exact values

Numbers are compared by rank, that is by the bits of their encoding. Is this the order of the
numbers themselves?

It is (`Binary64.rank_lt_rank_iff`). From one magnitude to the next the value grows: by one unit of
the spacing where the exponent field stays, and where the fraction is full, to the first value of
the next field. The sign turns the order round on both sides alike.
-/

namespace ConfigLedger
namespace Binary64

/-- The exact value in units of `2 ^ (-1074)`, with its sign. -/
def amount (x : Binary64) : Int :=
  if x.negative then -(x.units : Int) else x.units

theorem unitsOfMagnitude_of_lt {magnitude : Nat} (h : magnitude < perField) :
    unitsOfMagnitude magnitude = magnitude := by
  simp [unitsOfMagnitude, Nat.div_eq_of_lt h]

/-- With an exponent field above the lowest, the fraction has a leading bit before it. -/
theorem unitsOfMagnitude_add (field : Nat) {fraction : Nat} (hfraction : fraction < perField) :
    unitsOfMagnitude ((field + 1) * perField + fraction) =
      (perField + fraction) * 2 ^ field := by
  have hpos : 0 < perField := by decide
  have hquotient : ((field + 1) * perField + fraction) / perField = field + 1 := by
    rw [Nat.mul_comm, Nat.mul_add_div hpos, Nat.div_eq_of_lt hfraction, Nat.add_zero]
  have hremainder : ((field + 1) * perField + fraction) % perField = fraction := by
    rw [Nat.mul_comm, Nat.mul_add_mod, Nat.mod_eq_of_lt hfraction]
  rw [unitsOfMagnitude, hquotient, hremainder]
  exact Nat.shiftLeft_eq _ _

/-- **The next magnitude has a greater value**, also where the exponent field changes. -/
theorem strictMono_unitsOfMagnitude : StrictMono unitsOfMagnitude := by
  -- the magnitude is cut into its field and its fraction, and a step changes the one or the other
  refine strictMono_nat_of_lt_succ fun magnitude => ?_
  have hpos : 0 < perField := by decide
  have hfraction : magnitude % perField < perField := Nat.mod_lt _ hpos
  have hsplit : magnitude = magnitude / perField * perField + magnitude % perField := by
    rw [Nat.mul_comm]
    exact (Nat.div_add_mod _ _).symm
  generalize magnitude / perField = field at hsplit
  generalize magnitude % perField = fraction at hsplit hfraction
  subst hsplit
  rcases Nat.lt_or_eq_of_le (Nat.succ_le_of_lt hfraction) with hlt | hlast
  · -- the same field, and one more in the fraction
    cases field with
    | zero =>
      rw [Nat.zero_mul, Nat.zero_add, unitsOfMagnitude_of_lt hfraction, unitsOfMagnitude_of_lt hlt]
      exact Nat.lt_succ_self _
    | succ field =>
      rw [Nat.add_assoc, unitsOfMagnitude_add field hfraction, unitsOfMagnitude_add field hlt]
      exact Nat.mul_lt_mul_of_pos_right (Nat.lt_succ_self _) (Nat.two_pow_pos field)
  · -- the fraction is full, so the next field begins
    have hnext : field * perField + fraction + 1 = (field + 1) * perField + 0 := by
      rw [Nat.succ_mul, ← hlast]
      rfl
    rw [hnext, unitsOfMagnitude_add field hpos, Nat.add_zero]
    cases field with
    | zero =>
      rw [Nat.zero_mul, Nat.zero_add, unitsOfMagnitude_of_lt hfraction, Nat.pow_zero, Nat.mul_one]
      exact hfraction
    | succ field =>
      rw [unitsOfMagnitude_add field hfraction, Nat.pow_succ', ← Nat.mul_assoc]
      exact Nat.mul_lt_mul_of_pos_right (by omega) (Nat.two_pow_pos field)

/-- **Ranks are ordered as the exact values are.** -/
theorem rank_lt_rank_iff {x y : Binary64} : x.rank < y.rank ↔ x.amount < y.amount := by
  have hlt (m n : Nat) : unitsOfMagnitude m < unitsOfMagnitude n ↔ m < n :=
    strictMono_unitsOfMagnitude.lt_iff_lt
  -- a value is compared with zero where only one of the signs is negative
  have hpos (m : Nat) : 0 < unitsOfMagnitude m ↔ 0 < m := hlt 0 m
  have hx := hpos x.magnitude
  have hy := hpos y.magnitude
  have hxy := hlt x.magnitude y.magnitude
  have hyx := hlt y.magnitude x.magnitude
  rw [rank, rank, amount, amount, units, units]
  split <;> split <;> omega

end Binary64
end ConfigLedger
