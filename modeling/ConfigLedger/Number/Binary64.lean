/-!
# Finite binary64 numbers

A finite binary64 number is a sign and a **magnitude**: the 63 low bits of its encoding,
exponent field above fraction field. Read as a natural number the magnitude grows with the
absolute value, so comparing numbers is comparing signed magnitudes and needs no arithmetic:

* `Binary64.rank` is that signed magnitude. Two numbers are equal in the numerical sense
  exactly when their ranks are, and the two zeros share the rank `0`;
* `Binary64.units` is the absolute value counted in units of `2 ^ (-1074)`, the smallest
  positive number, which makes every finite number an exact natural multiple;
* `Binary64.round?` takes an exact quotient of natural numbers, counted in the same units,
  to the nearest number, a tie going to the even magnitude. Conversion of naturals,
  multiplication and division are this one rounding applied to the exact result.
-/

namespace ConfigLedger

/-- A finite binary64 number: its sign and the remaining 63 bits of its encoding. The exponent field
of all ones, which encodes infinities and the undefined results, is excluded. -/
structure Binary64 where
  negative : Bool
  magnitude : Nat
  magnitude_lt : magnitude < 0x7ff0000000000000
deriving DecidableEq

namespace Binary64

/-- The place of a number among all finite numbers. Both zeros have rank `0`. -/
def rank (x : Binary64) : Int :=
  if x.negative then -(x.magnitude : Int) else (x.magnitude : Int)

/-- Numerical order. -/
instance : Ord Binary64 := ⟨fun x y => compare x.rank y.rank⟩

/-- Numerical equality, for which the two zeros are one number. -/
def equal (x y : Binary64) : Bool :=
  x.rank == y.rank

/-- The positive zero. -/
def zero : Binary64 :=
  ⟨false, 0, by decide⟩

/-- The number with the other sign. -/
def neg (x : Binary64) : Binary64 :=
  { x with negative := !x.negative }

/-- The encoding as one 64-bit word, sign in the highest bit. -/
def bits (x : Binary64) : Nat :=
  (if x.negative then 0x8000000000000000 else 0) + x.magnitude

/-! ### Exact values -/

/-- How many magnitudes share one exponent field. -/
def perField : Nat :=
  0x10000000000000

/-- The absolute value that a magnitude encodes, in units of `2 ^ (-1074)`. The lowest two exponent
fields share the spacing of one unit; each further field doubles the spacing. -/
def unitsOfMagnitude (magnitude : Nat) : Nat :=
  let field := magnitude / perField
  if field = 0 then magnitude
  else (perField + magnitude % perField) <<< (field - 1)

/-- The absolute value in units of `2 ^ (-1074)`. -/
def units (x : Binary64) : Nat :=
  unitsOfMagnitude x.magnitude

/-- How many units make one. -/
def unitsPerOne : Nat :=
  1 <<< 1074

/-! ### Rounding -/

/-- The natural number nearest to `num / den`; halfway between two, the even one. -/
def roundHalfEven (num den : Nat) : Nat :=
  let quotient := num / den
  let remainder := num % den
  if 2 * remainder < den then quotient
  else if den < 2 * remainder then quotient + 1
  else quotient + quotient % 2

/-- The magnitude nearest to `num / den` units. The quotient keeps 53 significant bits: `shift` of
its low bits are dropped by the rounding, and a carry out of the significand runs into the exponent
field, where it belongs. -/
def magnitudeNearest (num den : Nat) : Nat :=
  let shift := (num / den).log2 - 52
  shift * perField + roundHalfEven num (den <<< shift)

/-- The finite number nearest to `num / den` units with the given sign, if it is not too large. -/
def round? (negative : Bool) (num den : Nat) : Option Binary64 :=
  let magnitude := magnitudeNearest num den
  if h : magnitude < 0x7ff0000000000000 then some ⟨negative, magnitude, h⟩ else none

/-- The number nearest to a natural number, if it is not too large. -/
def ofNat? (n : Nat) : Option Binary64 :=
  round? false (n * unitsPerOne) 1

/-- The number nearest to a 64-bit natural number; all of these are in range. -/
def ofUInt64 (n : UInt64) : Binary64 :=
  (ofNat? n.toNat).getD zero

/-- The product, if it is not too large. -/
def mul? (x y : Binary64) : Option Binary64 :=
  round? (x.negative != y.negative) (x.units * y.units) unitsPerOne

/-- The quotient, if it is not too large; nothing for a divisor of zero. -/
def div? (x y : Binary64) : Option Binary64 :=
  if y.units = 0 then none
  else round? (x.negative != y.negative) (x.units * unitsPerOne) y.units

end Binary64

end ConfigLedger
