import ConfigLedger.Number.Binary64

/-!
# Shortest decimal text of a binary64 number

Every finite number owns an interval of reals that round to it. The text of a number shows
the fewest digits whose value lies in that interval, and among those the value nearest to
the number itself (`Binary64.shortest`). A `Decimal.Layout` says how digits and exponent are
then written; `Decimal.plain` is the layout of this library: positional from `0.00001` up to
below `10 ^ 16`, always with a fraction, and scientific outside with an explicit sign of the
exponent.
-/

namespace ConfigLedger

/-- The decimal number `digits * 10 ^ exponent`. -/
structure Decimal where
  digits : Nat
  exponent : Int
deriving DecidableEq, Repr

/-- A power of ten. -/
def Decimal.scale (exponent : Nat) : Nat :=
  Nat.pow 10 exponent

namespace Binary64

/-- The point `digits * 10 ^ exponent`, as a quotient of naturals counted in half units. -/
private def halfUnits (d : Decimal) : Nat × Nat :=
  if d.exponent < 0 then (d.digits * (2 * unitsPerOne), Decimal.scale d.exponent.natAbs)
  else (d.digits * Decimal.scale d.exponent.natAbs * (2 * unitsPerOne), 1)

/-- Whether a decimal rounds to the number of this magnitude: it lies between the midpoints to both
neighbours, the midpoints included exactly when the magnitude is even. -/
def roundsTo (magnitude : Nat) (d : Decimal) : Bool :=
  let (num, den) := halfUnits d
  let here := unitsOfMagnitude magnitude
  let low := (unitsOfMagnitude (magnitude - 1) + here) * den
  let high := (here + unitsOfMagnitude (magnitude + 1)) * den
  if magnitude % 2 = 0 then low ≤ num && num ≤ high else low < num && num < high

/-- The better of the two multiples of `10 ^ exponent` around a magnitude, if one of them rounds to
it. Of two that do, the nearer one; halfway between, the even one. -/
def onGrid (magnitude : Nat) (exponent : Int) : Option Decimal :=
  let num := unitsOfMagnitude magnitude * Decimal.scale (-exponent).toNat
  let den := unitsPerOne * Decimal.scale exponent.toNat
  let below := num / den
  let nearest := roundHalfEven num den
  let other := if nearest = below then below + 1 else below
  if roundsTo magnitude ⟨nearest, exponent⟩ then some ⟨nearest, exponent⟩
  else if roundsTo magnitude ⟨other, exponent⟩ then some ⟨other, exponent⟩
  else none

/-- A power of ten above every number that rounds to the magnitude. The factor is the logarithm of
two to the base ten. -/
private def topExponent (magnitude : Nat) : Int :=
  ((unitsOfMagnitude magnitude).log2 + 1 - 1074 : Int) * 30103 / 100000 + 2

/-- The decimal with the fewest digits that rounds to the number, and the nearest one of these: the
first hit on the grids `10 ^ k` for falling `k`. Seventeen digits always suffice. -/
def shortest (x : Binary64) : Decimal :=
  if x.magnitude = 0 then ⟨0, 0⟩
  else ((List.range 24).findSome? fun (i : Nat) =>
    onGrid x.magnitude (topExponent x.magnitude - i)).getD ⟨0, 0⟩

end Binary64

namespace Decimal

/-- How digits and an exponent of ten are written. -/
structure Layout where
  /-- The smallest power of ten whose multiples are written positionally. -/
  lowest : Int
  /-- The first power of ten that is written with an exponent again. -/
  above : Int

/-- Positional from `0.00001` up to below `10 ^ 16`. -/
def plain : Layout :=
  ⟨-5, 16⟩

/-- `count` zeros. -/
def zeros (count : Int) : List Char :=
  List.replicate count.toNat '0'

/-- The text of a decimal. A positional text always has a fraction; in a scientific one the point
stands behind the first digit, if more follow, and the exponent always has a sign. -/
def write (layout : Layout) (d : Decimal) : List Char :=
  let digits := Nat.toDigits 10 d.digits
  -- the power of ten of the first digit
  let leading := d.exponent + digits.length - 1
  if d.digits = 0 then ['0', '.', '0']
  else if layout.lowest ≤ leading ∧ leading < layout.above then
    if 0 ≤ d.exponent then digits ++ zeros d.exponent ++ ['.', '0']
    else if 0 ≤ leading then
      digits.take (leading + 1).toNat ++ '.' :: digits.drop (leading + 1).toNat
    else '0' :: '.' :: zeros (-leading - 1) ++ digits
  else
    let fraction := digits.drop 1
    digits.take 1 ++ (if fraction.isEmpty then [] else '.' :: fraction) ++
      'e' :: (if leading < 0 then '-' else '+') :: Nat.toDigits 10 leading.natAbs

end Decimal

/-- The text of a finite number: a minus sign, also for the negative zero, and the shortest decimal
that reads back. -/
def Binary64.text (x : Binary64) : List Char :=
  (if x.negative then ['-'] else []) ++ x.shortest.write Decimal.plain

end ConfigLedger
