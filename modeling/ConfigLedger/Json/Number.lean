import ConfigLedger.Number.Shortest

/-!
# Numbers of JSON values

A number is a natural below `2 ^ 64`, a negative integer down to `-2 ^ 63`, or a finite
binary64 number. The three kinds never equal one another: `1` and `1.0` are different
numbers, although both stand at the same place of the number line (`Number.toBinary64`).

A `Numeral` is the literal as it stands in a text. `Numeral.ofChars?` accepts exactly the
number literals of JSON; `Numeral.number?` gives the number that a literal denotes:

* an integer literal denotes that integer if it fits, and `-0` the negative zero;
* every other literal is collected digit by digit into a 64-bit **significand** until the
  next digit no longer fits (`Numeral.gather`). The digits left over count as zeros, if they
  stand before the point, and as nothing behind it. The significand is converted and then
  scaled by one power of ten (`Numeral.scaled?`), each of the two steps rounding once;
* a literal whose value is too large denotes nothing.
-/

namespace ConfigLedger

/-- A number of a JSON value. -/
inductive Number where
  | natural (n : UInt64)
  /-- The integer `-(below + 1)`. -/
  | negative (below : Fin 0x8000000000000000)
  | real (x : Binary64)
deriving DecidableEq

namespace Number

/-- The place of a number on the number line, rounded to binary64. -/
def toBinary64 : Number → Binary64
  | natural n => Binary64.ofUInt64 n
  | negative below => (Binary64.ofUInt64 (UInt64.ofNat (below.val + 1))).neg
  | real x => x

/-- Equality of numbers: within one kind, and for binary64 numbers numerical. -/
def same : Number → Number → Bool
  | natural n, natural m => n == m
  | negative i, negative j => i == j
  | real x, real y => x.equal y
  | _, _ => false

/-- The text of a number. -/
def text : Number → List Char
  | natural n => Nat.toDigits 10 n.toNat
  | negative below => '-' :: Nat.toDigits 10 (below.val + 1)
  | real x => x.text

/-- The number as a natural, if it is written as one. -/
def natural? : Number → Option UInt64
  | natural n => some n
  | _ => none

/-- The number of an integer. -/
def ofInt64 (i : Int64) : Number :=
  if i < 0 then .negative ⟨i.toInt.natAbs - 1, by
    have := i.le_toInt
    have := i.toInt_lt
    omega⟩
  else .natural i.toUInt64

/-- The number as an integer, if it is one of the two kinds of integers. -/
def integer? : Number → Option Int
  | natural n => some n.toNat
  | negative below => some (-(below.val + 1 : Nat))
  | real _ => none

end Number

/-- A number literal: the digits before the point, the digits behind it, and the exponent with its
sign (`true` for a minus). -/
structure Numeral where
  negative : Bool
  whole : List Char
  fraction : Option (List Char)
  exponent : Option (Bool × List Char)
deriving DecidableEq, Repr

namespace Numeral

/-! ### Grammar -/

/-- The characters that occur in number literals. -/
def isNumeric (c : Char) : Bool :=
  c.isDigit || c == '-' || c == '+' || c == '.' || c == 'e' || c == 'E'

/-- The exponent part and what follows it; nothing if the mark of an exponent has no digits behind
it. -/
def exponent? (cs : List Char) : Option (Option (Bool × List Char) × List Char) :=
  match cs with
  | [] => some (none, [])
  | mark :: rest =>
    if mark == 'e' || mark == 'E' then
      let (minus, rest) : Bool × List Char := match rest with
        | '-' :: rest => (true, rest)
        | '+' :: rest => (false, rest)
        | rest => (false, rest)
      let digits := rest.takeWhile Char.isDigit
      if digits.isEmpty then none
      else some (some (minus, digits), rest.dropWhile Char.isDigit)
    else some (none, mark :: rest)

/-- The fraction and what follows it; nothing if the point has no digits behind it. -/
def fraction? (cs : List Char) : Option (Option (List Char) × List Char) :=
  match cs with
  | '.' :: rest =>
    let digits := rest.takeWhile Char.isDigit
    if digits.isEmpty then none
    else some (some digits, rest.dropWhile Char.isDigit)
  | rest => some (none, rest)

/-- The literal that a run of characters spells, if it spells one as a whole. A leading zero stands
alone before the point. -/
def ofChars? (cs : List Char) : Option Numeral :=
  let (negative, cs) : Bool × List Char := match cs with
    | '-' :: rest => (true, rest)
    | rest => (false, rest)
  let whole := cs.takeWhile Char.isDigit
  if whole.isEmpty || (whole.head? == some '0' && whole.length != 1) then none
  else do
    let (fraction, rest) ← fraction? (cs.dropWhile Char.isDigit)
    let (exponent, rest) ← exponent? rest
    if rest.isEmpty then some ⟨negative, whole, fraction, exponent⟩ else none

/-! ### Denotation -/

/-- The value of a decimal digit. -/
def digit (c : Char) : Nat :=
  c.toNat - '0'.toNat

/-- Appends digits to a significand as long as it stays below `2 ^ 64`, and returns the digits left
over. -/
def gather (significand : Nat) : List Char → Nat × List Char
  | [] => (significand, [])
  | c :: cs =>
    if significand * 10 + digit c < UInt64.size then gather (significand * 10 + digit c) cs
    else (significand, c :: cs)

/-- The binary64 number nearest to a power of ten up to `10 ^ 308`. -/
def powerOfTen (exponent : Nat) : Binary64 :=
  (Binary64.ofNat? (Decimal.scale exponent)).getD Binary64.zero

/-- A number divided by a power of ten, in steps of at most `10 ^ 308`. -/
def shrink (x : Binary64) (exponent : Nat) : Binary64 :=
  if exponent ≤ 308 then (x.div? (powerOfTen exponent)).getD x
  else if x.magnitude = 0 then x
  else shrink ((x.div? (powerOfTen 308)).getD x) (exponent - 308)
termination_by exponent

/-- A significand scaled by a power of ten, if it is not too large. -/
def scaled? (significand : Nat) (exponent : Int) : Option Binary64 := do
  let x ← Binary64.ofNat? significand
  if exponent < 0 then some (shrink x exponent.natAbs)
  else if exponent ≤ 308 then x.mul? (powerOfTen exponent.natAbs)
  else if x.magnitude = 0 then some x
  else none

/-- The binary64 number that a literal denotes. An exponent of `2 ^ 31` or more is not counted out:
the literal then denotes zero, unless it is too large. -/
def real? (n : Numeral) : Option Binary64 := do
  let (significand, leftOver) := gather 0 n.whole
  let fraction := n.fraction.getD []
  let (significand, ignored) := gather significand fraction
  -- a digit that was left over moves the point up, a digit of the fraction that was taken in moves
  -- it down
  let shift := (leftOver.length : Int) - (fraction.length - ignored.length : Nat)
  let x ← match n.exponent with
    | none => scaled? significand shift
    | some (minus, digits) =>
      let exponent := digits.foldl (fun e c => e * 10 + digit c) 0
      if exponent < 0x80000000 then
        scaled? significand (if minus then shift - exponent else shift + exponent)
      else if significand = 0 || minus then some Binary64.zero
      else none
  some (if n.negative then x.neg else x)

/-- The number that a literal denotes, unless its value is too large. -/
def number? (n : Numeral) : Option Number :=
  match n.fraction, n.exponent with
  | none, none =>
    let value := n.whole.foldl (fun v c => v * 10 + digit c) 0
    if n.negative then
      -- zero with a minus sign is no integer
      if h : 0 < value ∧ value ≤ 0x8000000000000000 then some (.negative ⟨value - 1, by omega⟩)
      else n.real?.map .real
    else if value < UInt64.size then some (.natural (UInt64.ofNat value))
    else n.real?.map .real
  | _, _ => n.real?.map .real

end Numeral

end ConfigLedger
