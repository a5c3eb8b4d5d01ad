import ConfigLedger.Yaml.Text

/-!
# Values of plain scalars

A scalar that is written without quotes stands for null, a truth value, an integer or a
number with a point or an exponent if it is spelled like one, and for its own text
otherwise. Digits behind a leading zero are a text.

Integers are read as naturals of any size, and who reads them says which are too large. Of
the numbers with a point or an exponent only those count that have a finite binary64 number
near them (`isFinite`): a numeral stands for `m * 10 ^ e`, and from half a step above the
largest binary64 number on there is none near.
-/

namespace ConfigLedger.Yaml

/-! ### Null and truth values -/

/-- The spellings of null. -/
def isNull (s : String) : Bool :=
  ["null", "Null", "NULL", "~"].contains s

/-- The truth value that a text spells. -/
def truth? (s : String) : Option Bool :=
  if ["true", "True", "TRUE"].contains s then some true
  else if ["false", "False", "FALSE"].contains s then some false
  else none

/-! ### Integers -/

/-- Several digits, the first of which is a zero. -/
def hasLeadingZero : List Char → Bool
  | '0' :: c :: rest => (c :: rest).all Char.isDigit
  | _ => false

/-- The natural of an integer literal without a sign. -/
def unsigned? (cs : List Char) : Option Nat :=
  match cs with
  | '0' :: 'x' :: rest => naturalIn? 16 rest
  | '0' :: 'o' :: rest => naturalIn? 8 rest
  | '0' :: 'b' :: rest => naturalIn? 2 rest
  | cs => if hasLeadingZero cs then none else naturalIn? 10 cs

/-- The natural of an integer literal, which may have a plus sign. -/
def natural? : List Char → Option Nat
  | '+' :: rest => unsigned? rest
  | cs => unsigned? cs

/-- The natural of an integer literal behind its minus sign. -/
def negated? : List Char → Option Nat
  | '-' :: rest => unsigned? rest
  | _ => none

/-! ### Numbers with a point or an exponent -/

/-- A number literal: its digits, and the power of ten of the last one. -/
structure Scientific where
  digits : List Char
  exponent : Int

namespace Scientific

/-- The exponent behind its mark. -/
def exponent? : List Char → Option Int
  | [] => some 0
  | mark :: rest =>
    if mark == 'e' || mark == 'E' then
      match rest with
      | '-' :: digits => (naturalIn? 10 digits).map fun n => -(n : Int)
      | '+' :: digits => (naturalIn? 10 digits).map Int.ofNat
      | digits => (naturalIn? 10 digits).map Int.ofNat
    else none

/-- The number of an unsigned literal. There must be a digit before the point or behind it. -/
def ofChars? (cs : List Char) : Option Scientific := do
  let whole := cs.takeWhile Char.isDigit
  let (fraction, rest) := match cs.dropWhile Char.isDigit with
    | '.' :: rest => (rest.takeWhile Char.isDigit, rest.dropWhile Char.isDigit)
    | rest => ([], rest)
  if (whole ++ fraction).isEmpty then none
  else some ⟨whole ++ fraction, (← exponent? rest) - fraction.length⟩

/-- Half a step above the largest finite binary64 number. -/
def limit : Nat :=
  0x3fffffffffffff <<< 970

/-- Whether there is a finite binary64 number near. Only near the limit, which has 309 digits, the
power of ten is counted out. -/
def isFinite (n : Scientific) : Bool :=
  let digits := n.digits.dropWhile (· == '0')
  let magnitude := digits.length + n.exponent
  let significand := (naturalIn? 10 digits).getD 0
  if digits.isEmpty || magnitude < 309 then true
  else if 309 < magnitude then false
  else if n.exponent < 0 then significand < limit * Nat.pow 10 n.exponent.natAbs
  else significand * Nat.pow 10 n.exponent.natAbs < limit

end Scientific

/-- Whether characters spell a number with a point or an exponent, or one of the special ones. The
number that is none has no sign. -/
def isReal (cs : List Char) : Bool :=
  let body := match cs with
    | '-' :: rest | '+' :: rest => rest
    | cs => cs
  [".inf", ".Inf", ".INF"].contains (String.ofList body)
    || [".nan", ".NaN", ".NAN"].contains (String.ofList cs)
    || (Scientific.ofChars? body).any Scientific.isFinite

/-- Whether digits stand behind a leading zero, with a sign or without. -/
def isZeroPadded : List Char → Bool
  | '-' :: rest | '+' :: rest => hasLeadingZero rest
  | cs => hasLeadingZero cs

end ConfigLedger.Yaml
