import ConfigLedger.Json.Value

/-!
# Text of values

`Value.compact` writes a value without blanks, `Value.pretty` over several lines with two
spaces for each level. Fields are written in the order in which the struct lists them:
rising for the values of this library, declared order for the records that other modules lay
out as structs. `Value.canonical` sorts the fields of such a layout.

Text is escaped sparingly (`escape`): the quote, the backslash and the control characters
below a blank, and nothing else.
-/

namespace ConfigLedger

namespace Value

/-! ### Text -/

/-- The hexadecimal digit of a number below sixteen, in lower case. -/
private def lowerHex (n : Nat) : Char :=
  (Nat.toDigits 16 n).headD '0'

/-- The text of one character inside a string literal. -/
def escape : Char → List Char
  | '"' => ['\\', '"']
  | '\\' => ['\\', '\\']
  | '\x08' => ['\\', 'b']
  | '\x0c' => ['\\', 'f']
  | '\n' => ['\\', 'n']
  | '\x0d' => ['\\', 'r']
  | '\t' => ['\\', 't']
  | c =>
    -- the control characters without an escape of their own are spelt by their code
    if c.toNat < 0x20 then
      ['\\', 'u', '0', '0', lowerHex (c.toNat / 16), lowerHex (c.toNat % 16)]
    else [c]

/-- A string literal. -/
def quote (s : String) : List Char :=
  '"' :: (s.toList.flatMap escape ++ ['"'])

/-- The text of a value that is neither a list nor a struct. -/
private def scalarText : Value → List Char
  | null => ['n', 'u', 'l', 'l']
  | bool true => ['t', 'r', 'u', 'e']
  | bool false => ['f', 'a', 'l', 's', 'e']
  | number n => n.text
  | string s => quote s
  | _ => []

/-! ### Compact form -/

mutual

/-- The text of a value, without blanks. -/
def compactChars : Value → List Char
  | list items => '[' :: (compactItems items ++ [']'])
  | struct fields => '{' :: (compactFields fields ++ ['}'])
  | v => scalarText v

/-- Elements with commas between them. -/
def compactItems : List Value → List Char
  | [] => []
  | [v] => compactChars v
  | v :: rest => compactChars v ++ ',' :: compactItems rest

/-- Fields with commas between them. -/
def compactFields : List (String × Value) → List Char
  | [] => []
  | [(key, v)] => quote key ++ ':' :: compactChars v
  | (key, v) :: rest => quote key ++ ':' :: compactChars v ++ ',' :: compactFields rest

end

/-- The text of a value, without blanks. -/
def compact (v : Value) : String :=
  String.ofList v.compactChars

/-! ### Pretty form -/

/-- The start of a line at a level of nesting. -/
private def newLine (level : Nat) : List Char :=
  '\n' :: List.replicate (2 * level) ' '

mutual

/-- The text of a value whose first line stands at a level of nesting. An empty container stays on
one line. -/
def prettyChars (level : Nat) : Value → List Char
  | list [] => ['[', ']']
  | list items => '[' :: (prettyItems (level + 1) items ++ newLine level ++ [']'])
  | struct [] => ['{', '}']
  | struct fields => '{' :: (prettyFields (level + 1) fields ++ newLine level ++ ['}'])
  | v => scalarText v

/-- Elements, each on its own lines. -/
def prettyItems (level : Nat) : List Value → List Char
  | [] => []
  | [v] => newLine level ++ prettyChars level v
  | v :: rest => newLine level ++ prettyChars level v ++ ',' :: prettyItems level rest

/-- Fields, each on its own lines. -/
def prettyFields (level : Nat) : List (String × Value) → List Char
  | [] => []
  | [(key, v)] => newLine level ++ quote key ++ ':' :: ' ' :: prettyChars level v
  | (key, v) :: rest =>
    newLine level ++ quote key ++ ':' :: ' ' :: prettyChars level v ++
      ',' :: prettyFields level rest

end

/-- The text of a value over several lines. -/
def pretty (v : Value) : String :=
  String.ofList (v.prettyChars 0)

/-! ### Order of fields -/

mutual

/-- The same value with the fields of every struct in rising order. -/
def canonical : Value → Value
  | list items => list (canonicalItems items)
  | struct fields => struct (canonicalFields fields)
  | v => v

/-- Elements in canonical form. -/
def canonicalItems : List Value → List Value
  | [] => []
  | v :: rest => v.canonical :: canonicalItems rest

/-- Fields in canonical form and rising order. -/
def canonicalFields : List (String × Value) → List (String × Value)
  | [] => []
  | (key, v) :: rest => putField key v.canonical (canonicalFields rest)

end

end Value

end ConfigLedger
