import ConfigLedger.Json.Number

/-!
# Tokens of a JSON text

`Token.scan` cuts a text into its tokens, skipping blanks between them, and fails on
anything that starts no token.

Two kinds of literals can be well formed without denoting anything, and their tokens then
hold `none`: a number whose value is too large, and a string that names half of a surrogate
pair by an escape without its other half. Whether that is an error is decided where the
literal is used.
-/

namespace ConfigLedger

/-- A token of a JSON text. -/
inductive Token where
  | openStruct | closeStruct | openList | closeList | comma | colon
  | null
  | bool (b : Bool)
  | number (n : Option Number)
  | text (t : Option String)
deriving DecidableEq

namespace Token

/-! ### String literals -/

/-- The value of a hexadecimal digit of either case. -/
def hexDigit? (c : Char) : Option Nat :=
  if c.isDigit then some (c.toNat - '0'.toNat)
  else if 'a' ≤ c && c ≤ 'f' then some (c.toNat - 'a'.toNat + 10)
  else if 'A' ≤ c && c ≤ 'F' then some (c.toNat - 'A'.toNat + 10)
  else none

/-- The 16-bit unit that four hexadecimal digits name. -/
def unit? (a b c d : Char) : Option Nat := do
  let a ← hexDigit? a
  let b ← hexDigit? b
  let c ← hexDigit? c
  let d ← hexDigit? d
  some (((a * 16 + b) * 16 + c) * 16 + d)

/-- The character that an escape letter stands for. -/
def escape? : Char → Option Char
  | '"' => some '"'
  | '\\' => some '\\'
  | '/' => some '/'
  | 'b' => some '\x08'
  | 'f' => some '\x0c'
  | 'n' => some '\n'
  | 'r' => some '\x0d'
  | 't' => some '\t'
  | _ => none

/-- A piece of a string literal: a character, or half of a surrogate pair. -/
inductive Piece where
  | char (c : Char)
  | half (unit : Nat)

namespace Piece

/-- The piece that a 16-bit unit stands for. -/
def ofUnit (unit : Nat) : Piece :=
  if 0xD800 ≤ unit ∧ unit < 0xE000 then half unit else char (Char.ofNat unit)

/-- The text that pieces make up: each half must stand directly before or behind its other half. -/
def text? : List Piece → Option (List Char)
  | [] => some []
  | char c :: rest => (text? rest).map (c :: ·)
  | half a :: half b :: rest =>
    if a < 0xDC00 ∧ 0xDC00 ≤ b then
      (text? rest).map (Char.ofNat (0x10000 + (a - 0xD800) * 0x400 + (b - 0xDC00)) :: ·)
    else none
  | half _ :: _ => none

end Piece

/-- Puts a piece in front of what was read behind it. -/
private def Piece.before (p : Piece) (r : List Piece × List Char) : List Piece × List Char :=
  (p :: r.1, r.2)

/-- Reads a string literal behind its opening quote: its pieces and what follows the closing quote.
Control characters must be escaped. -/
def quoted : List Char → Option (List Piece × List Char)
  | [] => none
  | '"' :: rest => some ([], rest)
  | '\\' :: 'u' :: a :: b :: c :: d :: rest =>
    (unit? a b c d).bind fun unit => (quoted rest).map (Piece.ofUnit unit).before
  | '\\' :: c :: rest =>
    (escape? c).bind fun c => (quoted rest).map (Piece.char c).before
  | c :: rest => if c.toNat < 0x20 then none else (quoted rest).map (Piece.char c).before

/-- A string literal ends behind where it starts. -/
theorem length_lt_of_quoted {s : List Char} {pieces : List Piece} {r : List Char}
    (h : quoted s = some (pieces, r)) : r.length < s.length := by
  -- a piece that is read first does not change what is left
  have step {p : Piece} {o : Option (List Piece × List Char)} {pieces : List Piece}
      (h : o.map p.before = some (pieces, r)) : ∃ pieces', o = some (pieces', r) := by
    obtain ⟨⟨pieces', r'⟩, ho, hr⟩ := Option.map_eq_some_iff.1 h
    simp only [Piece.before, Prod.mk.injEq] at hr
    exact ⟨pieces', by rw [ho, hr.2]⟩
  -- every call leaves at least one character less
  fun_induction quoted s generalizing pieces with
  | case1 => simp at h
  | case2 rest => simp_all
  | case3 a b c d rest ih =>
    -- four digits of a unit
    obtain ⟨unit, -, h⟩ := Option.bind_eq_some_iff.1 h
    obtain ⟨pieces', h⟩ := step h
    have := ih h
    simp only [List.length_cons]
    omega
  | case4 c rest _ ih =>
    -- an escape by one letter
    obtain ⟨c', -, h⟩ := Option.bind_eq_some_iff.1 h
    obtain ⟨pieces', h⟩ := step h
    have := ih h
    simp only [List.length_cons]
    omega
  | case5 => simp at h
  | case6 c rest _ _ _ _ ih =>
    -- a character that stands for itself
    obtain ⟨pieces', h⟩ := step h
    have := ih h
    simp only [List.length_cons]
    omega

/-! ### The scanner -/

/-- The blanks allowed between tokens. -/
def isBlank (c : Char) : Bool :=
  c == ' ' || c == '\n' || c == '\t' || c == '\x0d'

/-- The token that a word or a run of numeric characters spells. -/
def ofWord? (word : List Char) : Option Token :=
  match word with
  | ['n', 'u', 'l', 'l'] => some null
  | ['t', 'r', 'u', 'e'] => some (bool true)
  | ['f', 'a', 'l', 's', 'e'] => some (bool false)
  | word => (Numeral.ofChars? word).map fun n => number n.number?

/-- The characters of words and numbers. Neither can stand directly before another, so the longest
run of such characters is one token. -/
def isWordChar (c : Char) : Bool :=
  c.isAlphanum || c == '-' || c == '+' || c == '.'

/-- The tokens of a text. -/
def scan (s : List Char) : Option (List Token) :=
  match s with
  | [] => some []
  | '{' :: rest => (scan rest).map (openStruct :: ·)
  | '}' :: rest => (scan rest).map (closeStruct :: ·)
  | '[' :: rest => (scan rest).map (openList :: ·)
  | ']' :: rest => (scan rest).map (closeList :: ·)
  | ',' :: rest => (scan rest).map (comma :: ·)
  | ':' :: rest => (scan rest).map (colon :: ·)
  | '"' :: rest =>
    match h : quoted rest with
    | none => none
    | some (pieces, rest') =>
      have := length_lt_of_quoted h
      (scan rest').map (text ((Piece.text? pieces).map String.ofList) :: ·)
  | c :: rest =>
    if isBlank c then scan rest
    else if isWordChar c then
      have : (rest.dropWhile isWordChar).length ≤ rest.length :=
        (List.dropWhile_sublist _).length_le
      match ofWord? (c :: rest.takeWhile isWordChar) with
      | none => none
      | some token => (scan (rest.dropWhile isWordChar)).map (token :: ·)
    else none
termination_by s.length

end Token

end ConfigLedger
