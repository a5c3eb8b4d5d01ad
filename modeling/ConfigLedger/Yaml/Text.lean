/-!
# Texts of settings files

A settings text is read character by character. `unifyBreaks` first gives all line breaks
that mean the same one spelling, so that afterwards every character is one step:

* `Place.after` says where a step leads: to the next column, or to the next line;
* a `Cursor` is a place together with what is still to be read.

Characters fall into classes: blanks and breaks separate, **word characters** make up the
names of anchors and handles, and some characters may not occur at all (`isAllowed`).
-/

namespace ConfigLedger.Yaml

/-! ### Classes of characters -/

/-- A space or a tab. -/
def isBlank (c : Char) : Bool :=
  c == ' ' || c == '\t'

/-- A line break, once breaks have one spelling. The line separator and the paragraph separator are
breaks that stay what they are. -/
def isBreak (c : Char) : Bool :=
  c == '\n' || c == '\u2028' || c == '\u2029'

/-- A blank or a break. -/
def isGap (c : Char) : Bool :=
  isBlank c || isBreak c

/-- Whether a gap or the end of the text follows. -/
def atGap : List Char → Bool
  | [] => true
  | c :: _ => isGap c

/-- An ASCII letter or digit, a hyphen or an underscore. -/
def isWord (c : Char) : Bool :=
  c.isAlphanum || c == '-' || c == '_'

/-- A bracket or a comma, which end a plain scalar between brackets. -/
def isFlow (c : Char) : Bool :=
  c == ',' || c == '[' || c == ']' || c == '\x7b' || c == '\x7d'

/-- The byte order mark. -/
def isMark (c : Char) : Bool :=
  c == '\ufeff'

/-- Whether a character may occur in a settings text. -/
def isAllowed (c : Char) : Bool :=
  let n := c.toNat
  n == 0x09 || n == 0x0a || n == 0x0d || n == 0x85 || (0x20 ≤ n && n ≤ 0x7e)
    || (0xa0 ≤ n && n != 0xfffe && n != 0xffff)

/-- The text with one spelling for a carriage return, a line feed, both together and a next-line
character. -/
def unifyBreaks : List Char → List Char
  | '\r' :: '\n' :: rest => '\n' :: unifyBreaks rest
  | c :: rest => (if c == '\r' || c == '\u0085' then '\n' else c) :: unifyBreaks rest
  | [] => []

/-! ### Digits -/

/-- The value of a digit in a base up to sixteen. -/
def digitIn? (base : Nat) (c : Char) : Option Nat :=
  let value :=
    if c.isDigit then c.toNat - '0'.toNat
    else if 'a' ≤ c ∧ c ≤ 'f' then c.toNat - 'a'.toNat + 10
    else if 'A' ≤ c ∧ c ≤ 'F' then c.toNat - 'A'.toNat + 10
    else base
  if value < base then some value else none

/-- The natural that digits spell in a base; there must be one digit at least. -/
def naturalIn? (base : Nat) (cs : List Char) : Option Nat :=
  if cs.isEmpty then none
  else cs.foldlM (fun n c => (digitIn? base c).map (base * n + ·)) 0

/-! ### Places -/

/-- A place in a text: its line, how many characters stand before it on the line, and how many bytes
these have. -/
structure Place where
  line : Nat := 0
  column : Nat := 0
  offset : Nat := 0
deriving DecidableEq, Repr

/-- The place behind a character. -/
def Place.after (p : Place) (c : Char) : Place :=
  if isBreak c then ⟨p.line + 1, 0, 0⟩ else ⟨p.line, p.column + 1, p.offset + c.utf8Size⟩

/-- What is still to be read, and where it starts. -/
structure Cursor where
  rest : List Char
  place : Place

namespace Cursor

/-- The cursor behind the next character. -/
def skip (cursor : Cursor) : Cursor :=
  match cursor.rest with
  | [] => cursor
  | c :: rest => ⟨rest, cursor.place.after c⟩

/-- Whether the next character is the given one. -/
def sees (cursor : Cursor) (c : Char) : Bool :=
  cursor.rest.head? == some c

/-- The characters up to the first one that a test refuses, and the cursor at that. -/
def span (accepts : Char → Bool) (cursor : Cursor) : List Char × Cursor :=
  let taken := cursor.rest.takeWhile accepts
  (taken, ⟨cursor.rest.dropWhile accepts, taken.foldl Place.after cursor.place⟩)

/-- The cursor behind the blanks that come next. -/
def skipBlanks (cursor : Cursor) : Cursor :=
  (cursor.span isBlank).2

/-- The cursor at the end of a line on which nothing but blanks and a comment is left. -/
def lineEnd? (cursor : Cursor) : Option Cursor :=
  let cursor := cursor.skipBlanks
  let cursor := if cursor.sees '#' then (cursor.span fun c => !isBreak c).2 else cursor
  match cursor.rest with
  | [] => some cursor
  | c :: _ => if isBreak c then some cursor else none

/-- Whether a line that starts or ends a document starts here: three hyphens or three dots in the
first column, and a gap. -/
def atBoundary (mark : Char) (cursor : Cursor) : Bool :=
  match cursor.rest with
  | a :: b :: c :: rest =>
    cursor.place.column == 0 && a == mark && b == mark && c == mark && atGap rest
  | _ => false

/-- Whether a line that starts or ends a document starts here. -/
def atAnyBoundary (cursor : Cursor) : Bool :=
  cursor.atBoundary '-' || cursor.atBoundary '.'

end Cursor

end ConfigLedger.Yaml
