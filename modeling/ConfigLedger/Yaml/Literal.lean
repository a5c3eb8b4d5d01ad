import ConfigLedger.Yaml.Scalar

/-!
# Scalars in lines of their own

A bar or an angle bracket announces a scalar whose lines follow, indented further than what
holds it. The **header** behind the announcing character may give the indentation, and says
what becomes of the breaks behind the last line (`Ending`). Without a given indentation the
first line with content has it, but a longer line of spaces before that counts too.

Behind an angle bracket lines are folded as in other scalars, except around a line that
starts with a blank.
-/

namespace ConfigLedger.Yaml

/-- What becomes of the breaks behind the last line of a scalar. -/
inductive Ending where
  /-- None of them is part of the scalar. -/
  | strip
  /-- The first one is. -/
  | clip
  /-- All of them are. -/
  | keep
deriving DecidableEq, Repr

/-- The first line of a scalar in lines of its own. -/
structure Header where
  ending : Ending := .clip
  /-- How much further than what holds it the scalar is indented, if that is given. -/
  increment : Option Nat := none

namespace Header

/-- The ending that a sign asks for. -/
def ending? : Char → Option Ending
  | '-' => some .strip
  | '+' => some .keep
  | _ => none

/-- The increment that a digit gives; there is no increment of zero. -/
def increment? (c : Char) : Option Nat :=
  if '1' ≤ c ∧ c ≤ '9' then some (c.toNat - '0'.toNat) else none

/-- Reads what may stand in a header, in either order and each once. -/
def read : List Char → Header × List Char
  | a :: b :: rest => match ending? a, increment? b, increment? a, ending? b with
    | some ending, some increment, _, _ => (⟨ending, some increment⟩, rest)
    | some ending, none, _, _ => (⟨ending, none⟩, b :: rest)
    | none, _, some increment, some ending => (⟨ending, some increment⟩, rest)
    | none, _, some increment, none => (⟨.clip, some increment⟩, b :: rest)
    | none, _, none, _ => ({}, a :: b :: rest)
  | [a] => match ending? a, increment? a with
    | some ending, _ => (⟨ending, none⟩, [])
    | none, some increment => (⟨.clip, some increment⟩, [])
    | none, none => ({}, [a])
  | [] => ({}, [])

end Header

/-- Where the first line with content starts. -/
structure Indentation where
  /-- The widest indentation so far. -/
  widest : Nat
  /-- The breaks of the lines before. -/
  breaks : List Char
  cursor : Cursor

/-- Goes over lines of spaces, and over the spaces at the start of the first other line, but no
further than to the column `limit`. Before that column there must be no tab. -/
def indentation? (limit : Option Nat) (widest : Nat) (breaks : List Char) :
    List Char → Place → Option Indentation
  | [], p => some ⟨max widest p.column, breaks, ⟨[], p⟩⟩
  | c :: rest, p =>
    -- behind the limit a space belongs to the text
    let inside := limit.all (p.column < ·)
    if inside && c == ' ' then indentation? limit widest breaks rest (p.after c)
    else if inside && c == '\t' then none
    else if isBreak c then
      indentation? limit (max widest p.column) (breaks ++ [c]) rest (p.after c)
    else some ⟨max widest p.column, breaks, ⟨c :: rest, p⟩⟩

/-- Lines of a scalar as far as they were read. -/
structure Lines where
  /-- What was read, in reverse, without the break of the last line. -/
  before : List Char := []
  /-- The break of the last line with content. -/
  last : List Char := []
  /-- Whether that line starts with a blank. -/
  blank : Bool := false
  /-- The breaks of the lines of spaces behind it. -/
  breaks : List Char := []

namespace Lines

/-- Starts a line with its first character. -/
def start (folding : Bool) (c : Char) (lines : Lines) : Lines :=
  let breaks := lines.last ++ lines.breaks
  let between :=
    if folding && !lines.last.isEmpty && !lines.blank && !isBlank c then
      Gap.folded { breaks := breaks }
    else breaks
  ⟨c :: between.reverse ++ lines.before, [], isBlank c, []⟩

/-- The scalar that ends behind the lines. -/
def text (ending : Ending) (lines : Lines) : String :=
  let tail := match ending with
    | .strip => []
    | .clip => lines.last
    | .keep => lines.last ++ lines.breaks
  String.ofList (lines.before.reverse ++ tail)

/-- Reads lines with the given indentation, up to a line that is indented less. `within` says
whether the next character belongs to a line that was started. -/
def read? (folding : Bool) (indent : Nat) (within : Bool) (lines : Lines) :
    List Char → Place → Option (Lines × Cursor)
  | [], p => some (lines, ⟨[], p⟩)
  | c :: rest, p =>
    if within then
      if isBreak c then read? folding indent false { lines with last := [c] } rest (p.after c)
      else
        read? folding indent true { lines with before := c :: lines.before } rest (p.after c)
    else if p.column < indent && c == ' ' then
      read? folding indent false lines rest (p.after c)
    else if p.column < indent && c == '\t' then none
    else if isBreak c then
      read? folding indent false { lines with breaks := lines.breaks ++ [c] } rest (p.after c)
    else if p.column == indent then
      read? folding indent true (lines.start folding c) rest (p.after c)
    else some (lines, ⟨c :: rest, p⟩)

end Lines

/-- Reads a scalar in lines of its own from behind the character that announces it. `margin` is the
least indentation that what holds the scalar asks for. -/
def block? (folding : Bool) (margin : Nat) (cursor : Cursor) : Option (String × Cursor) := do
  let (header, rest) := Header.read cursor.rest
  let read := cursor.rest.take (cursor.rest.length - rest.length)
  let cursor : Cursor := ⟨rest, read.foldl Place.after cursor.place⟩
  let cursor := (← cursor.lineEnd?).skip
  -- an increment counts from the indentation around the scalar
  let given := header.increment.map (margin - 1 + ·)
  let indentation ← indentation? given 0 [] cursor.rest cursor.place
  let indent := given.getD (max indentation.widest (max margin 1))
  let start := indentation.cursor
  let (lines, cursor) ← Lines.read? folding indent false { breaks := indentation.breaks }
    start.rest start.place
  some (lines.text header.ending, cursor)

end ConfigLedger.Yaml
