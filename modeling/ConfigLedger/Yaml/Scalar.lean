import ConfigLedger.Yaml.Text

/-!
# Scalars that flow over lines

Quoted and plain scalars may go over several lines. A **gap** between two words of a scalar
is folded (`Gap.folded`): a gap inside a line stands for itself, a single line break for a
space, and further breaks for themselves. In a double-quoted scalar a break behind a
backslash stands for nothing.

Each kind of scalar is read by one pass over the text that keeps the gap since the last
word.
-/

namespace ConfigLedger.Yaml

/-- How a scalar is written. -/
inductive Style where
  | plain
  | singleQuoted
  | doubleQuoted
  | literal
  | folded
deriving DecidableEq, Repr

/-- A run of blanks and breaks inside a scalar. -/
structure Gap where
  /-- The blanks before the first break. -/
  blanks : List Char := []
  breaks : List Char := []
  /-- Whether the gap starts with a break behind a backslash, which is not among the breaks. -/
  escaped : Bool := false

namespace Gap

/-- Whether the gap goes over the end of a line. -/
def hasBreak (g : Gap) : Bool :=
  g.escaped || !g.breaks.isEmpty

/-- The gap with one more character. Blanks behind a break are indentation and do not count. -/
def add (g : Gap) (c : Char) : Gap :=
  if isBreak c then { g with breaks := g.breaks ++ [c] }
  else if g.hasBreak then g
  else { g with blanks := g.blanks ++ [c] }

/-- What the gap stands for. -/
def folded (g : Gap) : List Char :=
  match g.breaks, g.escaped with
  | [], false => g.blanks
  | ['\n'], false => [' ']
  | '\n' :: further, false => further
  | breaks, _ => breaks

end Gap

/-! ### Quoted scalars -/

/-- Reads a single-quoted scalar from behind its first quote. A quote inside is written twice. What
was read before the gap is given in reverse. -/
def singleQuoted? (gap : Gap) (before : List Char) : List Char → Place → Option (String × Cursor)
  | [], _ => none
  | '\'' :: '\'' :: rest, p =>
    singleQuoted? {} ('\'' :: gap.folded.reverse ++ before) rest ((p.after '\'').after '\'')
  | '\'' :: rest, p =>
    some (String.ofList (gap.folded.reverse ++ before).reverse, ⟨rest, p.after '\''⟩)
  | c :: rest, p =>
    if isGap c then singleQuoted? (gap.add c) before rest (p.after c)
    -- the text must end before the document does
    else if Cursor.atAnyBoundary ⟨c :: rest, p⟩ then none
    else singleQuoted? {} (c :: gap.folded.reverse ++ before) rest (p.after c)

/-- The character of a code, given by hexadecimal digits. -/
def coded? (digits : List Char) : Option Char := do
  let n ← naturalIn? 16 digits
  if n.isValidChar then some (Char.ofNat n) else none

/-- The character that a letter behind a backslash stands for. -/
def escaped? : Char → Option Char
  | '0' => some '\x00'
  | 'a' => some '\x07'
  | 'b' => some '\x08'
  | 't' | '\t' => some '\t'
  | 'n' => some '\n'
  | 'v' => some '\x0b'
  | 'f' => some '\x0c'
  | 'r' => some '\x0d'
  | 'e' => some '\x1b'
  | ' ' => some ' '
  | '"' => some '"'
  | '/' => some '/'
  | '\\' => some '\\'
  | 'N' => some '\u0085'
  | '_' => some '\u00a0'
  | 'L' => some '\u2028'
  | 'P' => some '\u2029'
  | _ => none

/-- Reads a double-quoted scalar from behind its first quote. What was read before the gap is given
in reverse. -/
def doubleQuoted? (gap : Gap) (before : List Char) : List Char → Place → Option (String × Cursor)
  | [], _ => none
  | '"' :: rest, p =>
    some (String.ofList (gap.folded.reverse ++ before).reverse, ⟨rest, p.after '"'⟩)
  | '\\' :: 'x' :: a :: b :: rest, p => do
    let c ← coded? [a, b]
    doubleQuoted? {} (c :: gap.folded.reverse ++ before) rest
      (['\\', 'x', a, b].foldl Place.after p)
  | '\\' :: 'u' :: a :: b :: c :: d :: rest, p => do
    let e ← coded? [a, b, c, d]
    doubleQuoted? {} (e :: gap.folded.reverse ++ before) rest
      (['\\', 'u', a, b, c, d].foldl Place.after p)
  | '\\' :: 'U' :: a :: b :: c :: d :: e :: f :: g :: h :: rest, p => do
    let i ← coded? [a, b, c, d, e, f, g, h]
    doubleQuoted? {} (i :: gap.folded.reverse ++ before) rest
      (['\\', 'U', a, b, c, d, e, f, g, h].foldl Place.after p)
  | '\\' :: c :: rest, p => do
    let p := (p.after '\\').after c
    -- a break behind a backslash joins two lines without a space between them
    if isBreak c then doubleQuoted? { escaped := true } (gap.folded.reverse ++ before) rest p
    else doubleQuoted? {} ((← escaped? c) :: gap.folded.reverse ++ before) rest p
  | c :: rest, p =>
    if isGap c then doubleQuoted? (gap.add c) before rest (p.after c)
    else if Cursor.atAnyBoundary ⟨c :: rest, p⟩ then none
    else doubleQuoted? {} (c :: gap.folded.reverse ++ before) rest (p.after c)

/-! ### Plain scalars -/

/-- Whether a plain scalar may start here. Between brackets a hyphen may start it, in the
block style also a question mark or a colon, unless a gap follows. -/
def startsPlain (inFlow : Bool) : List Char → Bool
  | [] => false
  | c :: rest =>
    if c == '-' then !(rest.head?.any isBlank)
    else if c == '?' || c == ':' then !inFlow && !atGap rest
    else !isGap c && !isFlow c
      && !(['#', '&', '*', '!', '|', '>', '\'', '"', '%', '@', '\x60'].contains c)

/-- Whether a character, with what follows it, ends a plain scalar: a colon before a gap,
and between brackets a bracket or a comma. -/
def endsPlain (inFlow : Bool) (c : Char) (rest : List Char) : Bool :=
  (c == ':' && atGap rest) || (inFlow && isFlow c)

/-- A plain scalar as far as it was read. -/
structure PlainScalar where
  text : String
  /-- Behind the gap that follows the last word. -/
  cursor : Cursor
  /-- Whether that gap goes over the end of a line. -/
  broken : Bool

/-- Reads a plain scalar. In the block style it ends before a line that is indented less than
`margin`, whose indentation must be spaces; it ends before a comment and before the boundary of a
document. `words` says whether the last character belongs to a word, and `before` is what was read
before the gap, in reverse. -/
def plainScalar? (inFlow : Bool) (margin : Nat) (gap : Option Gap) (before : List Char) :
    List Char → Place → Option PlainScalar
  | [], p => some (ended gap before ⟨[], p⟩)
  | c :: rest, p =>
    let here : Cursor := ⟨c :: rest, p⟩
    if isGap c then
      -- a tab does not indent
      if c == '\t' && gap.any Gap.hasBreak && p.column < margin then none
      else plainScalar? inFlow margin (some ((gap.getD {}).add c)) before rest (p.after c)
    else if gap.isSome && ((!inFlow && p.column < margin) || here.atAnyBoundary || c == '#') then
      some (ended gap before here)
    else if inFlow && c == ':' && rest.head?.any (fun d => isFlow d || d == '?') then none
    else if endsPlain inFlow c rest then some (ended gap before here)
    else
      plainScalar? inFlow margin none (c :: ((gap.map Gap.folded).getD []).reverse ++ before) rest
        (p.after c)
where
  /-- The scalar that ends at a cursor. -/
  ended (gap : Option Gap) (before : List Char) (cursor : Cursor) : PlainScalar :=
    ⟨String.ofList before.reverse, cursor, gap.any Gap.hasBreak⟩

end ConfigLedger.Yaml
