import ConfigLedger.Yaml.Literal
import ConfigLedger.Yaml.Tag

/-!
# Tokens of a settings text

`Token.scan?` cuts a text into its tokens. Between brackets a token says all there is to
know. In the block style the column where a line starts tells what it belongs to, and the
scanner makes that explicit: it opens a block with a token where a dash or a key stands
further right than the block around it, and closes blocks with a token each where a line
starts further left.

That something is a key shows only at the colon behind it. Where a key may start, the
scanner therefore remembers a **candidate**, and when the colon comes it inserts the token
of the key in front of what the candidate started with. A candidate is given up when its
line ends, or when it has become too long; one that can be nothing but a key must not be.

A block is known by its **margin**, the first column that is inside it: one more than the
column of its dashes or keys, and zero outside of all blocks.
-/

namespace ConfigLedger.Yaml

/-- A token of a settings text. -/
inductive Token where
  | directive (d : Directive)
  | documentStart | documentEnd
  | blockList | blockMap | blockEnd
  | openList | closeList | openMap | closeMap
  | comma | dash | key | value
  | anchor (name : String)
  | reference (name : String)
  | tag (t : Tag)
  | scalar (style : Style) (text : String)
deriving DecidableEq, Repr

/-- What may turn out to be a key. -/
structure Candidate where
  place : Place
  /-- How many tokens stand before it. -/
  index : Nat
  /-- Whether it can be nothing but a key, because it stands where the keys of a block stand. -/
  required : Bool

/-- Whether a candidate can no longer be a key at a place: it would be longer than a line, or than
1024 bytes. -/
def Candidate.isStale (candidate : Candidate) (p : Place) : Bool :=
  candidate.place.line < p.line || candidate.place.offset + 1024 < p.offset

/-- A candidate at a place further on; nothing if it would have to be a key and cannot be. -/
def Candidate.carried? (p : Place) : Option Candidate → Option (Option Candidate)
  | none => some none
  | some candidate =>
    if candidate.isStale p then if candidate.required then none else some none
    else some (some candidate)

/-- A text as far as it was scanned. -/
structure Scanner where
  cursor : Cursor
  /-- The tokens so far, the last one first. -/
  tokens : List Token := []
  /-- The margin of the innermost block. -/
  margin : Nat := 0
  /-- The margins around that. -/
  margins : List Nat := []
  /-- The candidate inside the innermost brackets. -/
  candidate : Option Candidate := none
  /-- The candidates around each pair of brackets, the innermost one first. -/
  outer : List (Option Candidate) := []
  /-- Whether a key may start next. -/
  keyAllowed : Bool := true

namespace Scanner

/-- Whether the scanner is between brackets. -/
def inFlow (s : Scanner) : Bool :=
  !s.outer.isEmpty

/-- Appends a token. -/
def emit (token : Token) (s : Scanner) : Scanner :=
  { s with tokens := token :: s.tokens }

/-- Inserts a token in front of a number of tokens. -/
def insert (index : Nat) (token : Token) (s : Scanner) : Scanner :=
  { s with tokens := s.tokens.insertIdx (s.tokens.length - index) token }

/-- Appends the token that the next character is. -/
def take (token : Token) (s : Scanner) : Scanner :=
  { s.emit token with cursor := s.cursor.skip }

/-! ### Blocks -/

/-- Opens a block with the given margin, unless one is open. Its token goes in front of a number of
tokens. -/
def openBlock (margin index : Nat) (token : Token) (s : Scanner) : Scanner :=
  if s.inFlow || margin ≤ s.margin then s
  else { s.insert index token with margin := margin, margins := s.margin :: s.margins }

/-- How many blocks have a margin above the given one, and the margins that are left. -/
def closing (least margin : Nat) : List Nat → Nat × Nat × List Nat
  | [] => (0, margin, [])
  | around :: margins =>
    if least < margin then
      let (count, left) := closing least around margins
      (count + 1, left)
    else (0, margin, around :: margins)

/-- Closes the blocks with a margin above the given one. -/
def closeBlocks (least : Nat) (s : Scanner) : Scanner :=
  if s.inFlow then s
  else
    let (count, margin, margins) := closing least s.margin s.margins
    { s with
      tokens := List.replicate count .blockEnd ++ s.tokens, margin := margin, margins := margins }

/-! ### Candidates -/

/-- Gives the candidate up. -/
def dropCandidate? (s : Scanner) : Option Scanner :=
  if s.candidate.any Candidate.required then none else some { s with candidate := none }

/-- Remembers that a key may start here, if one may. -/
def saveCandidate? (s : Scanner) : Option Scanner :=
  if s.keyAllowed then
    s.dropCandidate?.map fun s =>
      let column := s.cursor.place.column
      let required := !s.inFlow && s.margin == column + 1
      { s with candidate := some ⟨s.cursor.place, s.tokens.length, required⟩ }
  else some s

/-! ### Gaps -/

/-- Where the next token starts, and whether a key may start there. Where a key may start in the
block style there must be no tabs. A byte order mark at the start of a line is passed over, but
takes a column. -/
def nextStart (inFlow inComment keyAllowed : Bool) : List Char → Place → Cursor × Bool
  | [], p => (⟨[], p⟩, keyAllowed)
  | c :: rest, p =>
    -- in the block style a key may start on every line
    if isBreak c then nextStart inFlow false (keyAllowed || !inFlow) rest (p.after c)
    else if inComment || c == ' ' || (c == '\t' && (inFlow || !keyAllowed))
        || (isMark c && p.column == 0) then
      nextStart inFlow inComment keyAllowed rest (p.after c)
    else if c == '#' then nextStart inFlow true keyAllowed rest (p.after c)
    else (⟨c :: rest, p⟩, keyAllowed)

/-- Goes to the next token, giving up candidates on the way and closing the blocks that end before
it. -/
def advance? (s : Scanner) : Option Scanner := do
  let (cursor, keyAllowed) := nextStart s.inFlow false s.keyAllowed s.cursor.rest s.cursor.place
  let candidate ← Candidate.carried? cursor.place s.candidate
  let outer ← s.outer.mapM (Candidate.carried? cursor.place)
  let s := { s with cursor, keyAllowed, candidate, outer }
  some (s.closeBlocks (cursor.place.column + 1))

/-! ### Tokens -/

/-- The boundary of a document, or a directive, ends all blocks. -/
def leaveBlocks? (s : Scanner) : Option Scanner :=
  (s.closeBlocks 0).dropCandidate?.map fun s => { s with keyAllowed := false }

/-- Takes a directive. -/
def directive? (s : Scanner) : Option Scanner := do
  let s ← s.leaveBlocks?
  let (directive, cursor) ← Yaml.directive? s.cursor.skip
  some { s.emit (.directive directive) with cursor := cursor }

/-- Takes the three characters of a boundary. -/
def boundary? (token : Token) (s : Scanner) : Option Scanner := do
  let s ← s.leaveBlocks?
  some { s.emit token with cursor := s.cursor.skip.skip.skip }

/-- Takes an opening bracket, behind which a key may start. -/
def openBracket? (token : Token) (s : Scanner) : Option Scanner := do
  let s ← s.saveCandidate?
  some { s.take token with candidate := none, outer := s.candidate :: s.outer, keyAllowed := true }

/-- Takes a closing bracket. -/
def closeBracket? (token : Token) (s : Scanner) : Option Scanner := do
  let s ← s.dropCandidate?
  let s := match s.outer with
    | candidate :: outer => { s with candidate := candidate, outer := outer }
    | [] => s
  some { s.take token with keyAllowed := false }

/-- Takes a comma, behind which a key may start. -/
def comma? (s : Scanner) : Option Scanner := do
  some { (← s.dropCandidate?).take .comma with keyAllowed := true }

/-- Opens a block where one may start. -/
def startBlock? (token : Token) (s : Scanner) : Option Scanner :=
  if s.inFlow then some s
  else if s.keyAllowed then some (s.openBlock (s.cursor.place.column + 1) s.tokens.length token)
  else none

/-- Takes a dash. -/
def dash? (s : Scanner) : Option Scanner := do
  let s ← (← s.startBlock? .blockList).dropCandidate?
  some { s.take .dash with keyAllowed := true }

/-- Takes the mark of a key. -/
def keyMark? (s : Scanner) : Option Scanner := do
  let s ← (← s.startBlock? .blockMap).dropCandidate?
  some { s.take .key with keyAllowed := !s.inFlow }

/-- Takes the colon in front of a value. If there is a candidate, it is the key. -/
def value? (s : Scanner) : Option Scanner :=
  match s.candidate with
  | some candidate =>
    -- the key is put in where its text began, and before it the block that it opens
    let s := (s.insert candidate.index .key).openBlock (candidate.place.column + 1)
      candidate.index .blockMap
    some { s.take .value with candidate := none, keyAllowed := false }
  | none => do
    let s ← s.startBlock? .blockMap
    some { s.take .value with keyAllowed := !s.inFlow }

/-- Takes what may start a key and is read by `read`. -/
def content? (read : Cursor → Option (Token × Cursor)) (s : Scanner) : Option Scanner := do
  let s ← s.saveCandidate?
  let (token, cursor) ← read s.cursor
  some { s.emit token with cursor := cursor, keyAllowed := false }

/-- Takes a plain scalar. Where it goes over the end of a line, a key may start behind it. -/
def plain? (s : Scanner) : Option Scanner := do
  let s ← s.saveCandidate?
  let scalar ← plainScalar? s.inFlow s.margin none [] s.cursor.rest s.cursor.place
  some { s.emit (.scalar .plain scalar.text) with
    cursor := scalar.cursor, keyAllowed := scalar.broken }

/-- Takes a scalar in lines of its own. -/
def block? (style : Style) (s : Scanner) : Option Scanner := do
  let s ← s.dropCandidate?
  let (text, cursor) ← Yaml.block? (style == .folded) s.margin s.cursor.skip
  some { s.emit (.scalar style text) with cursor := cursor, keyAllowed := true }

/-- Takes the next token, which starts with the given character. -/
def next? (c : Char) (rest : List Char) (s : Scanner) : Option Scanner :=
  -- the marks of a block stand by themselves
  let marks := s.inFlow || atGap rest
  if c == '%' && s.cursor.place.column == 0 then s.directive?
  else if s.cursor.atBoundary '-' then s.boundary? .documentStart
  else if s.cursor.atBoundary '.' then s.boundary? .documentEnd
  else if c == '[' then s.openBracket? .openList
  else if c == '\x7b' then s.openBracket? .openMap
  else if c == ']' then s.closeBracket? .closeList
  else if c == '\x7d' then s.closeBracket? .closeMap
  else if c == ',' then s.comma?
  else if c == '-' && atGap rest then s.dash?
  else if c == '?' && marks then s.keyMark?
  else if c == ':' && marks then s.value?
  else if c == '*' then
    s.content? fun cursor =>
      (anchor? cursor.skip).map fun (name, cursor) => (.reference name, cursor)
  else if c == '&' then
    s.content? fun cursor =>
      (anchor? cursor.skip).map fun (name, cursor) => (.anchor name, cursor)
  else if c == '!' then
    s.content? fun cursor =>
      (tag? s.inFlow cursor.skip).map fun (tag, cursor) => (.tag tag, cursor)
  else if c == '|' && !s.inFlow then s.block? .literal
  else if c == '>' && !s.inFlow then s.block? .folded
  else if c == '\'' then
    s.content? fun cursor =>
      (singleQuoted? {} [] rest cursor.skip.place).map fun (text, cursor) =>
        (.scalar .singleQuoted text, cursor)
  else if c == '"' then
    s.content? fun cursor =>
      (doubleQuoted? {} [] rest cursor.skip.place).map fun (text, cursor) =>
        (.scalar .doubleQuoted text, cursor)
  else if startsPlain s.inFlow (c :: rest) then s.plain?
  else none

/-- The tokens of a text that was scanned to its end. -/
def finish? (s : Scanner) : Option (List Token) :=
  s.leaveBlocks?.map fun s => s.tokens.reverse

/-- Takes all tokens; each of them needs one unit of fuel. -/
def run? : Nat → Scanner → Option (List Token)
  | 0, _ => none
  | fuel + 1, s => do
    let s ← s.advance?
    match s.cursor.rest with
    | [] => s.finish?
    | c :: rest => run? fuel (← s.next? c rest)

end Scanner

/-- The tokens of a text. -/
def Token.scan? (text : String) : Option (List Token) :=
  if text.toList.all isAllowed then
    let cs := unifyBreaks text.toList
    Scanner.run? (cs.length + 1) { cursor := ⟨cs, {}⟩ }
  else none

end ConfigLedger.Yaml
