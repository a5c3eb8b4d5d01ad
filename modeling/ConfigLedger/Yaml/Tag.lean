import ConfigLedger.Yaml.Text

/-!
# Anchors, tags and directives

An **anchor** is a name of word characters. A **tag** names a kind of node by a handle and a
suffix; `Tags.resolve?` puts what the handle stands for in front of the suffix. Two handles
stand for something from the start, and a **directive** in front of a document can give
meaning to handles (`Tags.declare?`).

In a suffix a character can be written as the codes of its bytes.
-/

namespace ConfigLedger.Yaml

/-! ### Anchors -/

/-- Reads the name of an anchor, which a gap or certain marks must follow. -/
def anchor? (cursor : Cursor) : Option (String × Cursor) :=
  let (name, cursor) := cursor.span isWord
  let ends := atGap cursor.rest || ['?', ':', ',', ']', '\x7d', '%', '@', '\x60'].any cursor.sees
  if name.isEmpty || !ends then none else some (String.ofList name, cursor)

/-! ### Addresses -/

/-- The byte that is written as two digits behind a percent sign. -/
def byte? : List Char → Option (Nat × List Char)
  | '%' :: a :: b :: rest => (naturalIn? 16 [a, b]).map (·, rest)
  | _ => none

/-- The low six bits that a byte behind the first one of a character contributes. -/
def continuation? (byte : Nat) : Option Nat :=
  if 0x80 ≤ byte ∧ byte < 0xc0 then some (byte - 0x80) else none

/-- How many bytes follow the first one of a character, and what that one contributes. -/
def lead? (byte : Nat) : Option (Nat × Nat) :=
  if byte < 0x80 then some (0, byte)
  else if 0xc0 ≤ byte ∧ byte < 0xe0 then some (1, byte - 0xc0)
  else if 0xe0 ≤ byte ∧ byte < 0xf0 then some (2, byte - 0xe0)
  else if 0xf0 ≤ byte ∧ byte < 0xf8 then some (3, byte - 0xf0)
  else none

/-- Reads `count` bytes that belong to a character of which `code` was read before. -/
def continued? (code : Nat) : Nat → List Char → Option (Char × List Char)
  | 0, rest => some (Char.ofNat code, rest)
  | count + 1, rest => do
    let (byte, rest) ← byte? rest
    continued? (64 * code + (← continuation? byte)) count rest

/-- Reads a character that is written as the codes of its bytes. -/
def encoded? (cs : List Char) : Option (Char × List Char) := do
  let (byte, rest) ← byte? cs
  let (count, code) ← lead? byte
  continued? code count rest

/-- Whether a character may stand in an address. Between angle brackets there may also be commas
and brackets. -/
def isAddress (enclosed : Bool) (c : Char) : Bool :=
  isWord c || ";/?:@&=+$.%!~*'()".contains c || (enclosed && ",[]".contains c)

/-- The characters of an address whose bytes may be written as codes; `fuel` bounds their
number. -/
def decoded? : Nat → List Char → Option (List Char)
  | _, [] => some []
  | 0, _ => none
  | fuel + 1, '%' :: rest => do
    let (c, rest) ← encoded? ('%' :: rest)
    (decoded? fuel rest).map (c :: ·)
  | fuel + 1, c :: rest => (decoded? fuel rest).map (c :: ·)

/-- Reads an address, which may be empty. -/
def address? (enclosed : Bool) (cursor : Cursor) : Option (List Char × Cursor) := do
  let (written, cursor) := cursor.span (isAddress enclosed)
  some (← decoded? written.length written, cursor)

/-! ### Tags -/

/-- A tag as it is written. A tag without a handle is complete. -/
structure Tag where
  handle : String
  suffix : String
deriving DecidableEq, Repr

/-- Reads a tag in angle brackets from behind the opening one. -/
def enclosedTag? (cursor : Cursor) : Option (Tag × Cursor) := do
  let (suffix, cursor) ← address? true cursor
  if suffix.isEmpty || !cursor.sees '>' then none
  else some (⟨"", String.ofList suffix⟩, cursor.skip)

/-- Reads a tag that starts with a handle from behind its exclamation mark. A handle of more than
that mark ends with another one. The mark alone is a complete tag. -/
def handledTag? (cursor : Cursor) : Option (Tag × Cursor) := do
  let (name, behind) := cursor.span isWord
  let (suffix, cursor) ← address? false (if behind.sees '!' then behind.skip else cursor)
  if behind.sees '!' then
    if suffix.isEmpty then none
    else some (⟨String.ofList ('!' :: name ++ ['!']), String.ofList suffix⟩, cursor)
  else if suffix.isEmpty then some (⟨"", "!"⟩, cursor)
  else some (⟨"!", String.ofList suffix⟩, cursor)

/-- Reads a tag from behind its exclamation mark. A gap must follow, or between brackets a
comma. -/
def tag? (inFlow : Bool) (cursor : Cursor) : Option (Tag × Cursor) := do
  let (tag, cursor) ←
    if cursor.sees '<' then enclosedTag? cursor.skip else handledTag? cursor
  if atGap cursor.rest || (inFlow && cursor.sees ',') then some (tag, cursor) else none

/-! ### Directives -/

/-- A line in front of a document that says how it is to be read. -/
inductive Directive where
  /-- The edition of the format that the document follows. -/
  | edition (major minor : Nat)
  /-- What a handle stands for. -/
  | handle (name meaning : String)
deriving DecidableEq, Repr

/-- Reads a natural of at most nine digits. -/
def shortNatural? (cursor : Cursor) : Option (Nat × Cursor) :=
  let (digits, cursor) := cursor.span Char.isDigit
  if 9 < digits.length then none else (naturalIn? 10 digits).map (·, cursor)

/-- Reads the name of a handle: one exclamation mark, or a word between two. -/
def handleName? (cursor : Cursor) : Option (String × Cursor) :=
  if !cursor.sees '!' then none
  else
    let (name, cursor) := cursor.skip.span isWord
    if cursor.sees '!' then some (String.ofList ('!' :: name ++ ['!']), cursor.skip)
    else if name.isEmpty then some ("!", cursor)
    else none

/-- Reads a directive from behind its percent sign up to the end of its line. -/
def directive? (cursor : Cursor) : Option (Directive × Cursor) := do
  let (name, cursor) := cursor.span isWord
  if !atGap cursor.rest then none
  let (directive, cursor) ← match String.ofList name with
    | "YAML" => do
      let (major, cursor) ← shortNatural? cursor.skipBlanks
      if !cursor.sees '.' then none
      let (minor, cursor) ← shortNatural? cursor.skip
      some (Directive.edition major minor, cursor)
    | "TAG" => do
      let (name, cursor) ← handleName? cursor.skipBlanks
      if !cursor.rest.head?.any isBlank then none
      let (meaning, cursor) ← address? true cursor.skipBlanks
      if meaning.isEmpty || !atGap cursor.rest then none
      some (Directive.handle name (String.ofList meaning), cursor)
    | _ => none
  some (directive, (← cursor.lineEnd?).skip)

/-- What handles stand for, and whether the edition was given. -/
structure Tags where
  edition : Bool := false
  handles : List (String × String) := []

namespace Tags

/-- The tag that stands in front of the names of common kinds. -/
def common : String :=
  "tag:yaml.org,2002:"

/-- What handles stand for unless a directive says otherwise. -/
def usual : List (String × String) :=
  [("!", "!"), ("!!", common)]

/-- Adds what a directive says. It may give the edition once, and each handle once. -/
def declare? (tags : Tags) : Directive → Option Tags
  | .edition major minor =>
    if tags.edition || major ≠ 1 || (minor ≠ 1 && minor ≠ 2) then none
    else some { tags with edition := true }
  | .handle name meaning =>
    if (tags.handles.lookup name).isSome then none
    else some { tags with handles := (name, meaning) :: tags.handles }

/-- The complete tag, if its handle stands for something. -/
def resolve? (tags : Tags) (tag : Tag) : Option String :=
  if tag.handle.isEmpty then some tag.suffix
  else ((tags.handles ++ usual).lookup tag.handle).map (· ++ tag.suffix)

end Tags

end ConfigLedger.Yaml
