import ConfigLedger.Yaml.Node
import ConfigLedger.Yaml.Token

/-!
# The graph of a settings text

A `Graph` is what the tokens of a text say: a node at the root, and the nodes that
references stand for. A text holds one document, which may be marked as such, and directives
may stand in front of a marked one.

Where a node is missing behind a dash, a key or a colon, the empty node stands for it. Two
rules are unusual:

* a list whose dashes stand in the column of the keys around it has no token of its own
  where it ends;
* between brackets, an entry of a list that starts with the mark of a key, but has none,
  loses the token that follows.
-/

namespace ConfigLedger.Yaml

/-- The tokens that are left, with what was learned from those before. -/
structure Input where
  tokens : List Token
  tags : Tags := {}
  /-- The number that each name of an anchor stands for. -/
  anchors : List (String × Nat) := []

/-- Reads from the tokens that are left. -/
abbrev Parser :=
  StateT Input Option

namespace Parser

/-- The next token. -/
def peek : Parser (Option Token) :=
  return (← get).tokens.head?

/-- Passes over the next token. -/
def skip : Parser Unit :=
  modify fun input => { input with tokens := input.tokens.drop 1 }

/-- Takes the next token. -/
def next : Parser (Option Token) := do
  let token ← peek
  skip
  return token

/-- Takes a token that must be there. -/
def expect (token : Token) : Parser Unit := do
  if (← next) ≠ some token then failure

/-- The number of a new anchor: how many names were in use before. -/
def anchor (name : String) : Parser Nat := do
  let anchors := (← get).anchors
  let others := anchors.filter (·.1 != name)
  modify fun input => { input with anchors := (name, anchors.length) :: others }
  return anchors.length

/-- A reference to the anchor of a name, which must have come before. -/
def target (name : String) : Parser Node := do
  return .reference (← (← get).anchors.lookup name)

/-- Takes the anchor and the tag of a node, which may come in either order. -/
def label : Parser Label := do
  let resolve (tag : Tag) : Parser String := do (← get).tags.resolve? tag
  match (← get).tokens with
  | .anchor name :: .tag tag :: _ => do
    skip; skip
    let tag ← resolve tag
    return ⟨← anchor name, tag⟩
  | .tag tag :: .anchor name :: _ => do
    skip; skip
    let tag ← resolve tag
    return ⟨← anchor name, tag⟩
  | .anchor name :: _ => do
    skip
    return ⟨← anchor name, none⟩
  | .tag tag :: _ => do
    skip
    return ⟨none, ← resolve tag⟩
  | _ => return {}

/-- Where a node stands, which decides what it may be. -/
inductive Position where
  /-- Between brackets, where there are no blocks. -/
  | flow
  | block
  /-- In an entry of a block, where a list may start without opening a block. -/
  | entry
deriving DecidableEq

/-- The empty node, unless one is there that `read` reads: one is if the next token is none of
those that end the place for it. -/
def nodeUnless (ends : List Token) (read : Parser Node) : Parser Node := do
  match ← peek with
  | some token => if ends.contains token then return .empty else read
  | none => read

mutual

/-- Reads a node. -/
def node : Nat → Position → Parser Node
  | 0, _ => failure
  | fuel + 1, position => do
    if let some (.reference name) ← peek then
      skip
      return ← target name
    let label ← label
    match ← peek with
    | some (.scalar style text) => do
      skip
      return .scalar label style text
    | some .openList => do
      skip
      return .list label (← flowItems fuel true)
    | some .openMap => do
      skip
      return .map label (← flowEntries fuel true)
    | some .blockList =>
      -- no block starts inside brackets
      if position = .flow then blank label
      else do
        skip
        return .list label (← blockItems fuel)
    | some .blockMap =>
      if position = .flow then blank label
      else do
        skip
        return .map label (← blockEntries fuel)
    | some .dash =>
      -- the items of an entry may stand without a block of their own
      if position = .entry then return .list label (← looseItems fuel) else blank label
    | _ => blank label
where
  /-- The empty node, which needs a label to be seen. -/
  blank (label : Label) : Parser Node :=
    if label.isEmpty then failure else return .empty label

/-- Reads the items of a list in a block of its own. -/
def blockItems : Nat → Parser (List Node)
  | 0 => failure
  | fuel + 1 => do
    match ← next with
    | some .dash => do
      let item ← nodeUnless [.dash, .blockEnd] (node fuel .block)
      return item :: (← blockItems fuel)
    | some .blockEnd => return []
    | _ => failure

/-- Reads the items of a list that has no block of its own. -/
def looseItems : Nat → Parser (List Node)
  | 0 => failure
  | fuel + 1 => do
    if (← peek) = some .dash then
      skip
      let item ← nodeUnless [.dash, .key, .value, .blockEnd] (node fuel .block)
      return item :: (← looseItems fuel)
    else return []

/-- Reads the value behind a key, if a colon announces one. -/
def value : Nat → Position → List Token → Parser Node
  | 0, _, _ => failure
  | fuel + 1, position, ends => do
    if (← peek) = some .value then
      skip
      nodeUnless ends (node fuel position)
    else return .empty

/-- Reads the entries of a mapping in a block. -/
def blockEntries : Nat → Parser (List (Node × Node))
  | 0 => failure
  | fuel + 1 => do
    match ← next with
    | some .key => do
      let key ← nodeUnless [.key, .value, .blockEnd] (node fuel .entry)
      let value ← value fuel .entry [.key, .value, .blockEnd]
      return (key, value) :: (← blockEntries fuel)
    | some .blockEnd => return []
    | _ => failure

/-- Reads the items of a list in brackets. An item can be a mapping with one entry. -/
def flowItems : Nat → Bool → Parser (List Node)
  | 0, _ => failure
  | fuel + 1, first => do
    if (← peek) = some .closeList then
      skip
      return []
    -- every item but the first one stands behind a comma
    if !first then expect .comma
    match ← peek with
    | some .closeList => do
      skip
      return []
    | some .key => do
      -- an entry among the items is a mapping of its own
      skip
      let key ← keyOfItem fuel
      let value ← value fuel .flow [.comma, .closeList]
      return .map {} [(key, value)] :: (← flowItems fuel false)
    | _ => do
      let item ← node fuel .flow
      return item :: (← flowItems fuel false)

/-- Reads the key of an item of a list in brackets. -/
def keyOfItem : Nat → Parser Node
  | 0 => failure
  | fuel + 1 => do
    if [some .value, some .comma, some .closeList].contains (← peek) then
      skip
      return .empty
    else node fuel .flow

/-- Reads the entries of a mapping in brackets. A key may stand alone. -/
def flowEntries : Nat → Bool → Parser (List (Node × Node))
  | 0, _ => failure
  | fuel + 1, first => do
    if (← peek) = some .closeMap then
      skip
      return []
    if !first then expect .comma
    match ← peek with
    | some .closeMap => do
      skip
      return []
    | some .key => do
      skip
      let key ← nodeUnless [.value, .comma, .closeMap] (node fuel .flow)
      let value ← value fuel .flow [.comma, .closeMap]
      return (key, value) :: (← flowEntries fuel false)
    | _ => do
      let key ← node fuel .flow
      return (key, .empty) :: (← flowEntries fuel false)

end

/-- Takes the directives in front of a document. -/
def directives : Nat → Parser Unit
  | 0 => failure
  | fuel + 1 => do
    if let some (.directive directive) ← peek then
      skip
      let tags ← (← get).tags.declare? directive
      modify fun input => { input with tags := tags }
      directives fuel

/-- Reads the node of a document that is marked as one. -/
def markedDocument (fuel : Nat) : Parser Node := do
  directives fuel
  expect .documentStart
  match ← peek with
  | none | some (.directive _) | some .documentStart | some .documentEnd => return .empty
  | _ => node fuel .block

/-- Reads the node of the only document of a text. -/
def document (fuel : Nat) : Parser Node := do
  let root ← match ← peek with
    | none => return .empty
    | some (.directive _) | some .documentStart => markedDocument fuel
    | _ => node fuel .block
  modify fun input => { input with tokens := input.tokens.dropWhile (· == .documentEnd) }
  if (← peek).isNone then return root else failure

end Parser

/-- What a settings text says. -/
structure Graph where
  root : Node
  /-- What references stand for. -/
  targets : List (Nat × Node)

namespace Graph

/-- The graph of a node. Of several nodes with one anchor the last one counts. -/
def ofNode (root : Node) : Graph :=
  ⟨root, root.targets.reverse⟩

/-- The graph of tokens. Each token starts at most one node and one round of a loop. -/
def ofTokens? (tokens : List Token) : Option Graph :=
  ((Parser.document (3 * tokens.length + 3)).run' { tokens := tokens }).map ofNode

/-- The graph of a text. -/
def ofText? (text : String) : Option Graph :=
  (Token.scan? text).bind ofTokens?

end Graph

end ConfigLedger.Yaml
