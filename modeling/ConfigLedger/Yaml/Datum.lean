import ConfigLedger.Yaml.Graph
import ConfigLedger.Yaml.Plain

/-!
# Reading the nodes of a settings text

A node can be read for what is expected of it (`Reader.text`, `Reader.natural`,
`Reader.fields`), or for whatever it is, which gives a `Datum`. Tags matter only for a
datum: the tags of the common kinds of scalars say how a scalar has to be read, other common
tags make it a text, and private tags are refused.

Reading follows references. So that this comes to an end, only a certain number of them is
followed for each text, and a datum may nest only so deep. A node that nobody reads may be
anything.
-/

namespace ConfigLedger.Yaml

/-- Reads nodes, following references: with what they stand for, and how many may still be
followed. -/
abbrev Reader :=
  ReaderT (List (Nat × Node)) (StateT Nat Option)

namespace Reader

/-- What a node stands for. -/
def follow : Node → Reader Node
  | .reference anchor => do
    match ← get with
    | 0 => failure
    | left + 1 =>
      set left
      (← read).lookup anchor
  | node => return node

/-- Reads a scalar as a text, however it is written. -/
def text (node : Node) : Reader String := do
  match ← follow node with
  | .scalar _ _ text => return text
  | _ => failure

/-- What stands in front of the names of common tags. -/
private def isCommon (name : String) (tag : Option String) : Bool :=
  tag == some (Tags.common ++ name)

/-- Reads a natural below `2 ^ 64`. -/
def natural (node : Node) : Reader UInt64 := do
  match ← follow node with
  | .scalar label style text =>
    if style = .plain || (style = .literal && isCommon "int" label.tag) then
      let n ← natural? text.toList
      if n < UInt64.size then return UInt64.ofNat n else failure
    else failure
  | _ => failure

/-- What is given for known names; none of them may be given twice. -/
def pick? {α : Type} (known : List String) (entries : List (String × α)) :
    Option (List (Option α)) :=
  if known.any fun name => 1 < (entries.filter fun entry => entry.1 == name).length then none
  else some (known.map fun name => entries.lookup name)

/-- What is given for known places, one after the other. -/
def place? {α : Type} (count : Nat) (items : List α) : Option (List (Option α)) :=
  if items.length ≤ count then
    some (items.map some ++ List.replicate (count - items.length) none)
  else none

/-- Reads the entries of a mapping whose keys are texts. Where nothing is written there are
none. -/
def entries (node : Node) : Reader (List (String × Node)) := do
  match ← follow node with
  | .map _ entries => entries.mapM fun (key, value) => do return (← text key, value)
  | .scalar _ .plain "" => return []
  | _ => failure

/-- Reads what is given for the known names of a record. If lists are allowed, it can also be
written as the list of its values. -/
def fields (listed : Bool) (known : List String) (node : Node) :
    Reader (List (Option Node)) := do
  match listed, ← follow node with
  | true, .list _ items => place? known.length items
  | _, node => pick? known (← entries node)

/-- Reads an entry that has a default. -/
def withDefault {α : Type} (default : α) (read : Node → Reader α) : Option Node → Reader α
  | none => return default
  | some node => read node

end Reader

/-- Reads the root of a graph. A hundred references may be followed for each mark that the root
takes. -/
def Graph.read? {α : Type} (read : Node → Reader α) (graph : Graph) : Option α :=
  ((read graph.root).run graph.targets).run' (100 * graph.root.size)

/-- Whatever a node can be. -/
inductive Datum where
  | unit
  | bool (b : Bool)
  | natural (n : UInt64)
  /-- The integer `-n`. -/
  | negated (n : Nat)
  /-- A number that is no integer, or too large for one. -/
  | real
  | text (s : String)
  | list (items : List Datum)
  | map (entries : List (Datum × Datum))

namespace Datum

/-! ### Scalars -/

/-- An integer, if a text spells one: nothing if it is too large for 64 bits, though not for 128. -/
def integer? (s : String) : Option (Option Datum) :=
  match natural? s.toList, negated? s.toList with
  | some n, _ =>
    if n < UInt64.size then some (some (natural (UInt64.ofNat n)))
    else if n < 1 <<< 128 then some none
    else none
  | none, some n =>
    if n ≤ 1 <<< 63 then some (some (negated n))
    else if n ≤ 1 <<< 127 then some none
    else none
  | none, none => none

/-- The datum of a plain scalar without a tag. -/
def ofPlain? (s : String) : Option Datum :=
  if s.isEmpty || isNull s then some unit
  else match truth? s, integer? s with
    | some b, _ => some (bool b)
    | none, some n => n
    | none, none =>
      if isReal s.toList && !isZeroPadded s.toList then some real else some (text s)

/-- The datum of a scalar. -/
def ofScalar? (tag : Option String) (style : Style) (s : String) : Option Datum :=
  match tag with
  | none => if style = .plain then ofPlain? s else some (text s)
  | some tag =>
    -- a tag decides what the text is read as, and a text that is not of that kind is refused
    if tag == Tags.common ++ "bool" then (truth? s).map bool
    else if tag == Tags.common ++ "int" then (integer? s).join
    else if tag == Tags.common ++ "float" then if isReal s.toList then some real else none
    else if tag == Tags.common ++ "null" then if isNull s then some unit else none
    else some (text s)

/-! ### Nodes -/

/-- Refuses private tags. -/
def checkTag (label : Label) : Reader Unit :=
  if label.tag.any fun tag => tag.startsWith "!" then failure else return

/-- Reads a node for whatever it is. Containers may nest up to the given depth. -/
def ofNode : Nat → Node → Reader Datum
  | 0, node => do
    match ← Reader.follow node with
    | .scalar label style s => do
      checkTag label
      ofScalar? label.tag style s
    | _ => failure
  | depth + 1, node => do
    match ← Reader.follow node with
    | .scalar label style s => do
      checkTag label
      ofScalar? label.tag style s
    | .list label items => do
      checkTag label
      return list (← items.mapM (ofNode depth))
    | .map label entries => do
      checkTag label
      return map (← entries.mapM fun (key, value) => do
        return (← ofNode depth key, ← ofNode depth value))
    | .reference _ => failure

/-! ### Reading -/

/-- An integer from `low` to `high`. -/
def within? (low high : Int) : Datum → Option Int
  | natural n => if low ≤ n.toNat ∧ n.toNat ≤ high then some n.toNat else none
  | negated n => if low ≤ -(n : Int) ∧ -(n : Int) ≤ high then some (-n) else none
  | _ => none

/-- A text. -/
def string? : Datum → Option String
  | text s => some s
  | _ => none

/-- Nothing for null, and otherwise what `read` reads. -/
def orNull? {α : Type} (read : Datum → Option α) : Datum → Option (Option α)
  | unit => some none
  | datum => (read datum).map some

/-- The name of a field that a key of a record gives, if the record knows one: the key is the name
or the number of the field. -/
def fieldName? (known : List String) : Datum → Option (Option String)
  | text name => some (if known.contains name then some name else none)
  | natural n => some known[n.toNat]?
  | _ => none

/-- What is given for the known names of a record, written as a mapping or as the list of its
values. -/
def record? (known : List String) : Datum → Option (List (Option Datum))
  | map entries => do
    let named ← entries.mapM fun (key, value) => do return (← fieldName? known key, value)
    Reader.pick? known (named.filterMap fun (name, value) => name.map (·, value))
  | list items => Reader.place? known.length items
  | _ => none

/-- An entry that must be given. -/
def required? {α : Type} (read : Datum → Option α) (entry : Option Datum) : Option α :=
  entry.bind read

/-- An entry that reads as `default` when it is not given. -/
def withDefault? {α : Type} (default : α) (read : Datum → Option α) : Option Datum → Option α
  | none => some default
  | some datum => read datum

end Datum

end ConfigLedger.Yaml
