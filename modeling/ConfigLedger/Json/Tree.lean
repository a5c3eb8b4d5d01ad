import ConfigLedger.Json.Token
import ConfigLedger.Json.Value

/-!
# Trees of a JSON text

A `Tree` is a text after parsing and before reading: literals that denote nothing are kept,
repeated keys are kept, and nesting has no limit. Parsing runs a stack machine over the
tokens (`Reading.step`), so it is one fold over the text.

Reading gives a tree a meaning, and only what is read has to have one: a part that nobody
asks for may hold a number that is too large, a text with an unpaired surrogate half or any
depth of nesting. A reader carries a **depth**, the number of containers it may still enter,
which is `maxDepth` for a whole text:

* `Tree.value?` reads a free value. Of a key that occurs twice the last occurrence counts;
* `Tree.slots?` reads a record with known fields, given as a struct or as the list of its
  fields in declared order. Unknown fields are skipped, a known field given twice is an
  error;
* `Tree.tagged?` reads a choice between named alternatives, given as the bare name or as a
  struct with the name as its only key.
-/

namespace ConfigLedger

/-- A parsed text. -/
inductive Tree where
  | null
  | bool (b : Bool)
  | number (n : Option Number)
  | text (t : Option String)
  | list (items : List Tree)
  | struct (fields : List (Option String × Tree))

/-! ### Parsing -/

/-- A container that is not closed yet, with its finished elements in reverse. -/
inductive Frame where
  | list (done : List Tree)
  /-- The value of `key` is being parsed. -/
  | struct (done : List (Option String × Tree)) (key : Option String)

/-- What may come next, inside the given open containers. -/
inductive Reading where
  /-- A value. -/
  | value (outer : List Frame)
  /-- The first element of a list, or its end. -/
  | listStart (outer : List Frame)
  /-- The first key of a struct, or its end. -/
  | structStart (outer : List Frame)
  /-- A further key of a struct. -/
  | nextKey (done : List (Option String × Tree)) (outer : List Frame)
  /-- The colon behind a key. -/
  | colon (done : List (Option String × Tree)) (key : Option String) (outer : List Frame)
  /-- Whatever follows a finished value. -/
  | after (tree : Tree) (outer : List Frame)

namespace Reading

/-- Starts a value with its first token. -/
def startValue (outer : List Frame) : Token → Option Reading
  | .null => some (after .null outer)
  | .bool b => some (after (.bool b) outer)
  | .number n => some (after (.number n) outer)
  | .text t => some (after (.text t) outer)
  | .openList => some (listStart outer)
  | .openStruct => some (structStart outer)
  | _ => none

/-- Takes one token. -/
def step : Reading → Token → Option Reading
  | value outer, token => startValue outer token
  | listStart outer, .closeList => some (after (.list []) outer)
  | listStart outer, token => startValue (.list [] :: outer) token
  | structStart outer, .closeStruct => some (after (.struct []) outer)
  | structStart outer, .text t => some (colon [] t outer)
  | nextKey done outer, .text t => some (colon done t outer)
  | colon done key outer, .colon => some (value (.struct done key :: outer))
  -- what is done is collected last first
  | after tree (.list done :: outer), .comma => some (value (.list (tree :: done) :: outer))
  | after tree (.list done :: outer), .closeList =>
    some (after (.list (tree :: done).reverse) outer)
  | after tree (.struct done key :: outer), .comma => some (nextKey ((key, tree) :: done) outer)
  | after tree (.struct done key :: outer), .closeStruct =>
    some (after (.struct ((key, tree) :: done).reverse) outer)
  | _, _ => none

/-- Takes tokens one after the other. -/
def run (r : Reading) : List Token → Option Reading
  | [] => some r
  | token :: rest => (r.step token).bind fun r => r.run rest

end Reading

namespace Tree

/-- The tree of a text; the whole text must be one value. -/
def ofText? (s : String) : Option Tree := do
  let tokens ← Token.scan s.toList
  match ← (Reading.value []).run tokens with
  | .after tree [] => some tree
  | _ => none

mutual

/-- The tree of a value, so that values can be read like texts. -/
def ofValue : Value → Tree
  | .null => null
  | .bool b => bool b
  | .number n => number (some n)
  | .string s => text (some s)
  | .list items => list (ofValues items)
  | .struct fields => struct (ofFields fields)

/-- The trees of elements. -/
def ofValues : List Value → List Tree
  | [] => []
  | v :: rest => ofValue v :: ofValues rest

/-- The trees of fields. -/
def ofFields : List (String × Value) → List (Option String × Tree)
  | [] => []
  | (key, v) :: rest => (some key, ofValue v) :: ofFields rest

end

/-! ### Reading -/

/-- How many containers a text may nest where it is read. -/
def maxDepth : Nat :=
  127

mutual

/-- The value that a tree denotes, within a depth. -/
def value? (depth : Nat) : Tree → Option Value
  | null => some .null
  | bool b => some (.bool b)
  | number n => n.map .number
  | text t => t.map .string
  | list items => if depth = 0 then none else (values? (depth - 1) items).map .list
  | struct fields => if depth = 0 then none else (fields? (depth - 1) [] fields).map .struct

/-- The values of the elements of a list. -/
def values? (depth : Nat) : List Tree → Option (List Value)
  | [] => some []
  | item :: rest =>
    (value? depth item).bind fun v => (values? depth rest).map (v :: ·)

/-- The fields of a struct, laid one after the other over those `read` before them. -/
def fields? (depth : Nat) (read : List (String × Value)) :
    List (Option String × Tree) → Option (List (String × Value))
  | [] => some read
  | (key, item) :: rest =>
    key.bind fun key =>
      (value? depth item).bind fun v => fields? depth (putField key v read) rest

end

/-- A text. -/
def string? : Tree → Option String
  | text t => t
  | _ => none

/-- A number. -/
def number? : Tree → Option Number
  | number n => n
  | _ => none

/-- A natural below `2 ^ 64`, written as an integer. -/
def natural? (t : Tree) : Option UInt64 :=
  t.number?.bind Number.natural?

/-- An integer from `low` to `high`, written as an integer. -/
def integer? (low high : Int) (t : Tree) : Option Int :=
  (t.number?.bind Number.integer?).bind fun n => if low ≤ n ∧ n ≤ high then some n else none

/-- An integer of 64 bits, written as an integer. -/
def int64? (t : Tree) : Option Int64 :=
  (t.integer? Int64.minValue.toInt Int64.maxValue.toInt).map Int64.ofInt

/-- Null for nothing, and otherwise what `read` reads. -/
def orNull? {α : Type} (read : Tree → Option α) : Tree → Option (Option α)
  | null => some none
  | t => (read t).map some

/-- The elements of a list, each read with the remaining depth. -/
def elements? {α : Type} (depth : Nat) (read : Nat → Tree → Option α) : Tree → Option (List α)
  | list items => if depth = 0 then none else items.mapM (read (depth - 1))
  | _ => none

/-- The trees given for the known fields of a record, in their declared order. A field that is not
given leaves its slot empty. -/
def slots? (known : List String) : Tree → Option (List (Option Tree))
  | list items =>
    if items.length ≤ known.length then
      some (items.map some ++ List.replicate (known.length - items.length) none)
    else none
  | struct fields =>
    if fields.any (fun field => field.1.isNone)
      -- names that are not known are passed over, but a known one may be given once only
      || known.any (fun name => 1 < (fields.filter fun field => field.1 == some name).length)
    then none
    else some (known.map fun name => fields.lookup (some name))
  | _ => none

/-- The trees of a record's fields, and the depth that is left inside it. -/
def record? (depth : Nat) (known : List String) (t : Tree) : Option (Nat × List (Option Tree)) :=
  if depth = 0 then none else (t.slots? known).map (depth - 1, ·)

/-- The chosen alternative and what is given with it, together with the depth left for that. A bare
name comes with nothing. -/
def tagged? (depth : Nat) : Tree → Option (String × Option (Nat × Tree))
  | text t => t.map (·, none)
  | struct [(tag, payload)] => if depth = 0 then none else tag.map (·, some (depth - 1, payload))
  | _ => none

/-- The chosen alternative of a choice whose alternatives carry nothing. -/
def name? (depth : Nat) (t : Tree) : Option String :=
  match t.tagged? depth with
  | some (name, none) => some name
  | some (name, some (_, null)) => some name
  | _ => none

/-- A field that must be given. -/
def required? {α : Type} (read : Tree → Option α) (slot : Option Tree) : Option α :=
  slot.bind read

/-- A field that reads as `default` when it is not given. -/
def withDefault? {α : Type} (default : α) (read : Tree → Option α) : Option Tree → Option α
  | none => some default
  | some t => read t

end Tree

namespace Value

/-- The value of a text, within the depth of a whole text. -/
def ofText? (s : String) : Option Value :=
  (Tree.ofText? s).bind (Tree.value? Tree.maxDepth)

end Value

end ConfigLedger
