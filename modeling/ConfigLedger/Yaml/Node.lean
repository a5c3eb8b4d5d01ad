import ConfigLedger.Json.Tree
import ConfigLedger.Yaml.Scalar

/-!
# Nodes of a settings text

A `Node` is a scalar, a list, a mapping, or a **reference** to a node that is written
elsewhere under an anchor. What a reference stands for may contain the reference itself.

An anchor is known by a number, so that two anchors of one name are told apart where they
have to be.

Settings can also be given as JSON, whose trees are nodes too (`Node.ofTree?`).
-/

namespace ConfigLedger.Yaml

/-- What is written in front of a node. -/
structure Label where
  anchor : Option Nat := none
  tag : Option String := none
deriving DecidableEq, Repr

/-- Whether nothing is written. -/
def Label.isEmpty (label : Label) : Bool :=
  label.anchor.isNone && label.tag.isNone

/-- A part of a settings text. -/
inductive Node where
  | reference (anchor : Nat)
  | scalar (label : Label) (style : Style) (text : String)
  | list (label : Label) (items : List Node)
  | map (label : Label) (entries : List (Node × Node))

namespace Node

/-- What stands where nothing is written. -/
def empty (label : Label := {}) : Node :=
  scalar label .plain ""

mutual

/-- How many marks a node takes: one if it is a scalar or a reference, and otherwise one where it
starts, one where it ends and those of its parts. -/
def size : Node → Nat
  | reference _ | scalar _ _ _ => 1
  | list _ items => sizeItems items + 2
  | map _ entries => sizeEntries entries + 2

/-- How many marks the items of a list take. -/
def sizeItems : List Node → Nat
  | [] => 0
  | item :: rest => size item + sizeItems rest

/-- How many marks the entries of a mapping take. -/
def sizeEntries : List (Node × Node) → Nat
  | [] => 0
  | (key, value) :: rest => size key + size value + sizeEntries rest

end

/-- A node with its anchor, if it has one. -/
def target (label : Label) (node : Node) : List (Nat × Node) :=
  label.anchor.toList.map (·, node)

mutual

/-- The nodes with anchors, in the order in which they start. -/
def targets : Node → List (Nat × Node)
  | reference _ => []
  | scalar label style text => target label (scalar label style text)
  | list label items => target label (list label items) ++ targetsOfItems items
  | map label entries => target label (map label entries) ++ targetsOfEntries entries

/-- The nodes with anchors among items. -/
def targetsOfItems : List Node → List (Nat × Node)
  | [] => []
  | item :: rest => targets item ++ targetsOfItems rest

/-- The nodes with anchors among entries. -/
def targetsOfEntries : List (Node × Node) → List (Nat × Node)
  | [] => []
  | (key, value) :: rest => targets key ++ targets value ++ targetsOfEntries rest

end

/-! ### JSON -/

mutual

/-- The node of a JSON text; nothing if a part of the text denotes nothing. -/
def ofTree? : Tree → Option Node
  | .null => some (scalar {} .plain "null")
  | .bool b => some (scalar {} .plain (if b then "true" else "false"))
  | .number n => n.map fun n => scalar {} .plain (String.ofList n.text)
  | .text t => t.map (scalar {} .doubleQuoted)
  | .list items => (ofTrees? items).map (list {})
  | .struct fields => (ofFields? fields).map (map {})

/-- The nodes of elements. -/
def ofTrees? : List Tree → Option (List Node)
  | [] => some []
  | t :: rest => (ofTree? t).bind fun node => (ofTrees? rest).map (node :: ·)

/-- The nodes of fields. -/
def ofFields? : List (Option String × Tree) → Option (List (Node × Node))
  | [] => some []
  | (key, t) :: rest =>
    key.bind fun key => (ofTree? t).bind fun node =>
      (ofFields? rest).map ((scalar {} .doubleQuoted key, node) :: ·)

end

end Node

end ConfigLedger.Yaml
