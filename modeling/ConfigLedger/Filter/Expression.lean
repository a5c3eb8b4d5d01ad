import ConfigLedger.Json.Printer
import ConfigLedger.Json.Tree

/-!
# Filter expressions

A filter is what a caller writes to select values: relations between dotted paths inside the
value and constants, joined by `and` and `or`. Operators may be left out; such a filter can
be written and read but not used.

A filter is written as a choice between `logical` and `relational` (`Filter.layout`), every
field given, and read back with missing fields at their defaults (`Filter.ofTree?`). Only
the path of a relation has no default.
-/

namespace ConfigLedger

/-- How a filter joins its operands. -/
inductive Connective where
  | unspecified | and | or
deriving DecidableEq, Repr

/-- The relation between a field and the constant of a filter. The last two ignore the constant. -/
inductive Relation where
  | unspecified
  | equalTo | notEqualTo | among | notAmong
  | lessThan | greaterThan | atMost | atLeast
  | present | absent
deriving DecidableEq, Repr

/-- A filter. -/
inductive Filter where
  | logical (connective : Connective) (operands : List Filter)
  | relational (path : String) (relation : Relation) (constant : Value)

namespace Connective

/-- The written name. -/
def name : Connective → String
  | unspecified => "unspecified"
  | and => "and"
  | or => "or"

/-- The connective of a written name. -/
def ofName? : String → Option Connective
  | "unspecified" => some unspecified
  | "and" => some and
  | "or" => some or
  | _ => none

end Connective

namespace Relation

/-- The written name. -/
def name : Relation → String
  | unspecified => "unspecified"
  | equalTo => "eq"
  | notEqualTo => "neq"
  | among => "in"
  | notAmong => "not_in"
  | lessThan => "lt"
  | greaterThan => "gt"
  | atMost => "lte"
  | atLeast => "gte"
  | present => "exists"
  | absent => "not_exists"

/-- The relation of a written name. -/
def ofName? : String → Option Relation
  | "unspecified" => some unspecified
  | "eq" => some equalTo
  | "neq" => some notEqualTo
  | "in" => some among
  | "not_in" => some notAmong
  | "lt" => some lessThan
  | "gt" => some greaterThan
  | "lte" => some atMost
  | "gte" => some atLeast
  | "exists" => some present
  | "not_exists" => some absent
  | _ => none

/-- The name in messages. -/
def title : Relation → String
  | unspecified => "Unspecified"
  | equalTo => "Eq"
  | notEqualTo => "Neq"
  | among => "In"
  | notAmong => "NotIn"
  | lessThan => "Lt"
  | greaterThan => "Gt"
  | atMost => "Lte"
  | atLeast => "Gte"
  | present => "Exists"
  | absent => "NotExists"

end Relation

namespace Filter

/-- All of the operands. -/
def and (operands : List Filter) : Filter :=
  .logical .and operands

/-- Any of the operands. -/
def or (operands : List Filter) : Filter :=
  .logical .or operands

/-! ### Written form -/

mutual

/-- The filter laid out in written order. -/
def layout : Filter → Value
  | logical connective operands =>
    .struct [("logical", .struct [("operator", .string connective.name),
      ("operands", .list (layouts operands))])]
  | relational path relation constant =>
    .struct [("relational", .struct [("path", .string path), ("operator", .string relation.name),
      ("value", constant)])]

/-- The operands laid out in written order. -/
def layouts : List Filter → List Value
  | [] => []
  | f :: rest => f.layout :: layouts rest

end

/-- The text of a filter. -/
def text (f : Filter) : String :=
  f.layout.compact

/-- A connective, or none given. -/
def connective? (depth : Nat) (slot : Option Tree) : Option Connective :=
  Tree.withDefault? .unspecified (fun t => (t.name? depth).bind Connective.ofName?) slot

/-- A relation, or none given. -/
def relation? (depth : Nat) (slot : Option Tree) : Option Relation :=
  Tree.withDefault? .unspecified (fun t => (t.name? depth).bind Relation.ofName?) slot

/-- Reads a filter. Every alternative lies two containers deep, the choice and its fields,
and operands lie in a list inside these; so the depth bounds the nesting of filters. -/
def ofTree? (depth : Nat) (t : Tree) : Option Filter :=
  match depth with
  | 0 | 1 => none
  | depth + 2 =>
    match t.tagged? (depth + 2) with
    | some ("logical", some (_, payload)) =>
      match payload.slots? ["operator", "operands"] with
      | some [operator, operands] => do
        let connective ← connective? depth operator
        let operands ← match operands, depth with
          | none, _ => some []
          -- the list of operands is a container of its own
          | some (.list items), depth + 1 => items.mapM (ofTree? depth)
          | some _, _ => none
        some (logical connective operands)
      | _ => none
    | some ("relational", some (_, payload)) =>
      match payload.slots? ["path", "operator", "value"] with
      | some [path, operator, constant] => do
        let path ← Tree.required? Tree.string? path
        let relation ← relation? depth operator
        let constant ← Tree.withDefault? .null (Tree.value? depth) constant
        some (relational path relation constant)
      | _ => none
    | _ => none
termination_by structural depth

/-- The filter that a text denotes. -/
def ofText? (s : String) : Option Filter :=
  (Tree.ofText? s).bind (ofTree? Tree.maxDepth)

end Filter

end ConfigLedger
