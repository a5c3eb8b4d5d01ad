import ConfigLedger.Entries
import ConfigLedger.Json.Merge

/-!
# Scopes

Configurations can be kept for scopes that inherit from one another. The `ancestry` of a
scope lists the scopes it inherits from, the least specific first, and ends in the scope
itself; its effective configuration is the merge of what these scopes have, from the least
to the most specific one (`Resolver.resolve`). A default lies below all of them.

`pathAncestry` reads the ancestry off the name of a scope: before every separator a scope of
its own ends, unless it would be empty.
-/

namespace ConfigLedger

/-- Something that is kept for a scope. -/
structure Scoped (σ α : Type) where
  scope : σ
  data : α

/-! ### Ancestry by path -/

/-- What stands before each occurrence of a separator. -/
def cuts (separator : Char) : List Char → List (List Char)
  | [] => []
  | c :: rest =>
    (if c = separator then [[]] else []) ++ (cuts separator rest).map (c :: ·)

/-- The scopes that a scope named by a path inherits from, and itself. -/
def pathAncestry (separator : Char) (scope : String) : List String :=
  ((cuts separator scope.toList).filter fun cut => !cut.isEmpty).map String.ofList ++ [scope]

/-! ### Strategies -/

/-- Merges typed data as the values that they are written as. Where the merged value is no
such data, the preferred one stays. -/
def mergeWritten {α : Type} (write : α → Value) (read : Value → Option α) (fallback preferred : α) :
    α :=
  (read ((write fallback).merge (write preferred))).getD preferred

/-- Lays data over what came before them. -/
def overlay {α : Type} (merge : α → α → α) (below : Option α) (above : α) : Option α :=
  match below with
  | some below => some (merge below above)
  | none => some above

/-! ### Resolution -/

/-- How effective configurations are found. -/
structure Resolver (σ α : Type) where
  ancestry : σ → List σ
  /-- The fallback comes first, the preferred data second. -/
  merge : α → α → α
  default : Option α := none

/-- What is kept for a scope; of several records the last one counts. -/
def dataOf? {σ α : Type} [BEq σ] (records : List (Scoped σ α)) (scope : σ) : Option α :=
  (records.reverse.find? (·.scope == scope)).map (·.data)

namespace Resolver

variable {σ α : Type} [BEq σ] (resolver : Resolver σ α)

/-- The effective configuration of a scope, which need not have a record of its own. -/
def resolve (records : List (Scoped σ α)) (scope : σ) : Option α :=
  (resolver.default.toList ++ (resolver.ancestry scope).filterMap (dataOf? records)).foldl
    (overlay resolver.merge) none

/-- The effective configurations of all scopes that have a record, in order of first appearance. -/
def resolveAll (records : List (Scoped σ α)) : List (Scoped σ α) :=
  (firstBy id (records.map (·.scope))).filterMap fun scope =>
    (resolver.resolve records scope).map fun data => ⟨scope, data⟩

end Resolver

/-- Data of a named scope, laid out in written order. -/
def Scoped.layout (s : Scoped String Value) : Value :=
  .struct [("scope", .string s.scope), ("data", s.data)]

end ConfigLedger
