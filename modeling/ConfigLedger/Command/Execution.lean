import ConfigLedger.Command.Arguments
import ConfigLedger.Scope
import ConfigLedger.Store.Write

/-!
# Executing commands

`Command.execute` carries a command out on a store and returns what is to be printed. Texts
given as arguments are read first, so a malformed one changes nothing.

To resolve scopes, the contexts of a resource are taken as scopes named by paths, with the
value of the default context as the default of all of them.

What is printed goes to an output that may be full (`writeOut`). By then the store has
changed.
-/

namespace ConfigLedger

/-- Why a command failed. -/
inductive CommandError where
  | store (e : StoreError)
  | filter (e : FilterError)
  /-- A value is no JSON text, or does not fit into the output. -/
  | json (reason : String)
  | output (reason : String)
  | notFound (what : String)
deriving DecidableEq

/-- The message of an error. -/
def CommandError.message : CommandError → String
  | store e => e.message
  | filter e => "invalid filter: " ++ e.message
  | json reason => "invalid JSON: " ++ reason
  | output reason => "could not write output: " ++ reason
  | notFound what => what ++ " not found"

/-- What a command does, step by step. -/
abbrev Execution : Type → Type :=
  ExceptT CommandError Procedure

namespace Execution

variable {α : Type}

/-- A call to the store. -/
def ofCall (c : Call α) : Execution α :=
  ExceptT.mk do return (← c.steps).mapError .store

/-- The filter of a text, if there is one. -/
def filter : Option String → Execution (Option Filter)
  | none => return none
  | some text => match Filter.parse text with
    | .ok f => return some f
    | .error e => throw (.filter e)

/-- What was found, if something was. -/
def found (what : String) : Option α → Execution α
  | some a => return a
  | none => throw (.notFound what)

end Execution

namespace Command

/-- The values of the scopes among records: the default of all of them, and what is kept for
each. -/
def scopes (records : List Record) : Option Value × List (Scoped String Value) :=
  let (defaults, others) := records.partition fun r => r.key.context == defaultContext
  (defaults.getLast?.map (·.value), others.map fun r => ⟨r.key.context, r.value⟩)

/-- The resolver of scopes named by paths, over values. -/
def resolver (separator : Char) (default : Option Value) : Resolver String Value where
  ancestry := pathAncestry separator
  merge := Value.merge
  default := default

/-- Carries a command out; the result is to be printed. -/
def execute (author : Author) : Command → Execution Value
  | get resource context [] => do
    let key := resource.key context
    let record ← Execution.ofCall (Store.read key)
    return (← Execution.found key.label record).layout
  | get resource _ merge => do
    let merged ← Execution.ofCall (Store.readMerged resource merge)
    return (← Execution.found resource.label merged).layout
  | put resource context text precondition => do
    match Value.ofText? text with
    | none => throw (.json "no value in the given text")
    | some value =>
      let precondition ← Execution.filter precondition
      let written ← Execution.ofCall (Store.write author (resource.key context) value precondition)
      return written.layout
  | delete resource context => do
    let key := resource.key context
    let record ← Execution.ofCall (Store.delete author key)
    return (← Execution.found key.label record).layout
  | list resource filter limit offset sortPath => do
    let filter ← Execution.filter filter
    let sortBy := sortPath.toList.map fun path => { field := .path path }
    let result ← Execution.ofCall
      (Store.query resource { filter, page := some ⟨limit, offset⟩, sortBy })
    return result.layout
  | resolve resource scope separator => do
    let result ← Execution.ofCall (Store.query resource {})
    let (default, records) := scopes result.records
    let resolver := resolver separator default
    match scope with
    | some scope =>
      let data ← Execution.found scope (resolver.resolve records scope)
      return Scoped.layout ⟨scope, data⟩
    | none => return .list ((resolver.resolveAll records).map Scoped.layout)

end Command

/-- The text of a printed value, with the end of its last line. Where the output has room for `room`
bytes only, the value or the end of the line may not fit. -/
def writeOut (room : Option Nat) (v : Value) : Except CommandError String :=
  let body := v.pretty
  match room with
  | none => .ok (body ++ "\n")
  | some room =>
    if room < body.utf8ByteSize then .error (.json "output full")
    else if room < body.utf8ByteSize + 1 then .error (.output "output full")
    else .ok (body ++ "\n")

end ConfigLedger
