import ConfigLedger.Locks.KeyMonitors
import ConfigLedger.Store.Write

/-!
# Writing many keys at once

A bulk operation holds the monitors of all its keys, prepares its elements one after the
other, and then stores all that are pending in one request. An element that fails leaves the
others alone.

The backend answers for the pending elements only; `settle` deals its answers out to these,
in order, between the elements that were answered before.
-/

namespace ConfigLedger

/-- An element of a bulk operation before anything is stored. -/
inductive Prepared (α : Type) where
  /-- There is nothing to store, and this is the answer. -/
  | answered (answer : Except StoreError α)
  | pending (p : Pending)

/-- Answers by key, in the order of the elements. -/
abbrev Answers (α : Type) : Type :=
  List (Key × Except StoreError α)

namespace Prepared

variable {α : Type}

/-- The version to store, if there is one. -/
def document? : Prepared α → Option Document
  | answered _ => none
  | pending p => some p.document

/-- The element as an action left it: an error is its answer. -/
def ofOutcome : Except StoreError (Prepared α) → Prepared α
  | .ok p => p
  | .error e => answered (.error e)

end Prepared

namespace Store

variable {α : Type}

/-- The answers to prepared elements, given the outcomes of those that were pending. -/
def settle (finish : Pending → Except StoreError α) :
    List (Key × Prepared α) → List (Except BackendError Unit) → Answers α
  | [], _ => []
  | (key, .answered answer) :: rest, outcomes => (key, answer) :: settle finish rest outcomes
  | (key, .pending p) :: rest, .ok () :: outcomes => (key, finish p) :: settle finish rest outcomes
  | (key, .pending _) :: rest, .error e :: outcomes =>
    (key, .error (.ofBackend e)) :: settle finish rest outcomes
  | (key, .pending _) :: rest, [] =>
    (key, .error (.internal "backend returned fewer results than documents"))
      :: settle finish rest []

/-- Counts the outcomes that say that a version is taken. -/
def recordConflicts : List (Except BackendError Unit) → Action Unit
  | [] => return
  | .error (.duplicateVersion _ _) :: rest => do
    Action.record .writeConflict
    recordConflicts rest
  | _ :: rest => recordConflicts rest

/-- Stores what is pending and answers every element. -/
def commitAll (finish : Pending → Except StoreError α) (prepared : List (Key × Prepared α)) :
    Action (Answers α) := do
  let documents := prepared.filterMap (·.2.document?)
  let outcomes ← Action.insertAll documents
  -- outcomes beyond the documents belong to none of them
  recordConflicts (outcomes.take documents.length)
  return settle finish prepared outcomes

/-- Prepares writes one after the other. -/
def prepareWrites (author : Author) : List (Key × Value) → Action (List (Key × Prepared Written))
  | [] => return []
  | (key, value) :: rest => do
    let outcome ← Action.attempt do
      Action.ofExcept (checkWritable key value)
      return Prepared.pending (← prepareWrite author key value)
    return (key, .ofOutcome outcome) :: (← prepareWrites author rest)

/-- Writes many keys, each as an unconditional write does. -/
def bulkWrite (author : Author) (values : Entries Key Value) : Call (Answers Written) := do
  if values.toList.isEmpty then throw (.invalidArgument "no configs to write")
  Call.record (.bulkSize .bulkWrite values.toList.length)
  bounded .bulkWrite do
    Action.holdingAll (lockOrder values.keys) do
      commitAll Pending.written (← prepareWrites author values.toList)

/-- Prepares deletions one after the other, where the keys in `seen` came before. A key that came
before was deleted by its first occurrence. -/
def prepareDeletes (author : Author) (seen : List Key) :
    List Key → Action (List (Key × Prepared (Option Record)))
  | [] => return []
  | key :: rest => do
    let element ← if key ∈ seen then pure (.answered (.ok none)) else do
      let outcome ← Action.attempt do
        match ← prepareDelete author key with
        | some pending => return Prepared.pending pending
        | none => return .answered (.ok none)
      pure (.ofOutcome outcome)
    return (key, element) :: (← prepareDeletes author (key :: seen) rest)

/-- Deletes many keys, each as a single deletion does. -/
def bulkDelete (author : Author) (keys : List Key) : Call (Answers (Option Record)) := do
  if keys.isEmpty then throw (.invalidArgument "no configs to delete")
  Call.record (.bulkSize .bulkDelete keys.length)
  bounded .bulkDelete do
    Action.holdingAll (lockOrder keys) do
      commitAll (fun p => .ok p.previous) (← prepareDeletes author [] keys)

end Store

end ConfigLedger
