import ConfigLedger.Store.Read

/-!
# Writing

A write appends the next version of a key and a deletion appends a tombstone; nothing is
ever changed in place. Both hold the monitor of the key from reading the latest version to
appending the next.

A conditional write pins its precondition to the version that it was computed from
(`Pending.condition`): if another writer advanced the key meanwhile, the new version is
taken and the write is refused. A key without a live record has nothing that could meet a
precondition.
-/

namespace ConfigLedger

/-- The answer to a write: the new record and the live one that it replaced. -/
structure Written where
  record : Record
  previous : Option Record

/-- The answer laid out in written order. -/
def Written.layout (w : Written) : Value :=
  .struct [("record", w.record.layout), ("previous", Record.layoutOrNull w.previous)]

/-- A version that is computed but not stored yet. -/
structure Pending where
  document : Document
  /-- The live record that it supersedes. -/
  previous : Option Record

namespace Pending

/-- The answer once the version is stored. -/
def written (p : Pending) : Except StoreError Written :=
  match p.document.record? with
  | some record => .ok ⟨record, p.previous⟩
  | none => .error (.internal "committed write produced a tombstone")

/-- Holds of exactly the version below the pending one, if that meets a precondition. -/
def condition (p : Pending) (precondition : Predicate) : Predicate :=
  (p.document.key.predicate.and
    (Predicate.equalTo "configVersion" (.number (.ofUInt64 (p.document.version - 1))))).and
    precondition

end Pending

namespace Store

/-- Null is not a value to write. -/
def checkWritable (key : Key) (value : Value) : Except StoreError Unit :=
  if value.isNull then
    .error (.invalidArgument ("cannot write null config for " ++ key.label ++ ", use delete"))
  else .ok ()

/-- Computes the next version of a key. A key that lives keeps its time of creation. -/
def prepareWrite (author : Author) (key : Key) (value : Value) : Action Pending := do
  let newest ← latest key
  let previous := newest.bind Document.record?
  let now ← Action.now
  return {
    document := {
      key, author, value
      -- numbers go on behind a tombstone, while the time of creation starts anew
      version := (newest.map fun d => d.version + 1).getD 1
      created := (previous.map fun r => r.created).getD now
      updated := now }
    previous }

/-- Computes the tombstone of a key that lives. -/
def prepareDelete (author : Author) (key : Key) : Action (Option Pending) := do
  match ← live key with
  | none => return none
  | some previous =>
    let now ← Action.now
    return some {
      document := {
        key, author
        value := .null
        version := previous.version + 1
        created := previous.created
        updated := now }
      previous := some previous }

/-- Stores a pending version if the version below it lives and meets the precondition. -/
def commitConditional (p : Pending) (precondition : Predicate) : Action Unit := do
  let met ← match p.previous with
    -- a key that does not live meets no precondition
    | none => pure false
    | some _ => Action.insertIf p.document (p.condition precondition)
  unless met do
    Action.record .writeConflict
    throw (.conflict ("precondition failed for " ++ p.document.key.label))

/-- Writes a new version of a key, if the latest one meets the precondition. -/
def write (author : Author) (key : Key) (value : Value) (precondition : Option Filter) :
    Call Written :=
  bounded .write do
    Action.ofExcept (checkWritable key value)
    let precondition ← condition precondition
    Action.holding key do
      let pending ← prepareWrite author key value
      match precondition with
      | some precondition => commitConditional pending precondition
      | none => Action.insert pending.document
      Action.ofExcept pending.written

/-- Deletes a key and returns the record that this hid. A key that does not live stays as it is. -/
def delete (author : Author) (key : Key) : Call (Option Record) :=
  bounded .delete do
    Action.holding key do
      match ← prepareDelete author key with
      | none => return none
      | some pending =>
        Action.insert pending.document
        return pending.previous

end Store

end ConfigLedger
