import ConfigLedger.Proofs.Store.Setting
import ConfigLedger.Store.Bulk

/-!
# Calls as data

A `StoreCall` names an operation of the store together with its arguments, so that a client is a
list of calls and statements can be about all of them. `StoreCall.call` is the operation itself,
and `StoreCall.runAll` makes calls one after the other.
-/

namespace ConfigLedger

/-- An operation of the store and its arguments. -/
inductive StoreCall where
  | write (author : Author) (key : Key) (value : Value) (precondition : Option Filter)
  | delete (author : Author) (key : Key)
  | bulkWrite (author : Author) (values : Entries Key Value)
  | bulkDelete (author : Author) (keys : List Key)
  | read (key : Key)
  | readMany (keys : List Key)
  | query (resource : Resource) (options : QueryOptions)
  | count (resource : Resource) (filter : Option Filter)

namespace StoreCall

/-- What a call answers if it succeeds. -/
def Answer : StoreCall → Type
  | write .. => Written
  | delete .. | read .. => Option Record
  | bulkWrite .. => Answers Written
  | bulkDelete .. => Answers (Option Record)
  | readMany .. => Entries Key Record
  | query .. => QueryResult
  | count .. => Nat

/-- The operation. -/
def call : (c : StoreCall) → Call c.Answer
  | write author key value precondition => Store.write author key value precondition
  | delete author key => Store.delete author key
  | bulkWrite author values => Store.bulkWrite author values
  | bulkDelete author keys => Store.bulkDelete author keys
  | read key => Store.read key
  | readMany keys => Store.readMany keys
  | query resource options => Store.query resource options
  | count resource filter => Store.count resource filter

/-- A call with its outcome. -/
abbrev Answered : Type :=
  (c : StoreCall) × Except StoreError c.Answer

/-- Makes calls one after the other. -/
def runAll : List StoreCall → Setting → List Answered × Setting
  | [], s => ([], s)
  | c :: rest, s =>
    let (outcome, s) := c.call.run s
    let (outcomes, s) := runAll rest s
    (⟨c, outcome⟩ :: outcomes, s)

end StoreCall

end ConfigLedger
