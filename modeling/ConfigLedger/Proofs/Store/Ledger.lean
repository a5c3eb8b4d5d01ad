import ConfigLedger.Proofs.Entries
import ConfigLedger.Proofs.Store.Calls
import ConfigLedger.Proofs.Store.Pending

/-!
# The store as a ledger

What a client needs to know about a key is how many versions there were and what is live. A
`Ledger` keeps just that, and its operations are what the store is to be understood by: a write
counts one more version and replaces what is live, a deletion counts one more version and leaves
nothing live, and every query looks at what is live. Operations on many keys are the operations
on single keys, one after the other.
-/

namespace ConfigLedger

/-- What is live under a key. -/
structure Live where
  value : Value
  author : Author
  created : UInt64
  updated : UInt64

/-- What is known about one key. -/
structure Slot where
  /-- How many versions there were. -/
  counter : Nat := 0
  live : Option Live := none

/-- The record of what is live; its version is the number of versions there were. -/
def Live.record (key : Key) (counter : Nat) (x : Live) : Record :=
  ⟨key, .ofNat counter, x.value, x.author, x.created, x.updated⟩

/-- The live record. -/
def Slot.record? (key : Key) (slot : Slot) : Option Record :=
  slot.live.map (Live.record key slot.counter)

/-- A count and a live record for every key, and the times that are still to come. -/
structure Ledger where
  slots : Entries Key Slot := .empty
  readings : Nat → UInt64

/-- The predicate of an optional filter, or why there is none. -/
def compiled : Option Filter → Except StoreError (Option Predicate)
  | none => .ok none
  | some f => (f.compile.mapError StoreError.ofFilter).map some

namespace Record

/-- What stands at a dotted path of the record. -/
def field (r : Record) : String → Option Value :=
  r.document.field

/-- Whether a record satisfies a predicate. -/
def satisfies (r : Record) (p : Predicate) : Bool :=
  p.holds r.field

end Record

namespace Ledger

variable (ledger : Ledger)

/-- What is known about a key. -/
def slot (key : Key) : Slot :=
  (ledger.slots.get? key).getD {}

/-- The live record of a key. -/
def record? (key : Key) : Option Record :=
  (ledger.slot key).record? key

/-- The ledger after the clock was read. -/
def tick : Ledger :=
  { ledger with readings := fun n => ledger.readings (n + 1) }

/-- Counts one more version of a key, which leaves `live` there. -/
def advance (key : Key) (live : Option Live) : Ledger :=
  { ledger.tick with slots := ledger.slots.put key ⟨(ledger.slot key).counter + 1, live⟩ }

/-- Writes a key, unless it is to meet a precondition and does not. -/
def write (author : Author) (key : Key) (value : Value) (precondition : Option Filter) :
    Except StoreError Written × Ledger :=
  match Store.checkWritable key value, compiled precondition with
  | .error e, _ | _, .error e => (.error e, ledger)
  | .ok (), .ok precondition =>
    let previous := ledger.record? key
    if precondition.all fun p => previous.any (·.satisfies p) then
      let now := ledger.readings 0
      let live : Live := ⟨value, author, (previous.map Record.created).getD now, now⟩
      (.ok ⟨live.record key ((ledger.slot key).counter + 1), previous⟩,
        ledger.advance key (some live))
    else (.error (.conflict ("precondition failed for " ++ key.label)), ledger.tick)

/-- Deletes a key if it lives. -/
def delete (key : Key) : Option Record × Ledger :=
  match ledger.record? key with
  | some r => (some r, ledger.advance key none)
  | none => (none, ledger)

/-- Writes keys one after the other. -/
def writeAll (author : Author) (ledger : Ledger) : List (Key × Value) → Answers Written × Ledger
  | [] => ([], ledger)
  | (key, value) :: rest =>
    let (outcome, ledger) := ledger.write author key value none
    let (outcomes, ledger) := ledger.writeAll author rest
    ((key, outcome) :: outcomes, ledger)

/-- Deletes keys one after the other. -/
def deleteAll (ledger : Ledger) : List Key → Answers (Option Record) × Ledger
  | [] => ([], ledger)
  | key :: rest =>
    let (deleted, ledger) := ledger.delete key
    let (outcomes, ledger) := ledger.deleteAll rest
    ((key, .ok deleted) :: outcomes, ledger)

/-- The live records of a resource that satisfy a predicate. -/
def records (resource : Resource) (filter : Option Predicate) : List Record :=
  (ledger.slots.toList.filterMap fun (key, slot) => slot.record? key).filter fun r =>
    decide (r.key.resource = resource) && filter.all r.satisfies

/-- A page of the matching records, and how many match. -/
def page (resource : Resource) (options : QueryOptions) (filter : Option Predicate)
    (bounds : Nat × Option Nat) : QueryResult :=
  let matching := ledger.records resource filter
  let window := (sortBy Record.field options.sortKeys matching).drop bounds.1
  ⟨(bounds.2.map window.take).getD window, matching.length⟩

/-- The page that is asked for. -/
def query (resource : Resource) (options : QueryOptions) : Except StoreError QueryResult := do
  let filter ← compiled options.filter
  let bounds ← (options.page.map Page.bounds).getD (.ok (0, none))
  return ledger.page resource options filter bounds

/-- How many records match. -/
def count (resource : Resource) (filter : Option Filter) : Except StoreError Nat := do
  return (ledger.records resource (← compiled filter)).length

/-- The live records of those keys that live, in the order of the keys. -/
def readMany (keys : List Key) : Entries Key Record :=
  keys.foldl (fun records key => ((ledger.record? key).map (records.put key)).getD records) .empty

/-- Makes a call. -/
def answer : (c : StoreCall) → Except StoreError c.Answer × Ledger
  | .write author key value precondition => ledger.write author key value precondition
  | .delete _ key => (.ok (ledger.delete key).1, (ledger.delete key).2)
  | .bulkWrite author values =>
    if values.toList.isEmpty then (.error (.invalidArgument "no configs to write"), ledger)
    else (.ok (ledger.writeAll author values.toList).1, (ledger.writeAll author values.toList).2)
  | .bulkDelete _ keys =>
    if keys.isEmpty then (.error (.invalidArgument "no configs to delete"), ledger)
    else (.ok (ledger.deleteAll keys).1, (ledger.deleteAll keys).2)
  | .read key => (.ok (ledger.record? key), ledger)
  | .readMany keys => (.ok (ledger.readMany keys), ledger)
  | .query resource options => (ledger.query resource options, ledger)
  | .count resource filter => (ledger.count resource filter, ledger)

/-- Makes calls one after the other. -/
def answerAll (ledger : Ledger) : List StoreCall → List StoreCall.Answered × Ledger
  | [] => ([], ledger)
  | c :: rest =>
    let (outcome, ledger) := ledger.answer c
    let (outcomes, ledger) := ledger.answerAll rest
    (⟨c, outcome⟩ :: outcomes, ledger)

end Ledger

end ConfigLedger
