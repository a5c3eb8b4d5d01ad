import ConfigLedger.Backend.Memory

/-!
# Faults

A `Fault` is a way in which a backend that keeps its documents in memory can misbehave, to
be watched from outside: it refuses requests, never answers, loses an answer, or lets a
rival in between.
-/

namespace ConfigLedger

/-- How a backend misbehaves. -/
inductive Fault where
  /-- Queries are refused. -/
  | unavailableFind
  /-- Insertions of every kind are refused. -/
  | unavailableInsert
  /-- Insertions of every kind fail to encode. -/
  | encode
  /-- Queries are never answered. -/
  | hang
  /-- Every request lets others go first. -/
  | yield
  /-- A bulk insertion reports one outcome less than it has. -/
  | shortBulk
  /-- The backend reports itself out of order. -/
  | unhealthy
  /-- A rival inserts the same version just before. -/
  | race
deriving DecidableEq, Repr

/-- The fault of a written name. -/
def Fault.ofName? : String → Option Fault
  | "unavailable_find" => some unavailableFind
  | "unavailable_insert" => some unavailableInsert
  | "encode" => some encode
  | "hang" => some hang
  | "yield" => some yield
  | "short_bulk" => some shortBulk
  | "unhealthy" => some unhealthy
  | "race" => some race
  | _ => none

/-- The document that a rival inserts in the place of another. -/
def Document.rival (d : Document) : Document :=
  { d with
    value := .struct [("raced", .bool true)]
    author := { d.author with id := "rival" } }

namespace Faulty

/-- The error of a request that is refused. -/
def refusal : BackendError :=
  .unavailable "injected"

/-- Answers a query. -/
def find (fault : Option Fault) (c : Collection) (q : Query) : Reply (List Document) :=
  match fault with
  | some .unavailableFind => some (.error refusal)
  | some .hang => none
  | _ => some (.ok (c.find q))

/-- The error of an insertion, if the fault makes insertions fail. -/
def insertError? : Option Fault → Option BackendError
  | some .unavailableInsert => some refusal
  | some .encode => some (.encode "injected")
  | _ => none

/-- The collection as an insertion finds it. -/
def raced (fault : Option Fault) (c : Collection) (documents : List Document) : Collection :=
  match fault, documents with
  | some .race, d :: _ => (Memory.insert c d.rival).2
  | _, _ => c

/-- Adds a document. -/
def insert (fault : Option Fault) (c : Collection) (d : Document) :
    Except BackendError Unit × Collection :=
  match insertError? fault with
  | some e => (.error e, c)
  | none => Memory.insert (raced fault c [d]) d

/-- Adds a document if exactly one stored document satisfies a condition. -/
def insertIf (fault : Option Fault) (c : Collection) (d : Document) (condition : Predicate) :
    Except BackendError Bool × Collection :=
  match insertError? fault with
  | some e => (.error e, c)
  | none =>
    let (added, c) := Memory.insertIf (raced fault c [d]) d condition
    (.ok added, c)

/-- Adds documents, each on its own. -/
def insertAll (fault : Option Fault) (c : Collection) (documents : List Document) :
    Except BackendError (List (Except BackendError Unit)) × Collection :=
  match insertError? fault with
  | some e => (.error e, c)
  | none =>
    let (outcomes, c) := Memory.insertAll (raced fault c documents) documents
    (.ok (if fault = some .shortBulk then outcomes.dropLast else outcomes), c)

/-- Whether the backend reports itself in order. -/
def healthy (fault : Option Fault) : Bool :=
  fault != some .unhealthy

end Faulty

end ConfigLedger
