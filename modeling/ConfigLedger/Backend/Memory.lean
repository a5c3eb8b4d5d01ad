import ConfigLedger.Backend.Collection
import ConfigLedger.Backend.Error

/-!
# Collections kept in memory

How a collection answers the requests to a backend. Nothing but a version that is taken
makes a request fail, and then only the insertion of that version.
-/

namespace ConfigLedger

namespace Memory

/-- The error of a document whose version is taken. -/
def duplicate (d : Document) : BackendError :=
  .duplicateVersion d.key.label d.version

/-- Adds a document. -/
def insert (c : Collection) (d : Document) : Except BackendError Unit × Collection :=
  match c.insert? d with
  | none => (.error (duplicate d), c)
  | some c => (.ok (), c)

/-- Adds a document if exactly one stored document satisfies a condition, and tells whether
it did. -/
def insertIf (c : Collection) (d : Document) (condition : Predicate) : Bool × Collection :=
  match c.insertIf? d condition with
  | none => (false, c)
  | some c => (true, c)

/-- What each document of a bulk addition is answered. -/
def outcomes (documents : List Document) (added : List Bool) : List (Except BackendError Unit) :=
  List.zipWith (fun d added => if added then .ok () else .error (duplicate d)) documents added

/-- Adds documents, each on its own. -/
def insertAll (c : Collection) (documents : List Document) :
    List (Except BackendError Unit) × Collection :=
  let (added, c) := c.insertAll documents
  (outcomes documents added, c)

end Memory

end ConfigLedger
