import ConfigLedger.Document.Basic
import ConfigLedger.Predicate
import ConfigLedger.Sorting

/-!
# Queries over documents

A query selects documents by a predicate, sorts them, and cuts a window out of the result.
The predicates here are those that the store itself needs: all versions of all keys of a
resource, and all versions of one key.
-/

namespace ConfigLedger

/-- Whether a document satisfies a predicate. -/
def Document.satisfies (d : Document) (p : Predicate) : Bool :=
  p.holds d.field

/-- A selection of documents, sorted and cut. -/
structure Query where
  condition : Option Predicate := none
  sort : List SortKey := []
  offset : Nat := 0
  limit : Option Nat := none

/-- What a query finds among documents. -/
def Query.select (q : Query) (documents : List Document) : List Document :=
  let found := documents.filter fun d => q.condition.all d.satisfies
  let window := (sortBy Document.field q.sort found).drop q.offset
  match q.limit with
  | some limit => window.take limit
  | none => window

/-- The versions of all keys of a resource. -/
def Resource.predicate (r : Resource) : Predicate :=
  ((Predicate.equalTo "resourceName" (.string r.name)).and
    (Predicate.equalTo "resourceNamespace" (.string r.space))).and
    (Predicate.equalTo "tenantId" (.string r.tenant))

/-- The versions of a key. -/
def Key.predicate (key : Key) : Predicate :=
  key.resource.predicate.and (Predicate.equalTo "context" (.string key.context))

/-- Falling by version. -/
def newestFirst : SortKey :=
  ⟨"configVersion", .descending⟩

end ConfigLedger
