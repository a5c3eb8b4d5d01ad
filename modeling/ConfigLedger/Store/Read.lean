import ConfigLedger.Document.Form
import ConfigLedger.Entries
import ConfigLedger.Json.Merge
import ConfigLedger.Store.Options
import ConfigLedger.Store.Procedure

/-!
# Reading

Only the latest version of a key is ever seen, and only while it lives. `latest` asks for
the newest version of one key. `latestLive` asks for all versions of a resource, newest
first, and keeps the first of each context; tombstones are dropped after that, and the
filter comes last, so that a version that was superseded never matches.
-/

namespace ConfigLedger

/-- What a query returns. -/
structure QueryResult where
  records : List Record
  /-- How many records matched, on all pages together. -/
  total : Nat

/-- The values of several contexts merged into one. -/
structure Merged where
  value : Value
  created : UInt64
  updated : UInt64

/-- The result laid out in written order. -/
def QueryResult.layout (r : QueryResult) : Value :=
  .struct [("records", .list (r.records.map Record.layout)),
    ("total_count", .number (.natural (.ofNat r.total)))]

/-- The merged value laid out in written order. -/
def Merged.layout (m : Merged) : Value :=
  .struct [("value", m.value), ("creation_timestamp", .number (.natural m.created)),
    ("update_timestamp", .number (.natural m.updated))]

/-- Merges one more record over what was merged before it; the times are those of the last one. -/
def Merged.extend (merged : Option Merged) (r : Record) : Option Merged :=
  some ⟨(merged.map fun m => m.value.merge r.value).getD r.value, r.created, r.updated⟩

namespace Store

/-- The newest version of a key. -/
def latest (key : Key) : Action (Option Document) := do
  let found ← Action.find
    { condition := some key.predicate, sort := [newestFirst], limit := some 1 }
  return found.head?

/-- The live record of a key. -/
def live (key : Key) : Action (Option Record) := do
  return (← latest key).bind Document.record?

/-- The newest versions of all contexts of a resource that live and match a filter. -/
def latestLive (resource : Resource) (filter : Option Predicate) : Action (List Document) := do
  let found ← Action.find { condition := some resource.predicate, sort := [newestFirst] }
  -- tombstones are left out last, so that no older version comes forward in their place
  return (firstBy (fun d => d.key.context) found).filter fun d =>
    !d.isTombstone && filter.all d.satisfies

/-- The predicate of an optional filter. -/
def condition (filter : Option Filter) : Action (Option Predicate) :=
  match filter with
  | none => return none
  | some f => return some (← Action.ofExcept (f.compile.mapError StoreError.ofFilter))

/-- Reads the live record of a key. -/
def read (key : Key) : Call (Option Record) :=
  bounded .read (live key)

/-- The records of matching documents, sorted and cut to a page. -/
def page (options : QueryOptions) (bounds : Nat × Option Nat) (matching : List Document) :
    List Record :=
  let window := (sortBy Document.field options.sortKeys matching).drop bounds.1
  (match bounds.2 with
    | some limit => window.take limit
    | none => window).filterMap Document.record?

/-- Reads the live records of a resource. -/
def query (resource : Resource) (options : QueryOptions) : Call QueryResult :=
  bounded .query do
    let filter ← condition options.filter
    let bounds ← match options.page with
      | some page => Action.ofExcept page.bounds
      | none => pure (0, none)
    let matching ← latestLive resource filter
    Action.record (.queryResults matching.length)
    return ⟨page options bounds matching, matching.length⟩

/-- Counts the live records of a resource that match a filter. -/
def count (resource : Resource) (filter : Option Filter) : Call Nat :=
  bounded .count do
    let filter ← condition filter
    return (← latestLive resource filter).length

/-- Reads keys one after the other into `records`. -/
def readAll (records : Entries Key Record) : List Key → Action (Entries Key Record)
  | [] => return records
  | key :: rest => do
    match ← live key with
    | some r => readAll (records.put key r) rest
    | none => readAll records rest

/-- Reads the live records of several keys, in the order of the keys. -/
def readMany (keys : List Key) : Call (Entries Key Record) :=
  bounded .readMany (readAll .empty keys)

/-- Reads the value of a resource in several contexts: the value of the default context with that of
each given one merged over it, in their order. -/
def readMerged (resource : Resource) (contexts : List String) : Call (Option Merged) := do
  let records ← readMany (resource.defaultKey :: contexts.map resource.key)
  return records.values.foldl Merged.extend none

/-- Whether the backend is in order. -/
def health : Procedure Bool :=
  Procedure.request .health

end Store

end ConfigLedger
