import ConfigLedger.Filter.Expression
import ConfigLedger.Sorting
import ConfigLedger.Store.Error

/-!
# Options of a query

A query may be given a filter, a page and a list of fields to sort by. Without fields the
newest records come first, and the context always decides last, so that pages are stable.

Every part of the written form may be missing. Where a page is given, its offset defaults to
zero and its limit to none; sorting falls unless it is said to rise.
-/

namespace ConfigLedger

/-- The name under which a direction is written. -/
def Direction.name : Direction → String
  | ascending => "ascending"
  | descending => "descending"

/-- The direction of a written name. -/
def Direction.ofName? : String → Option Direction
  | "ascending" => some ascending
  | "descending" => some descending
  | _ => none

/-- Which of the records found to return. -/
structure Page where
  limit : Option Int64 := none
  offset : Int64 := 0
deriving DecidableEq

/-- What records can be sorted by. -/
inductive SortField where
  | created | updated | context
  /-- A dotted path inside the value. -/
  | path (path : String)
deriving DecidableEq

/-- A field to sort by. -/
structure SortBy where
  field : SortField
  direction : Direction := .descending
deriving DecidableEq

/-- How to query. -/
structure QueryOptions where
  filter : Option Filter := none
  page : Option Page := none
  sortBy : List SortBy := []

namespace Page

/-- How many records to skip and how many to return at most; neither may be negative. -/
def bounds (page : Page) : Except StoreError (Nat × Option Nat) := do
  if page.offset < 0 then
    throw (.invalidArgument ("negative offset " ++ toString page.offset.toInt))
  match page.limit with
  | none => return (page.offset.toInt.toNat, none)
  | some limit =>
    if limit < 0 then throw (.invalidArgument ("negative limit " ++ toString limit.toInt))
    return (page.offset.toInt.toNat, some limit.toInt.toNat)

/-- The page laid out in written order. -/
def layout (page : Page) : Value :=
  .struct [("limit", (page.limit.map fun n => .number (.ofInt64 n)).getD .null),
    ("offset", .number (.ofInt64 page.offset))]

/-- Reads a page. -/
def ofTree? (depth : Nat) (t : Tree) : Option Page := do
  match ← t.record? depth ["limit", "offset"] with
  | (_, [limit, offset]) =>
    some {
      limit := ← Tree.withDefault? none (Tree.orNull? Tree.int64?) limit
      offset := ← Tree.withDefault? 0 Tree.int64? offset }
  | _ => none

end Page

namespace SortField

/-- The path of the field in a document. -/
def documentPath : SortField → String
  | created => "creationTimestamp"
  | updated => "updateTimestamp"
  | context => "context"
  | path p => "config." ++ p

/-- The field laid out in written order. -/
def layout : SortField → Value
  | created => .string "creation_timestamp"
  | updated => .string "update_timestamp"
  | context => .string "context"
  | path p => .struct [("path", .string p)]

/-- Reads a field. -/
def ofTree? (depth : Nat) (t : Tree) : Option SortField :=
  match t.tagged? depth with
  | some ("path", some (_, payload)) => payload.string?.map path
  | _ => match t.name? depth with
    | some "creation_timestamp" => some created
    | some "update_timestamp" => some updated
    | some "context" => some context
    | _ => none

end SortField

namespace SortBy

/-- The entry laid out in written order. -/
def layout (s : SortBy) : Value :=
  .struct [("field", s.field.layout), ("order", .string s.direction.name)]

/-- Reads an entry. -/
def ofTree? (depth : Nat) (t : Tree) : Option SortBy := do
  match ← t.record? depth ["field", "order"] with
  | (depth, [field, order]) =>
    some {
      field := ← Tree.required? (SortField.ofTree? depth) field
      direction := ← Tree.withDefault? .descending
        (fun t => (t.name? depth).bind Direction.ofName?) order }
  | _ => none

/-- The document path to sort by, with its direction. -/
def sortKey (s : SortBy) : SortKey :=
  ⟨s.field.documentPath, s.direction⟩

end SortBy

namespace QueryOptions

/-- The document paths that the records are sorted by. -/
def sortKeys (o : QueryOptions) : List SortKey :=
  -- records of one resource differ in their contexts, so this key leaves no ties
  (if o.sortBy.isEmpty then [⟨"creationTimestamp", .descending⟩] else o.sortBy.map SortBy.sortKey)
    ++ [⟨"context", .ascending⟩]

/-- The options laid out in written order. -/
def layout (o : QueryOptions) : Value :=
  .struct [("filter", (o.filter.map Filter.layout).getD .null),
    ("pagination", (o.page.map Page.layout).getD .null),
    ("sort_by", .list (o.sortBy.map SortBy.layout))]

/-- The text of options. -/
def text (o : QueryOptions) : String :=
  o.layout.compact

/-- Reads options. -/
def ofTree? (depth : Nat) (t : Tree) : Option QueryOptions := do
  match ← t.record? depth ["filter", "pagination", "sort_by"] with
  | (depth, [filter, page, sortBy]) =>
    some {
      filter := ← Tree.withDefault? none (Tree.orNull? (Filter.ofTree? depth)) filter
      page := ← Tree.withDefault? none (Tree.orNull? (Page.ofTree? depth)) page
      sortBy := ← Tree.withDefault? [] (Tree.elements? depth SortBy.ofTree?) sortBy }
  | _ => none

/-- The options that a text denotes. -/
def ofText? (s : String) : Option QueryOptions :=
  (Tree.ofText? s).bind (ofTree? Tree.maxDepth)

end QueryOptions

end ConfigLedger
