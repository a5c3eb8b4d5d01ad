import ConfigLedger.Document.Basic
import ConfigLedger.Json.Printer
import ConfigLedger.Json.Tree

/-!
# Written form of documents and records

A document is written as one struct in the order of `Document.fieldNames`. It is read from
such a struct in any order, or from the list of its fields; the author and the value may be
missing, which names the author unknown and makes the document a tombstone. Records are only
written.
-/

namespace ConfigLedger

namespace Document

/-- The names of the fields in written order. -/
def fieldNames : List String :=
  ["resourceName", "resourceNamespace", "tenantId", "context", "configVersion", "lastUpdateUserId",
    "lastUpdatedUserEmail", "config", "creationTimestamp", "updateTimestamp"]

/-- The document laid out as a struct in written order. -/
def layout (d : Document) : Value :=
  .struct (fieldNames.zip
    [.string d.key.resource.name, .string d.key.resource.space, .string d.key.resource.tenant,
      .string d.key.context, .number (.natural d.version), .string d.author.id,
      .string d.author.email, d.value, .number (.natural d.created), .number (.natural d.updated)])

/-- The text of a document. -/
def text (d : Document) : String :=
  d.layout.compact

/-- Reads a document. -/
def ofTree? (depth : Nat) (t : Tree) : Option Document := do
  match ← t.record? depth fieldNames with
  | (depth, [name, space, tenant, context, version, id, email, value, created, updated]) =>
    some {
      key := ⟨⟨← Tree.required? Tree.string? name, ← Tree.required? Tree.string? space,
        ← Tree.required? Tree.string? tenant⟩, ← Tree.required? Tree.string? context⟩
      version := ← Tree.required? Tree.natural? version
      author := ⟨← Tree.withDefault? unknownAuthor Tree.string? id,
        ← Tree.withDefault? unknownAuthor Tree.string? email⟩
      value := ← Tree.withDefault? .null (Tree.value? depth) value
      created := ← Tree.required? Tree.natural? created
      updated := ← Tree.required? Tree.natural? updated }
  | _ => none

/-- The document that a text denotes. -/
def ofText? (s : String) : Option Document :=
  (Tree.ofText? s).bind (ofTree? Tree.maxDepth)

end Document

/-- The key laid out as a struct in written order. -/
def Key.layout (key : Key) : Value :=
  .struct [
    ("resource", .struct [("resource_name", .string key.resource.name),
      ("resource_namespace", .string key.resource.space),
      ("tenant_id", .string key.resource.tenant)]),
    ("context", .string key.context)]

/-- The record laid out as a struct in written order. -/
def Record.layout (r : Record) : Value :=
  .struct [
    ("key", r.key.layout), ("version", .number (.natural r.version)), ("value", r.value),
    ("created_by_user_id", .string r.author.id), ("created_by_user_email", .string r.author.email),
    ("creation_timestamp", .number (.natural r.created)),
    ("update_timestamp", .number (.natural r.updated))]

/-- Null, or a record laid out. -/
def Record.layoutOrNull (r : Option Record) : Value :=
  (r.map Record.layout).getD .null

end ConfigLedger
