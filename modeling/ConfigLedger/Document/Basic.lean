import ConfigLedger.Json.Value
import ConfigLedger.Key

/-!
# Documents and records

A `Document` is one stored version of a key. Documents are never changed: a new version is a
new document, and a document whose value is null is a **tombstone**, the version that
deletes the key. A `Record` is the view of a version that callers get; tombstones have none
(`Document.record?`).

`Document.field` addresses a document by dotted paths. Metadata stands at the top level
under fixed names and has no inner paths, the value lies below `config`; so a path that
starts with `config.` can never reach metadata.
-/

namespace ConfigLedger

/-- Who made a version. -/
structure Author where
  id : String
  email : String
deriving DecidableEq

/-- What is recorded for an author who is not named. -/
def unknownAuthor : String :=
  "Unknown"

/-- One stored version of a key. Times are counted in milliseconds. -/
structure Document where
  key : Key
  version : UInt64
  author : Author
  /-- Null in a tombstone. -/
  value : Value
  /-- When the key came to life; versions that follow one another keep it. -/
  created : UInt64
  /-- When this version was made. -/
  updated : UInt64

/-- One live version of a key. -/
structure Record where
  key : Key
  version : UInt64
  value : Value
  author : Author
  created : UInt64
  updated : UInt64

namespace Document

/-- Whether the document deletes its key. -/
def isTombstone (d : Document) : Bool :=
  d.value.isNull

/-- The record of a live version. -/
def record? (d : Document) : Option Record :=
  if d.isTombstone then none
  else some ⟨d.key, d.version, d.value, d.author, d.created, d.updated⟩

/-- What stands at a dotted path of the document. -/
def field (d : Document) (path : String) : Option Value :=
  let head := String.ofList (path.toList.takeWhile (· != '.'))
  match path.toList.dropWhile (· != '.') with
  -- only the value has fields of its own
  | _ :: rest => if head == "config" then d.value.lookup (String.ofList rest) else none
  | [] => match head with
    | "config" => some d.value
    | "resourceName" => some (.string d.key.resource.name)
    | "resourceNamespace" => some (.string d.key.resource.space)
    | "tenantId" => some (.string d.key.resource.tenant)
    | "context" => some (.string d.key.context)
    | "configVersion" => some (.number (.natural d.version))
    | "lastUpdateUserId" => some (.string d.author.id)
    | "lastUpdatedUserEmail" => some (.string d.author.email)
    | "creationTimestamp" => some (.number (.natural d.created))
    | "updateTimestamp" => some (.number (.natural d.updated))
    | _ => none

end Document

end ConfigLedger
