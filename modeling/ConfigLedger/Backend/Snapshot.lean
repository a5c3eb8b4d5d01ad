import ConfigLedger.Backend.Disk
import ConfigLedger.Backend.Memory
import ConfigLedger.Document.Form

/-!
# Collections kept in a snapshot file

A `Snapshot` is a collection that is written to a file as a whole whenever documents were
added to it, so that it can be opened again. The file holds one list with all documents in
order.

An addition that cannot be written is taken back, so the collection never runs ahead of the
file: the call answers the error of the medium and the documents are those before it.
Additions that were refused anyway write nothing.
-/

namespace ConfigLedger

/-- A collection and the file it is kept in. -/
structure Snapshot where
  collection : Collection
  disk : Disk
  path : Path
  /-- Whether the file is packed. -/
  packed : Bool

namespace Snapshot

/-- The text of a list of documents. -/
def textOf (documents : List Document) : String :=
  (Value.list (documents.map Document.layout)).compact

/-- The documents that a text lists. -/
def documentsOf? (text : String) : Option (List Document) :=
  (Tree.ofText? text).bind (Tree.elements? Tree.maxDepth Document.ofTree?)

/-- The documents that a file holds, when packed files are expected or plain ones. -/
def decode (packed : Bool) (content : Content) : Except BackendError (List Document) :=
  if content.packed ≠ packed then .error (.decode "the file is not in the expected format")
  else match documentsOf? content.text with
    | some documents => .ok documents
    | none => .error (.decode "the text is no list of documents")

/-- Opens the snapshot at the end of a path; where nothing is, it is an empty collection. A
directory can be opened, but not read. -/
def open? (disk : Disk) (path : Path) (packed : Bool) : Except BackendError Snapshot :=
  match disk.find path with
  | .error .missing => .ok ⟨.empty, disk, path, packed⟩
  | .error e => .error (.io e.message)
  | .ok .directory => .error (.decode PathError.isDirectory.message)
  | .ok (.file content) => do
    let documents ← decode packed content
    return ⟨.ofList documents, disk, path, packed⟩

/-- Writes the collection to the file. If that fails, the documents that were `added` since the file
was last written are taken out of the collection again. -/
def persist (s : Snapshot) (added : List Document) (failure : Option Failure) :
    Except BackendError Unit × Snapshot :=
  match s.disk.save s.path ⟨s.packed, textOf s.collection.documents⟩ failure with
  | (none, disk) => (.ok (), { s with disk })
  | (some reason, disk) =>
    -- what the file does not have must not stay in memory
    (.error (.io reason), { s with disk, collection := added.foldl Collection.remove s.collection })

/-- Adds a document. -/
def insert (s : Snapshot) (d : Document) (failure : Option Failure) :
    Except BackendError Unit × Snapshot :=
  match s.collection.insert? d with
  | none => (.error (Memory.duplicate d), s)
  | some c => { s with collection := c }.persist [d] failure

/-- Adds a document if exactly one stored document satisfies a condition, and tells whether
it did. -/
def insertIf (s : Snapshot) (d : Document) (condition : Predicate) (failure : Option Failure) :
    Except BackendError Bool × Snapshot :=
  match s.collection.insertIf? d condition with
  | none => (.ok false, s)
  | some c =>
    let (result, s) := { s with collection := c }.persist [d] failure
    (result.map fun _ => true, s)

/-- The documents of a bulk addition that were added. -/
def additions (documents : List Document) (added : List Bool) : List Document :=
  ((documents.zip added).filter (·.2)).map (·.1)

/-- Adds documents, each on its own, and writes once if any was added. -/
def insertAll (s : Snapshot) (documents : List Document) (failure : Option Failure) :
    Except BackendError (List (Except BackendError Unit)) × Snapshot :=
  let (added, c) := s.collection.insertAll documents
  if added.any id then
    -- one save for all of them, and if it fails, none of them stays
    let (result, s) := { s with collection := c }.persist (additions documents added) failure
    (result.map fun _ => Memory.outcomes documents added, s)
  else (.ok (Memory.outcomes documents added), s)

/-- Whether the directory of the file exists. -/
def healthy (s : Snapshot) : Bool :=
  s.disk.holds s.path

end Snapshot

end ConfigLedger
