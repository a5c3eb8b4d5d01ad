import ConfigLedger.Store.Bulk
import ConfigLedger.Store.Tenant

/-!
# Objects

An `ObjectStore` gives typed access to one resource of every tenant. Its `Codec` turns
objects into values and back and says under which context an object is kept; nothing is
asked of it, so stored values may fail to decode. A listing leaves such values out,
everywhere else they are an error.

`ObjectStore.insertUnique` creates an object unless one of the tenant's objects agrees with
it in a chosen aspect. It checks and creates under the tenant's lock.
-/

namespace ConfigLedger

/-- How objects are kept as values. -/
structure Codec (τ : Type) where
  encode : τ → Except String Value
  decode : Value → Except String τ
  /-- The context that an object is kept under. -/
  contextOf : τ → String

/-- A stored object. -/
structure Object (τ : Type) where
  context : String
  data : τ
  version : UInt64
  created : UInt64
  updated : UInt64

/-- The answer to an upsert: the object, and the one that it replaced if that still decodes. -/
structure Upserted (τ : Type) where
  object : Object τ
  previous : Option (Object τ)

/-- Answers by context. -/
abbrev ContextAnswers (α : Type) : Type :=
  List (String × Except StoreError α)

/-- A resource of every tenant whose values are objects. -/
structure ObjectStore (τ : Type) where
  name : String
  space : String
  codec : Codec τ

namespace ObjectStore

variable {τ κ : Type} (store : ObjectStore τ)

/-- The resource of a tenant. -/
def resource (tenant : String) : Resource :=
  ⟨store.name, store.space, tenant⟩

/-- The object of a record. -/
def decode (r : Record) : Call (Object τ) :=
  match store.codec.decode r.value with
  | .ok data => return ⟨r.key.context, data, r.version, r.created, r.updated⟩
  | .error reason => do
    Call.record .decodeFailure
    throw (.internal ("could not decode " ++ r.key.label ++ ": " ++ reason))

/-- The object of a record, if there is a record. -/
def decodeSome : Option Record → Call (Option (Object τ))
  | none => return none
  | some r => return some (← store.decode r)

/-- The object of a record, if it decodes. -/
def decode? (r : Record) : Call (Option (Object τ)) := do
  return (← Call.ofProcedure (store.decode r).steps).toOption

/-- The objects of those records that decode. -/
def decodeAll : List Record → Call (List (Object τ))
  | [] => return []
  | r :: rest => do
    let object ← store.decode? r
    return object.toList ++ (← decodeAll rest)

/-- The value of an object. -/
def encode (object : τ) : Except StoreError Value :=
  (store.codec.encode object).mapError fun reason =>
    .invalidArgument ("could not encode object: " ++ reason)

/-- The answer to a write as an answer to an upsert. -/
def upserted (w : Written) : Call (Upserted τ) := do
  let previous ← match w.previous with
    | some r => store.decode? r
    | none => pure none
  return ⟨← store.decode w.record, previous⟩

/-- Goes from answers by key to answers by context, where `next` goes on with what succeeded. -/
def answer {α β : Type} (next : α → Call β) : Answers α → Call (ContextAnswers β)
  | [] => return []
  | (key, outcome) :: rest => do
    let outcome ← Call.ofProcedure (do next (← Call.ofExcept outcome) : Call β).steps
    return (key.context, outcome) :: (← answer next rest)

/-- Reads an object. -/
def get (tenant context : String) : Call (Option (Object τ)) := do
  store.decodeSome (← Store.read ((store.resource tenant).key context))

/-- Lists objects, leaving out what does not decode. -/
def list (tenant : String) (options : QueryOptions) : Call (List (Object τ)) := do
  store.decodeAll (← Store.query (store.resource tenant) options).records

/-- Creates or replaces an object, if the stored one meets the precondition. -/
def upsert (author : Author) (tenant : String) (object : τ) (precondition : Option Filter) :
    Call (Upserted τ) := do
  let key := (store.resource tenant).key (store.codec.contextOf object)
  let value ← Call.ofExcept (store.encode object)
  store.upserted (← Store.write author key value precondition)

/-- The values of objects by key; of objects with one context the last counts. -/
def encodeAll (tenant : String) (objects : List τ) : Except StoreError (Entries Key Value) :=
  objects.foldlM (fun values object => do
    return values.put ((store.resource tenant).key (store.codec.contextOf object))
      (← store.encode object)) .empty

/-- Creates or replaces objects, each on its own, once all of them are encoded. -/
def upsertAll (author : Author) (tenant : String) (objects : List τ) :
    Call (ContextAnswers (Upserted τ)) := do
  let values ← Call.ofExcept (store.encodeAll tenant objects)
  answer store.upserted (← Store.bulkWrite author values)

/-- Deletes an object and returns it. An object that does not decode is deleted all the same. -/
def delete (author : Author) (tenant context : String) : Call (Option (Object τ)) := do
  store.decodeSome (← Store.delete author ((store.resource tenant).key context))

/-- Deletes objects, each on its own. -/
def deleteAll (author : Author) (tenant : String) (contexts : List String) :
    Call (ContextAnswers (Option (Object τ))) := do
  answer store.decodeSome
    (← Store.bulkDelete author (contexts.map (store.resource tenant).key))

/-- Creates an object unless an object of the tenant agrees with it in an aspect. -/
def insertUnique [BEq κ] (author : Author) (tenant : String) (object : τ) (aspect : τ → κ) :
    Call (Upserted τ) :=
  Store.holdingTenant tenant do
    let existing ← store.list tenant {}
    match existing.find? fun other => aspect other.data == aspect object with
    | some duplicate =>
      throw (.alreadyExists ("an object with the same key exists in context " ++ duplicate.context))
    | none => store.upsert author tenant object none

end ObjectStore

end ConfigLedger
