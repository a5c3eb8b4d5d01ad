import ConfigLedger.Json.Number

/-!
# Configuration values

A value is a plain JSON tree; nothing here knows the schema of a domain. A struct lists its
fields by rising key, every key once (`putField` keeps that order), so a struct has one
representation.

What the rest of the library asks of a value is structural:

* its `Kind`, and whether a field that may be missing is **set** (`Value.isSet`): present
  and not null;
* what stands at a dotted path. `segments` cuts a path at its dots, `Value.descend` follows
  the segments, through structs by key and through lists by position, and `Value.lookup`
  does both. The empty path is the value itself, not the segment of an empty key.
-/

namespace ConfigLedger

/-- A configuration value. -/
inductive Value where
  | null
  | bool (b : Bool)
  | number (n : Number)
  | string (s : String)
  | list (items : List Value)
  | struct (fields : List (String × Value))
deriving Inhabited

/-- Sets a field: the fields stay in rising order of their keys, and a value already there is
replaced. -/
def putField {α : Type} (key : String) (value : α) : List (String × α) → List (String × α)
  | [] => [(key, value)]
  | (k, v) :: rest =>
    if key < k then (key, value) :: (k, v) :: rest
    else if key = k then (key, value) :: rest
    else (k, v) :: putField key value rest

/-- The coarse kind of a value. -/
inductive Kind where
  | null | bool | number | string | list | struct
deriving DecidableEq, Repr

/-- The name of a kind. -/
def Kind.name : Kind → String
  | null => "null"
  | bool => "bool"
  | number => "number"
  | string => "string"
  | list => "list"
  | struct => "struct"

namespace Value

/-- The kind of a value. -/
def kind : Value → Kind
  | null => .null
  | bool _ => .bool
  | number _ => .number
  | string _ => .string
  | list _ => .list
  | struct _ => .struct

/-- Whether a value is null. -/
def isNull : Value → Bool
  | null => true
  | _ => false

/-- A field is set when it is present and not null. -/
def isSet (v : Option Value) : Bool :=
  v.any fun v => !v.isNull

/-! ### Paths -/

/-- The segments of a dotted path: one more than it has dots, some of them possibly empty. -/
def segments (path : String) : List String :=
  (path.toList.splitOn '.').map String.ofList

/-- The position that a segment names: decimal digits, with an optional plus sign before them. A
position behind the end of a list finds nothing, however large it is. -/
def position? (segment : String) : Option Nat :=
  let digits := match segment.toList with
    | '+' :: rest => rest
    | cs => cs
  if digits.isEmpty || digits.any (fun c => !c.isDigit) then none
  else some (digits.foldl (fun n c => n * 10 + Numeral.digit c) 0)

/-- What one segment leads to. -/
def child : Value → String → Option Value
  | struct fields, segment => fields.lookup segment
  | list items, segment => (position? segment).bind fun i => items[i]?
  | _, _ => none

/-- What a list of segments leads to, one after the other. -/
def descend (v : Value) : List String → Option Value
  | [] => some v
  | segment :: rest => (v.child segment).bind fun w => w.descend rest

/-- What stands at a dotted path; the empty path is the value itself. -/
def lookup (v : Value) (path : String) : Option Value :=
  if path.isEmpty then some v else v.descend (segments path)

end Value

end ConfigLedger
