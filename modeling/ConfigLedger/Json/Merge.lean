import ConfigLedger.Json.Value

/-!
# Merging values

`Value.merge fallback preferred` lays one value over another. Structs are merged field by
field; any other preferred value that is set replaces the fallback as a whole, so lists are
never joined. A preferred null never erases: the fallback shows through.

Equal values are merged without looking inside them. `Value.same` is that equality: numbers
of different kinds differ, and the two zeros of binary64 are equal.
-/

namespace ConfigLedger

namespace Value

mutual

/-- Equality of values, with `Number.same` for numbers. -/
def same : Value → Value → Bool
  | null, null => true
  | bool a, bool b => a == b
  | number a, number b => a.same b
  | string a, string b => a == b
  | list as, list bs => sameItems as bs
  | struct fs, struct gs => sameFields fs gs
  | _, _ => false

/-- Equality of lists of values. -/
def sameItems : List Value → List Value → Bool
  | [], [] => true
  | a :: as, b :: bs => a.same b && sameItems as bs
  | _, _ => false

/-- Equality of fields. -/
def sameFields : List (String × Value) → List (String × Value) → Bool
  | [], [] => true
  | (k, a) :: fs, (l, b) :: gs => k == l && a.same b && sameFields fs gs
  | _, _ => false

end

mutual

/-- Lays the preferred value over the fallback. -/
def merge (fallback : Value) : Value → Value
  | null => fallback
  | struct preferred =>
    if fallback.same (struct preferred) then struct preferred
    else match fallback with
      | struct fields => struct (mergeFields fields fields preferred)
      | _ => struct preferred
  | preferred => preferred

/-- Lays the preferred fields over the `merged` ones, in order. Each is merged with the field of the
`fallback` that has its key; a field that the fallback lacks is taken as it is, also a null. -/
def mergeFields (fallback merged : List (String × Value)) :
    List (String × Value) → List (String × Value)
  | [] => merged
  | (key, preferred) :: rest =>
    let value := match fallback.lookup key with
      | some value => merge value preferred
      | none => preferred
    mergeFields fallback (putField key value merged) rest

end

end Value

end ConfigLedger
