import ConfigLedger.Json.Value

/-!
# Predicates

A predicate is a condition on the fields of something addressed by dotted paths:
`Predicate.holds` takes the function that looks a field up. A constant is a text, a number
or a truth value, or a list of one of these kinds; numbers are compared as binary64 numbers,
texts by code points.

A field that is missing or null never equals, contains or precedes anything:

* `equalTo` holds of a list field and a scalar constant if some element equals the constant,
  and of a list field and a list constant if they agree element by element;
* `among` holds if the field, or anything inside its nested lists, is one of the constants;
* the order relations hold between two texts, two numbers or two truth values;
* `notEqualTo` and `notAmong` are the negations, so they hold of a missing field.
-/

namespace ConfigLedger

/-- A relation between a field and a constant. -/
inductive Comparison where
  | equalTo | notEqualTo | among | notAmong | lessThan | greaterThan | atMost | atLeast
deriving DecidableEq, Repr

/-- A constant of a comparison. -/
inductive Constant where
  | string (s : String)
  | number (x : Binary64)
  | bool (b : Bool)
  | strings (ss : List String)
  | numbers (xs : List Binary64)
  | bools (bs : List Bool)

/-- Whether a constant is a list. -/
def Constant.isList : Constant → Bool
  | .strings _ | .numbers _ | .bools _ => true
  | _ => false

namespace Value

/-- Whether a value is the given text. -/
def isString (s : String) : Value → Bool
  | string t => t == s
  | _ => false

/-- Whether a value is the given number. -/
def isNumber (x : Binary64) : Value → Bool
  | number n => n.toBinary64.equal x
  | _ => false

/-- Whether a value is the given truth value. -/
def isBool (b : Bool) : Value → Bool
  | bool c => c == b
  | _ => false

/-- Whether a value that is no list equals a scalar constant. -/
def equalsScalar (v : Value) : Constant → Bool
  | .string s => v.isString s
  | .number x => v.isNumber x
  | .bool b => v.isBool b
  | _ => false

/-- Whether a list of values agrees with a list of constants, element by element. -/
def agree {α : Type} (is : α → Value → Bool) : List Value → List α → Bool
  | [], [] => true
  | v :: vs, c :: cs => is c v && agree is vs cs
  | _, _ => false

/-- Equality of a value and a constant. -/
def equals (v : Value) (c : Constant) : Bool :=
  match v, c with
  | list items, .strings ss => agree isString items ss
  | list items, .numbers xs => agree isNumber items xs
  | list items, .bools bs => agree isBool items bs
  -- one element is enough, but only of the list itself
  | list items, c => items.any (·.equalsScalar c)
  | v, c => v.equalsScalar c

/-- Whether a value that is no list is one of the constants. -/
def isOneOf (v : Value) : Constant → Bool
  | .strings ss => ss.any (v.isString ·)
  | .numbers xs => xs.any (v.isNumber ·)
  | .bools bs => bs.any (v.isBool ·)
  | _ => false

mutual

/-- Whether a value, or something inside its nested lists, is one of the constants. -/
def containedIn (c : Constant) : Value → Bool
  | list items => anyContainedIn c items
  | v => v.isOneOf c

/-- Whether one of the values is contained in the constants. -/
def anyContainedIn (c : Constant) : List Value → Bool
  | [] => false
  | v :: rest => containedIn c v || anyContainedIn c rest

end

/-- The order of a value and a constant, if they are of one ordered kind. -/
def order? : Value → Constant → Option Ordering
  | string s, .string t => some (compare s t)
  | number n, .number x => some (compare n.toBinary64 x)
  | bool b, .bool c => some (compare b c)
  | _, _ => none

end Value

/-- Whether a field stands in a relation to a constant. -/
def Comparison.holds (c : Constant) (field : Option Value) : Comparison → Bool
  | equalTo => field.any (·.equals c)
  | notEqualTo => !field.any (·.equals c)
  | among => field.any (·.containedIn c)
  | notAmong => !field.any (·.containedIn c)
  | lessThan => (field.bind (·.order? c)).any (· == .lt)
  | greaterThan => (field.bind (·.order? c)).any (· == .gt)
  | atMost => (field.bind (·.order? c)).any (· != .gt)
  | atLeast => (field.bind (·.order? c)).any (· != .lt)

/-- A condition on fields. -/
inductive Predicate where
  | all (operands : List Predicate)
  | any (operands : List Predicate)
  | compare (field : String) (comparison : Comparison) (constant : Constant)
  /-- The field is set, or is not. -/
  | present (field : String) (expected : Bool)

namespace Predicate

/-- The field equals the constant. -/
def equalTo (field : String) (c : Constant) : Predicate :=
  .compare field .equalTo c

/-- The conjuncts of a predicate. -/
def conjuncts : Predicate → List Predicate
  | all operands => operands
  | p => [p]

/-- Conjunction; conjunctions on either side are joined into one. -/
def and (p q : Predicate) : Predicate :=
  all (p.conjuncts ++ q.conjuncts)

mutual

/-- Whether a predicate holds, where `field` finds what stands at a path. A null counts as
missing. -/
def holds (field : String → Option Value) : Predicate → Bool
  | all operands => allHold field operands
  | any operands => anyHolds field operands
  | compare path comparison c => comparison.holds c ((field path).filter fun v => !v.isNull)
  | present path expected => Value.isSet (field path) == expected

/-- Whether all of the predicates hold. -/
def allHold (field : String → Option Value) : List Predicate → Bool
  | [] => true
  | p :: rest => holds field p && allHold field rest

/-- Whether one of the predicates holds. -/
def anyHolds (field : String → Option Value) : List Predicate → Bool
  | [] => false
  | p :: rest => holds field p || anyHolds field rest

end

end Predicate

end ConfigLedger
