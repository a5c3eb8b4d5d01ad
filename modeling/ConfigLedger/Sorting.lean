import ConfigLedger.Json.Value

/-!
# Sorting by fields

Items are sorted by a list of paths, each rising or falling (`sortBy`); the sort is stable,
so items that agree on all paths keep their order. Values of different kinds are ordered by
kind (`Value.rank`): nothing and null first, then truth values, numbers, texts, lists and
structs. Truth values, numbers and texts are ordered among themselves, lists are all equal
and so are structs.
-/

namespace ConfigLedger

/-- Whether a sort rises or falls. -/
inductive Direction where
  | ascending | descending
deriving DecidableEq, Repr

/-- One path to sort by. -/
structure SortKey where
  path : String
  direction : Direction

namespace Value

/-- The place of a kind among all kinds; a missing value counts as null. -/
def rank : Option Value → Nat
  | none | some null => 0
  | some (bool _) => 1
  | some (number _) => 2
  | some (string _) => 3
  | some (list _) => 4
  | some (struct _) => 5

/-- The order of two values that may be missing. -/
def compare : Option Value → Option Value → Ordering
  | some (bool a), some (bool b) => Ord.compare a b
  | some (number a), some (number b) => Ord.compare a.toBinary64 b.toBinary64
  | some (string a), some (string b) => Ord.compare a b
  | a, b => Ord.compare (rank a) (rank b)

end Value

variable {α : Type}

/-- The order of two items by one path. -/
def SortKey.compare (field : α → String → Option Value) (key : SortKey) (a b : α) : Ordering :=
  let order := Value.compare (field a key.path) (field b key.path)
  match key.direction with
  | .ascending => order
  | .descending => order.swap

/-- The order of two items by a list of paths: the first path that tells them apart decides. -/
def compareBy (field : α → String → Option Value) (keys : List SortKey) (a b : α) : Ordering :=
  keys.foldr (fun key order => (key.compare field a b).then order) .eq

/-- The items in the order of the keys. -/
def sortBy (field : α → String → Option Value) (keys : List SortKey) (items : List α) : List α :=
  items.mergeSort fun a b => (compareBy field keys a b).isLE

end ConfigLedger
