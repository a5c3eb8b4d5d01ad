import ConfigLedger.Proofs.Number.Amount
import ConfigLedger.Proofs.Sorting
import ConfigLedger.Proofs.Utf8
import Mathlib.Data.Int.Order.Basic
import Mathlib.Data.Prod.Lex

/-!
# Sorted lists

Where does a value stand among all values? `Value.place` says it in a linear order: by its kind, by
its number if it is a truth value or a number, and by its bytes if it is a text. A missing value and
null share the first place, all lists share one place and so do all structs. Values are compared as
their places are (`Value.compare_eq_lt_iff`, `Value.compare_eq_eq_iff`), whatever kinds meet.

A list of keys then orders items lexicographically (`InOrder`): the first key by which two items do
not stand at the same place decides, each key in its direction. The sort by these keys is the stable
one (`sortBy_stable`).
-/

open Std (OrientedCmp TransCmp)

namespace ConfigLedger

namespace Value

/-- The place of a value among all values. -/
def place : Option Value → ℕ ×ₗ ℤ ×ₗ List ℕ
  | none | some null => toLex (0, toLex (0, []))
  | some (bool b) => toLex (1, toLex (if b then 1 else 0, []))
  -- the number itself, in units of the smallest one
  | some (number n) => toLex (2, toLex (n.toBinary64.amount, []))
  | some (string s) => toLex (3, toLex (0, utf8 s))
  | some (list _) => toLex (4, toLex (0, []))
  | some (struct _) => toLex (5, toLex (0, []))

/-- **Values are compared as their places are.** -/
theorem compare_eq_lt_iff {v w : Option Value} :
    Value.compare v w = .lt ↔ place v < place w := by
  -- values of different kinds compare by their kinds, and only three kinds look further
  rcases v with _ | (_ | a | a | a | a | a) <;> rcases w with _ | (_ | b | b | b | b | b) <;>
    simp [Value.compare, rank, place, Prod.Lex.toLex_lt_toLex] <;> try decide
  case some.bool.some.bool => cases a <;> cases b <;> decide
  case some.number.some.number =>
    exact Int.compare_eq_lt.trans Binary64.rank_lt_rank_iff
  case some.string.some.string =>
    exact compareOfLessAndEq_eq_lt.trans utf8_lt_iff.symm

theorem compare_eq_gt_iff {v w : Option Value} :
    Value.compare v w = .gt ↔ place w < place v := by
  rw [OrientedCmp.gt_iff_lt, compare_eq_lt_iff]

/-- Values are equal to a sort exactly if they share a place. -/
theorem compare_eq_eq_iff {v w : Option Value} :
    Value.compare v w = .eq ↔ place v = place w := by
  constructor
  · intro heq
    have hlt : ¬ place v < place w := fun hlt => by simp [compare_eq_lt_iff.2 hlt] at heq
    have hgt : ¬ place w < place v := fun hgt => by simp [compare_eq_gt_iff.2 hgt] at heq
    exact le_antisymm (not_lt.1 hgt) (not_lt.1 hlt)
  · intro heq
    -- two of the three outcomes are ruled out by the places
    cases hcompare : Value.compare v w with
    | eq => rfl
    | lt => exact absurd heq (compare_eq_lt_iff.1 hcompare).ne
    | gt => exact absurd heq (compare_eq_gt_iff.1 hcompare).ne'

end Value

variable {α : Type} (field : α → String → Option Value)

/-! ### The order of a list of keys -/

/-- The key puts an item before another. -/
def SortKey.Precedes (key : SortKey) (a b : α) : Prop :=
  match key.direction with
  | .ascending => Value.place (field a key.path) < Value.place (field b key.path)
  | .descending => Value.place (field b key.path) < Value.place (field a key.path)

/-- The key does not tell two items apart. -/
def SortKey.Ties (key : SortKey) (a b : α) : Prop :=
  Value.place (field a key.path) = Value.place (field b key.path)

instance (key : SortKey) (a b : α) : Decidable (key.Ties field a b) :=
  inferInstanceAs (Decidable (_ = _))

/-- Two items are in order: the first key that tells them apart puts the first item before the
second, or no key tells them apart. -/
def InOrder : List SortKey → α → α → Prop
  | [], _, _ => True
  | key :: keys, a, b => key.Precedes field a b ∨ key.Ties field a b ∧ InOrder keys a b

variable {field} {keys : List SortKey} {a b : α}

theorem SortKey.compare_eq_lt_iff {key : SortKey} :
    key.compare field a b = .lt ↔ key.Precedes field a b := by
  rw [SortKey.compare, SortKey.Precedes]
  cases key.direction with
  | ascending => exact Value.compare_eq_lt_iff
  | descending => exact Ordering.swap_eq_lt.trans Value.compare_eq_gt_iff

theorem SortKey.compare_eq_eq_iff {key : SortKey} :
    key.compare field a b = .eq ↔ key.Ties field a b := by
  rw [SortKey.compare, SortKey.Ties]
  cases key.direction with
  | ascending => exact Value.compare_eq_eq_iff
  | descending => exact Ordering.swap_eq_eq.trans Value.compare_eq_eq_iff

theorem isLE_compareBy_iff : (compareBy field keys a b).isLE = true ↔ InOrder field keys a b := by
  induction keys with
  | nil => simp [compareBy_nil, InOrder]
  | cons key keys ih =>
    rw [compareBy_cons, compareLex, InOrder, ← ih, ← SortKey.compare_eq_lt_iff,
      ← SortKey.compare_eq_eq_iff]
    cases key.compare field a b <;> simp [Ordering.then]

theorem compareBy_eq_eq_iff :
    compareBy field keys a b = .eq ↔ ∀ key ∈ keys, key.Ties field a b := by
  induction keys with
  | nil => simp [compareBy_nil]
  | cons key keys ih =>
    rw [compareBy_cons, compareLex, Ordering.then_eq_eq, SortKey.compare_eq_eq_iff, ih,
      List.forall_mem_cons]

/-- **The sort is stable**: it rearranges the items, puts them into the order of the keys, and
leaves items that no key tells apart as they came. The comparison behind it is a total preorder,
namely that of the places of values. -/
theorem sortBy_stable (field : α → String → Option Value) (keys : List SortKey) (items : List α) :
    (sortBy field keys items).Perm items ∧
      (sortBy field keys items).Pairwise (InOrder field keys) ∧
      (∀ a, (sortBy field keys items).filter (fun b => ∀ key ∈ keys, key.Ties field b a) =
        items.filter fun b => ∀ key ∈ keys, key.Ties field b a) ∧
      TransCmp Value.compare ∧
      ∀ v w, (Value.compare v w = .lt ↔ Value.place v < Value.place w) ∧
        (Value.compare v w = .eq ↔ Value.place v = Value.place w) := by
  refine ⟨sortBy_perm keys items, ?_, fun a => ?_, inferInstance, fun v w => ?_⟩
  · exact (pairwise_sortBy keys items).imp isLE_compareBy_iff.1
  · -- to share all places is to compare equal
    have htied (b : α) : decide (∀ key ∈ keys, key.Ties field b a) =
        (compareBy field keys b a == .eq) := by
      rw [← decide_eq_decide.2 compareBy_eq_eq_iff]
      rfl
    simp only [htied]
    exact filter_sortBy_tied keys items a
  · exact ⟨Value.compare_eq_lt_iff, Value.compare_eq_eq_iff⟩

end ConfigLedger
