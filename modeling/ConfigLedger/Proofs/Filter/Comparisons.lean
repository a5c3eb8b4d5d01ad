import ConfigLedger.Proofs.Filter.Membership
import ConfigLedger.Proofs.Sorting.Places

/-!
# Comparing a field with a constant

What does a field have to be for a relation to hold of it? An order relation compares the field
with its constant as a sort would (`Value.order?_of_denotes`), but only within one kind: a text with
a text, a number with a number and a truth value with a truth value, never one with another. So it
holds exactly if the two are of one kind and their places are in that order
(`Filter.accepts_order_iff`). Nothing is compared with a field that is missing or null, so only the
two negations hold of it (`Filter.accepts_missing_iff`), and an equation with a scalar looks for it
among the elements of a list (`Filter.accepts_equalTo_iff`).
-/

namespace ConfigLedger

namespace Relation

/-- The relations of an order. -/
def orders : List Relation :=
  [lessThan, greaterThan, atMost, atLeast]

/-- The relations that are the negation of another. -/
def negations : List Relation :=
  [notEqualTo, notAmong]

/-- What a relation of an order says of two places. -/
def Orders {α : Type} [LinearOrder α] (a b : α) : Relation → Prop
  | lessThan => a < b
  | greaterThan => b < a
  | atMost => a ≤ b
  | atLeast => b ≤ a
  | _ => False

variable {relation : Relation} {c : Value}

/-- A relation of an order takes scalars. -/
theorem Takes.isScalar (h : relation.Takes c) (hrelation : relation ∈ orders) : c.IsScalar := by
  simp only [orders, List.mem_cons, List.not_mem_nil, or_false] at hrelation
  rcases hrelation with rfl | rfl | rfl | rfl <;> exact h

/-- A relation that compares takes scalars or lists of them. -/
theorem Takes.isScalar_or (h : relation.Takes c) (hcompares : relation.comparison?.isSome) :
    c.IsScalar ∨ c.IsScalarList := by
  obtain ⟨comparison, hcomparison⟩ := Option.isSome_iff_exists.1 hcompares
  exact ((takes_iff hcomparison).1 h).imp And.left And.left

end Relation

namespace Value

/-- Both are texts, both are numbers or both are truth values. -/
def Comparable (v c : Value) : Prop :=
  v.kind = c.kind ∧ v.IsScalar

variable {v c : Value} {k : Constant}

/-- What can be compared is no null. -/
theorem Comparable.isNull_eq_false (h : v.Comparable c) : v.isNull = false := by
  obtain ⟨-, hscalar⟩ := h
  cases v with
  | null => exact absurd hscalar (by decide)
  | _ => rfl

/-- **A scalar constant is compared as its value is by a sort**, but within its kind only. -/
theorem order?_of_denotes (h : c.Denotes k) (hk : k.isList = false) (v : Value) :
    v.order? k = if v.kind = c.kind then some (Value.compare (some v) (some c)) else none := by
  cases h with
  | strings | numbers | bools => cases hk
  | _ => cases v <;> rfl

end Value

/-- A relation of an order is the comparison that asks whether a field can be compared with the
constant and stands in that order to it. -/
theorem Relation.exists_comparison_of_mem_orders {relation : Relation} {c : Value} {k : Constant}
    (hrelation : relation ∈ orders) (hc : c.IsScalar) (h : c.Denotes k) (hk : k.isList = false) :
    ∃ comparison, relation.comparison? = some comparison ∧ comparison.holds k none = false ∧
      ∀ v : Value, comparison.holds k (some v) = true ↔
        v.Comparable c ∧ relation.Orders (Value.place (some v)) (Value.place (some c)) := by
  -- a scalar can be compared with what has its kind
  have hcomparable (v : Value) : v.Comparable c ↔ v.kind = c.kind :=
    and_iff_left_of_imp fun hkind => by rwa [Value.IsScalar, hkind]
  have hlt (v : Value) := @Value.compare_eq_lt_iff (some v) (some c)
  have hgt (v : Value) := @Value.compare_eq_gt_iff (some v) (some c)
  have horder := Value.order?_of_denotes h hk
  -- the four relations differ only in the outcomes of the comparison that they accept
  simp only [orders, List.mem_cons, List.not_mem_nil, or_false] at hrelation
  rcases hrelation with rfl | rfl | rfl | rfl <;>
    refine ⟨_, rfl, rfl, fun v => ?_⟩ <;> by_cases hkind : v.kind = c.kind <;>
    simp [Comparison.holds, horder, hcomparable, hkind, Orders, hlt, hgt]

namespace Filter

variable {path : String} {relation : Relation} {c : Value} {p : Predicate}

/-- **An order relation** holds of a field that can be compared with the constant and stands in that
order to it. -/
theorem accepts_order_iff (hrelation : relation ∈ Relation.orders) (hc : c.IsScalar) (v : Value)
    (path : String) :
    (relational path relation c).accepts v = true ↔
      ∃ w, v.lookup path = some w ∧ w.Comparable c ∧
        relation.Orders (Value.place (some w)) (Value.place (some c)) := by
  obtain ⟨k, hk, hdenotes, hlist⟩ := exists_constant path (.inl hc)
  obtain ⟨comparison, hcomparison, hnone, hsome⟩ :=
    Relation.exists_comparison_of_mem_orders hrelation hc hdenotes (hlist hc)
  -- what is set is compared with the constant, and what is not set counts as missing
  rw [accepts_of_constant hcomparison hk]
  cases v.lookup path with
  | none => simp [hnone]
  | some w =>
    cases hnull : w.isNull with
    | true =>
      -- a null is like no scalar
      have hincomparable : ¬ w.Comparable c := fun h => by simp [h.isNull_eq_false] at hnull
      simp [Option.filter, hnull, hnone, hincomparable]
    | false => simp [Option.filter, hnull, hsome]

/-- Nothing is compared with a field that is missing or null. -/
theorem accepts_missing_iff {v : Value} (hcompares : relation.comparison?.isSome)
    (hc : c.IsScalar ∨ c.IsScalarList)
    (hmissing : v.lookup path = none ∨ v.lookup path = some .null) :
    (relational path relation c).accepts v = true ↔ relation ∈ Relation.negations := by
  obtain ⟨k, hk, -⟩ := exists_constant path hc
  obtain ⟨comparison, hcomparison⟩ := Option.isSome_iff_exists.1 hcompares
  have hfield : ((v.lookup path).filter fun w => !w.isNull) = none := by
    rcases hmissing with hmissing | hmissing <;> rw [hmissing] <;> rfl
  rw [accepts_of_constant hcomparison hk, hfield]
  cases relation <;> cases hcomparison <;> simp [Comparison.holds, Relation.negations]

/-- The constant of a relation that compiles is one that the relation takes. -/
theorem takes_of_compile (hcompiles : (relational path relation c).compile = .ok p) :
    relation.Takes c := by
  have houtcome := outcome_compile (relational path relation c)
  rw [hcompiles] at houtcome
  exact (houtcome.1 _ List.mem_cons_self).2

end Filter

/-! ### Documents -/

namespace Document

variable {path : String} {relation : Relation} {c : Value} {p : Predicate}

/-- **What a relation that compiles says of a document.** One of an order holds exactly if the field
and the constant are both texts, both numbers or both truth values and their places stand in that
order. Of a field that is missing or null only the negations hold. An equation with a scalar holds
of a list exactly if one of its elements is like the scalar. -/
theorem satisfies_relational_iff (hcompiles : (Filter.relational path relation c).compile = .ok p)
    (d : Document) :
    (relation ∈ Relation.orders → (d.satisfies p = true ↔
      ∃ w, d.value.lookup path = some w ∧ w.Comparable c ∧
        relation.Orders (Value.place (some w)) (Value.place (some c)))) ∧
    (relation.comparison?.isSome →
      d.value.lookup path = none ∨ d.value.lookup path = some .null →
      (d.satisfies p = true ↔ relation ∈ Relation.negations)) ∧
    ∀ items, relation = .equalTo → c.IsScalar → d.value.lookup path = some (.list items) →
      (d.satisfies p = true ↔ ∃ item ∈ items, item.alike c = true) := by
  have htakes := Filter.takes_of_compile hcompiles
  -- the document is as good as its value, so all that follows is about the filter alone
  have haccepts : d.satisfies p = (Filter.relational path relation c).accepts d.value :=
    Filter.holds_compile hcompiles
  rw [haccepts]
  refine ⟨fun hrelation => ?_, fun hcompares hmissing => ?_, ?_⟩
  · -- a relation of an order compiles with a scalar only
    exact Filter.accepts_order_iff hrelation (htakes.isScalar hrelation) d.value path
  · exact Filter.accepts_missing_iff hcompares (htakes.isScalar_or hcompares) hmissing
  · rintro items rfl hc hitems
    rw [Filter.accepts_equalTo_iff hc, hitems]
    simp [Value.Meets, Value.elements]

/-- A number above the constant, a null, and a list with the constant among its elements. -/
theorem satisfies_relational_iff_limits :
    let f := Filter.relational "cpu" .greaterThan (.number (.natural 1))
    let g := Filter.relational "owner" .atMost (.string "ada")
    let h := Filter.relational "tags" .equalTo (.string "hot")
    let value := Value.struct [("cpu", .number (.natural 2)), ("owner", .null),
      ("tags", .list [.null, .string "hot"])]
    let d : Document :=
      ⟨⟨⟨"rules", "alerting", "tenant-1"⟩, "a"⟩, 1, ⟨"ada", "ada@example.com"⟩, value, 1000, 1000⟩
    ∃ p q r, f.compile = .ok p ∧ g.compile = .ok q ∧ h.compile = .ok r ∧
      d.satisfies p = true ∧ d.satisfies q = false ∧ d.satisfies r = true := by
  intro f g h value d
  obtain ⟨p, hp⟩ : ∃ p, f.compile = .ok p := ⟨_, rfl⟩
  obtain ⟨q, hq⟩ : ∃ q, g.compile = .ok q := ⟨_, rfl⟩
  obtain ⟨r, hr⟩ : ∃ r, h.compile = .ok r := ⟨_, rfl⟩
  refine ⟨p, q, r, hp, hq, hr, ?_, ?_, ?_⟩
  · refine ((satisfies_relational_iff hp d).1 (by decide)).2
      ⟨.number (.natural 2), rfl, ⟨rfl, by decide⟩, ?_⟩
    exact Value.compare_eq_gt_iff.1 (by decide +kernel)
  · rw [Bool.eq_false_iff, ne_eq, (satisfies_relational_iff hq d).2.1 rfl (.inr rfl)]
    decide
  · exact ((satisfies_relational_iff hr d).2.2 _ rfl (by decide) rfl).2
      ⟨.string "hot", by simp, rfl⟩

/-- Truth values are ordered as well, so an order relation holds also where neither two numbers nor
two texts meet. -/
theorem satisfies_lessThan_bool :
    let c := Value.bool true
    let f := Filter.relational "on" .lessThan c
    let d : Document :=
      ⟨⟨⟨"rules", "alerting", "tenant-1"⟩, "a"⟩, 1, ⟨"ada", "ada@example.com"⟩,
        .struct [("on", .bool false)], 1000, 1000⟩
    ∃ p, f.compile = .ok p ∧ d.satisfies p = true ∧
      ¬ ∃ w, d.value.lookup "on" = some w ∧
        (w.kind = .number ∧ c.kind = .number ∨ w.kind = .string ∧ c.kind = .string) := by
  intro c f d
  refine ⟨_, rfl, by decide, ?_⟩
  rintro ⟨w, -, ⟨-, hkind⟩ | ⟨-, hkind⟩⟩ <;> cases hkind

end Document

end ConfigLedger
