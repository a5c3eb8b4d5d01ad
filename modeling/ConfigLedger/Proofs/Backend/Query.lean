import ConfigLedger.Backend.Query
import ConfigLedger.Proofs.Document
import ConfigLedger.Proofs.Sorting

/-!
# What the queries of the store select

The predicates that the store builds hold of exactly the documents that they are meant for:
those of a resource (`satisfies_resourcePredicate`), those of a key (`satisfies_keyPredicate`),
and those of one version, as long as versions stay below `Binary64.exactBound`
(`satisfies_versionPredicate`). Sorting by falling version looks at the numbers that the versions
are rounded to (`compareBy_newestFirst`).
-/

namespace ConfigLedger

namespace Predicate

variable {field : String → Option Value}

theorem allHold_append (ps qs : List Predicate) :
    allHold field (ps ++ qs) = (allHold field ps && allHold field qs) := by
  induction ps with
  | nil => simp [allHold]
  | cons p ps ih => simp only [List.cons_append, allHold, ih, Bool.and_assoc]

theorem allHold_conjuncts (p : Predicate) : allHold field p.conjuncts = p.holds field := by
  cases p <;> simp [conjuncts, allHold, holds]

/-- A conjunction holds where both sides hold, whether or not it was joined. -/
@[simp] theorem holds_and (p q : Predicate) :
    (p.and q).holds field = (p.holds field && q.holds field) := by
  rw [and, holds, allHold_append, allHold_conjuncts, allHold_conjuncts]

/-- Of a field that is a text, a predicate of equality says that it is that text. -/
theorem holds_equalTo_string {path s t : String} (h : field path = some (.string t)) :
    (equalTo path (.string s)).holds field = decide (t = s) := by
  simp [equalTo, holds, Comparison.holds, h, Value.isNull, Value.equals, Value.equalsScalar,
    Value.isString, beq_eq_decide]

/-- Of a field that is a number, a predicate of equality says that it stands at that place. -/
theorem holds_equalTo_number {path : String} {x : Binary64} {n : Number}
    (h : field path = some (.number n)) :
    (equalTo path (.number x)).holds field = n.toBinary64.equal x := by
  simp [equalTo, holds, Comparison.holds, h, Value.isNull, Value.equals, Value.equalsScalar,
    Value.isNumber]

end Predicate

namespace Document

/-! ### Predicates of the store -/

variable {d : Document}

theorem satisfies_resourcePredicate {r : Resource} :
    d.satisfies r.predicate = decide (d.key.resource = r) := by
  obtain ⟨name, space, tenant⟩ := r
  rw [satisfies, Resource.predicate, Predicate.holds_and, Predicate.holds_and,
    Predicate.holds_equalTo_string d.field_resourceName,
    Predicate.holds_equalTo_string d.field_resourceNamespace,
    Predicate.holds_equalTo_string d.field_tenantId, ← Bool.decide_and, ← Bool.decide_and]
  -- three names are those of the resource if the resource is the one they make up
  congr 1
  rw [Resource.mk.injEq, and_assoc]

theorem satisfies_keyPredicate {key : Key} :
    d.satisfies key.predicate = decide (d.key = key) := by
  obtain ⟨r, context⟩ := key
  have hresource : r.predicate.holds d.field = decide (d.key.resource = r) :=
    satisfies_resourcePredicate
  rw [satisfies, Key.predicate, Predicate.holds_and, hresource,
    Predicate.holds_equalTo_string d.field_context, ← Bool.decide_and]
  -- and a key is its resource and its context
  congr 1
  rw [Key.mk.injEq]

theorem satisfies_versionPredicate {version : UInt64} (hd : d.Exact)
    (hversion : version.toNat < Binary64.exactBound) :
    d.satisfies (.equalTo "configVersion" (.number (.ofUInt64 version))) =
      decide (d.version = version) := by
  rw [satisfies, Predicate.holds_equalTo_number d.field_configVersion, Number.toBinary64,
    Bool.eq_iff_iff, Binary64.equal_ofUInt64 hd hversion, decide_eq_true_iff]

/-- The falling sort compares the numbers that versions are rounded to, the greater one first. -/
theorem compareBy_newestFirst (d e : Document) :
    compareBy field [newestFirst] d e =
      compare (Binary64.ofUInt64 e.version).rank (Binary64.ofUInt64 d.version).rank := by
  rw [compareBy_cons, compareLex, compareBy_nil, Ordering.then_eq]
  simp only [SortKey.compare, newestFirst, field_configVersion, Value.compare, Number.toBinary64]
  -- the greater number comes first, so the comparison is turned around
  change (compare (Binary64.ofUInt64 d.version).rank (Binary64.ofUInt64 e.version).rank).swap = _
  exact Std.OrientedCmp.eq_swap.symm

end Document

end ConfigLedger
