import ConfigLedger.Backend.Query
import ConfigLedger.Filter.Compile
import Mathlib.Tactic.SplitIfs

/-!
# What filters mean

A filter is about a value: `Filter.accepts` reads it there directly, `and` and `or` as all and any
of the operands, and a relation as one between what stands at its path and its constant. A predicate
is about the fields of a document, and a compiled filter holds of a document exactly if the filter
accepts the value of the document (`Filter.holds_compile`). So nothing else of a document has a part
in that, however a path is spelled: documents of one value satisfy the same filters, whoever they
belong to (`Filter.satisfies_eq_accepts`).
-/

namespace ConfigLedger

/-! ### Meaning -/

namespace Relation

/-- The comparison with the constant that a relation makes, if it makes one. -/
def comparison? : Relation → Option Comparison
  | equalTo => some .equalTo
  | notEqualTo => some .notEqualTo
  | among => some .among
  | notAmong => some .notAmong
  | lessThan => some .lessThan
  | greaterThan => some .greaterThan
  | atMost => some .atMost
  | atLeast => some .atLeast
  | unspecified | present | absent => none

/-- Whether a field stands in a relation to a constant, if that can be used. A null counts as
missing. -/
def holds (c : Option Constant) (field : Option Value) (relation : Relation) : Bool :=
  match relation with
  | present => field.isSome
  | absent => field.isNone
  | relation => match relation.comparison?, c with
    | some comparison, some c => comparison.holds c field
    | _, _ => false

/-- A relation that makes a comparison is that comparison. -/
theorem holds_of_comparison? {relation : Relation} {comparison : Comparison}
    (h : relation.comparison? = some comparison) (c : Constant) (field : Option Value) :
    relation.holds (some c) field = comparison.holds c field := by
  cases relation <;> cases h <;> rfl

end Relation

namespace Filter

mutual

/-- Whether a filter accepts a value. -/
def accepts (v : Value) : Filter → Bool
  | logical .and operands => acceptsAll v operands
  | logical .or operands => acceptsAny v operands
  | logical .unspecified _ => false
  | relational path relation value =>
    relation.holds (constant path value).toOption ((v.lookup path).filter fun w => !w.isNull)

/-- Whether all of the filters accept a value. -/
def acceptsAll (v : Value) : List Filter → Bool
  | [] => true
  | f :: rest => f.accepts v && acceptsAll v rest

/-- Whether one of the filters accepts a value. -/
def acceptsAny (v : Value) : List Filter → Bool
  | [] => false
  | f :: rest => f.accepts v || acceptsAny v rest

end

end Filter

/-! ### Compiling -/

/-- **A path of a filter leads into the value**, whatever it is. -/
theorem Document.field_configPath (d : Document) (path : String) :
    d.field (Filter.configPath path) = d.value.lookup path := by
  have hlist : (Filter.configPath path).toList =
      ['c', 'o', 'n', 'f', 'i', 'g', '.'] ++ path.toList := by
    rw [Filter.configPath, String.toList_append]
    rfl
  simp [Document.field, hlist]

/-- A field is set if something stands there that is not null. -/
theorem Value.isSet_eq (field : Option Value) :
    isSet field = (field.filter fun v => !v.isNull).isSome := by
  cases field with
  | none => rfl
  | some v => cases v <;> rfl

namespace Filter

variable {d : Document} {p : Predicate}

/-- A constant that can be used still has to have the form that is asked for. -/
theorem comparison_of_constant {path : String} {relation : Relation} {value : Value}
    {comparison : Comparison} {expected : Option ConstantForm} {c : Constant}
    (hc : constant path value = .ok c) :
    Filter.comparison path relation value comparison expected =
      if expected = some .list ∧ c.isList = false then .error (.mismatch path relation .list)
      else if expected = some .scalar ∧ c.isList = true then
        .error (.mismatch path relation .scalar)
      else .ok (.compare (configPath path) comparison c) := by
  rw [Filter.comparison, hc]
  rcases expected with _ | _ | _ <;> cases hlist : c.isList <;>
    simp [hlist, bind, Except.bind, pure, Except.pure, throw, throwThe, MonadExceptOf.throw]

theorem holds_comparison {path : String} {relation : Relation} {value : Value}
    {comparison : Comparison} {expected : Option ConstantForm}
    (h : Filter.comparison path relation value comparison expected = .ok p) :
    ∃ c, constant path value = .ok c ∧
      p.holds d.field = comparison.holds c ((d.value.lookup path).filter fun w => !w.isNull) := by
  -- a constant that is not usable does not compile
  cases hconstant : constant path value with
  | error e =>
    rw [Filter.comparison, hconstant] at h
    cases h
  | ok c =>
    rw [comparison_of_constant hconstant] at h
    refine ⟨c, rfl, ?_⟩
    -- the constant has the form that is asked for, as the filter compiles
    split_ifs at h
    cases h
    rw [Predicate.holds, d.field_configPath]

/-- **A relation** that compiles is one between the field at its path and its constant. -/
theorem holds_compileRelation {path : String} {relation : Relation} {value : Value}
    (h : compileRelation path relation value = .ok p) :
    p.holds d.field =
      relation.holds (constant path value).toOption
        ((d.value.lookup path).filter fun w => !w.isNull) := by
  -- all relations but three are a comparison
  have hcompared {comparison : Comparison} {expected : Option ConstantForm}
      (h : Filter.comparison path relation value comparison expected = .ok p)
      (hcomparison : relation.comparison? = some comparison)
      (hpresent : relation ≠ .present) (habsent : relation ≠ .absent) :
      p.holds d.field =
        relation.holds (constant path value).toOption
          ((d.value.lookup path).filter fun w => !w.isNull) := by
    obtain ⟨c, hconstant, hp⟩ := holds_comparison (d := d) h
    rw [hp, Relation.holds.eq_def, hconstant]
    cases relation <;> simp_all [Except.toOption]
  unfold compileRelation at h
  split at h
  · cases h
  cases relation with
  -- presence and absence take no constant
  | unspecified => cases h
  | present =>
    cases h
    rw [Predicate.holds, d.field_configPath, Value.isSet_eq, beq_true]
    rfl
  | absent =>
    cases h
    rw [Predicate.holds, d.field_configPath, Value.isSet_eq, beq_false, Option.not_isSome]
    rfl
  -- the others compare, and how is in `hcompared`
  | _ => exact hcompared h rfl (by decide) (by decide)

mutual

/-- **A compiled filter holds of a document exactly if the filter accepts its value.** -/
theorem holds_compile {f : Filter} {p : Predicate} (h : f.compile = .ok p) :
    p.holds d.field = f.accepts d.value := by
  cases f with
  | relational path relation value =>
    rw [compile] at h
    rw [accepts]
    exact holds_compileRelation h
  | logical connective operands =>
    -- the operands compile before their connective is looked at, and each means what it should
    rw [compile] at h
    cases hall : compileAll operands with
    | error e =>
      rw [hall] at h
      cases h
    | ok predicates =>
      obtain ⟨hallHold, hanyHolds⟩ := hold_compileAll hall
      rw [hall] at h
      cases connective with
      | unspecified => cases h
      | and =>
        cases h
        rw [Predicate.holds, accepts, hallHold]
      | or =>
        cases h
        rw [Predicate.holds, accepts, hanyHolds]

/-- Compiled filters all hold if all of them accept the value, and any if any does. -/
theorem hold_compileAll {fs : List Filter} {ps : List Predicate} (h : compileAll fs = .ok ps) :
    Predicate.allHold d.field ps = acceptsAll d.value fs ∧
      Predicate.anyHolds d.field ps = acceptsAny d.value fs := by
  cases fs with
  | nil =>
    rw [compileAll] at h
    cases h
    exact ⟨rfl, rfl⟩
  | cons f rest =>
    rw [compileAll] at h
    -- all compile, or compiling them fails
    cases hfirst : f.compile with
    | error e =>
      rw [hfirst] at h
      cases h
    | ok p =>
      cases hrest : compileAll rest with
      | error e =>
        rw [hfirst, hrest] at h
        cases h
      | ok ps' =>
        rw [hfirst, hrest] at h
        cases h
        -- the first operand by mutual recursion, the rest by this one
        obtain ⟨hallHold, hanyHolds⟩ := hold_compileAll hrest
        rw [Predicate.allHold, Predicate.anyHolds, acceptsAll, acceptsAny, holds_compile hfirst,
          hallHold, hanyHolds]
        exact ⟨rfl, rfl⟩

end

/-! ### Isolation -/

/-- **A filter sees the value of a document and nothing else.** A document satisfies it exactly if
it accepts the value, so no filter tells apart two documents of one value, whichever tenant,
resource or context they belong to, and whoever made them when. -/
theorem satisfies_eq_accepts {f : Filter} (hcompiles : f.compile = .ok p) :
    (∀ d : Document, d.satisfies p = f.accepts d.value) ∧
      ∀ d e : Document, d.value = e.value → d.satisfies p = e.satisfies p := by
  have hvalue (d : Document) : d.satisfies p = f.accepts d.value := holds_compile hcompiles
  refine ⟨hvalue, fun d e hsame => ?_⟩
  calc
    d.satisfies p = f.accepts d.value := hvalue d
    _ = f.accepts e.value := by rw [hsame]
    _ = e.satisfies p := (hvalue e).symm

/-- A field that is named like one of the metadata is that of the value. -/
theorem satisfies_eq_accepts_tenantId :
    let f := Filter.logical .and [.relational "tenantId" .equalTo (.string "tenant-2"),
      .relational ".context" .absent .null]
    let value := Value.struct [("tenantId", .string "tenant-2")]
    let p := Predicate.all [.compare "config.tenantId" .equalTo (.string "tenant-2"),
      .present "config..context" false]
    let d : Document :=
      ⟨⟨⟨"rules", "alerting", "tenant-1"⟩, "a"⟩, 1, ⟨"ada", "ada@example.com"⟩, value, 1000, 1000⟩
    let e : Document :=
      ⟨⟨⟨"limits", "billing", "tenant-2"⟩, "b"⟩, 7, ⟨"bob", "bob@example.com"⟩, value, 2000, 3000⟩
    f.compile = .ok p ∧ d.satisfies p = true ∧ d.satisfies p = e.satisfies p := by
  intro f value p d e
  have hcompiles : f.compile = .ok p := rfl
  obtain ⟨haccepts, hsame⟩ := satisfies_eq_accepts hcompiles
  exact ⟨hcompiles, (haccepts d).trans (by decide), hsame d e rfl⟩

end Filter

end ConfigLedger
