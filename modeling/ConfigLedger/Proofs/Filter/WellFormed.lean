import ConfigLedger.Proofs.Filter.Meaning
import Mathlib.Data.Set.List

/-!
# Which filters compile

When can a filter be used, what becomes of it, and what does one that cannot be used say about
itself? Each node of a filter answers for itself. A connective only has to be given; a relation
needs a path and a constant that it takes: any for `present` and `absent`, a list of scalars of one
kind for `among` and `notAmong`, a scalar for the order relations, and either of both for equality
(`Filter.IsSound`).

**A filter compiles exactly if all its nodes are sound.** The predicate then has the shape of the
filter, operand for operand, and its constants are those of the filter, element for element
(`Filter.Renders`). Otherwise the error is a fault of the first node that is not sound, where the
operands of a connective come before it and from left to right (`Filter.nodes`,
`Filter.FirstFault`): `Filter.compile_iff_wellFormed`.

Compiling puts a filter together as its nodes come one after the other, so the proof is one lemma
about two parts of which the second is only tried if the first went well (`Filter.Outcome.bind`),
and one about a single node (`Filter.outcome_compileRelation`).
-/

namespace ConfigLedger

/-! ### Constants -/

/-- The kinds of what is neither null nor made of other values. -/
def Kind.scalars : List Kind :=
  [.string, .number, .bool]

namespace Value

/-- A text, a number or a truth value. -/
def IsScalar (v : Value) : Prop :=
  v.kind ∈ Kind.scalars

theorem IsScalar.string (s : String) : IsScalar (.string s) :=
  List.mem_cons_self

theorem IsScalar.number (n : Number) : IsScalar (.number n) :=
  List.mem_cons_of_mem _ List.mem_cons_self

theorem IsScalar.bool (b : Bool) : IsScalar (.bool b) :=
  List.mem_cons_of_mem _ (List.mem_cons_of_mem _ List.mem_cons_self)

/-- A list of scalars of one kind, at least one of them. -/
def IsScalarList : Value → Prop
  | list items => items ≠ [] ∧ ∃ kind ∈ Kind.scalars, ∀ item ∈ items, item.kind = kind
  | _ => False

instance (v : Value) : Decidable v.IsScalar :=
  inferInstanceAs (Decidable (v.kind ∈ Kind.scalars))

instance (v : Value) : Decidable v.IsScalarList :=
  match v with
  | list items => inferInstanceAs
      (Decidable (items ≠ [] ∧ ∃ kind ∈ Kind.scalars, ∀ item ∈ items, item.kind = kind))
  | null | bool _ | number _ | string _ | struct _ => inferInstanceAs (Decidable False)

theorem exists_eq_string {v : Value} (h : v.kind = .string) : ∃ s, string s = v := by
  cases v with
  | string s => exact ⟨s, rfl⟩
  | _ => cases h

theorem exists_eq_number {v : Value} (h : v.kind = .number) : ∃ n, number n = v := by
  cases v with
  | number n => exact ⟨n, rfl⟩
  | _ => cases h

theorem exists_eq_bool {v : Value} (h : v.kind = .bool) : ∃ b, bool b = v := by
  cases v with
  | bool b => exact ⟨b, rfl⟩
  | _ => cases h

/-- A constant says what a value does, a list in the same order and with nothing left out. -/
inductive Denotes : Value → Constant → Prop
  | string (s : String) : Denotes (.string s) (.string s)
  | number (n : Number) : Denotes (.number n) (.number n.toBinary64)
  | bool (b : Bool) : Denotes (.bool b) (.bool b)
  | strings (ss : List String) : Denotes (.list (ss.map .string)) (.strings ss)
  | numbers (ns : List Number) :
    Denotes (.list (ns.map .number)) (.numbers (ns.map Number.toBinary64))
  | bools (bs : List Bool) : Denotes (.list (bs.map .bool)) (.bools bs)

/-- What is wrong with a value at a path that is no constant. -/
inductive Unusable (path : String) : Value → FilterError → Prop
  | emptyList : Unusable path (.list []) (.emptyList path)
  /-- An element is the first that is of another kind than those before it. -/
  | mixedList {first other : Value} {same rest : List Value}
    (hsame : ∀ v ∈ same, v.kind = first.kind) (hother : other.kind ≠ first.kind) :
    Unusable path (.list (first :: (same ++ other :: rest)))
      (.mixedList path first.kind other.kind)
  | nested {items : List Value} {kind : Kind} (hne : items ≠ [])
    (hkinds : ∀ item ∈ items, item.kind = kind) (hkind : kind ∉ Kind.scalars) :
    Unusable path (.list items) (.unsupportedElement path)
  | null : Unusable path .null (.unsupportedConstant path .null)
  | struct (fields : List (String × Value)) :
    Unusable path (.struct fields) (.unsupportedConstant path .struct)

theorem not_isScalar_list (items : List Value) : ¬IsScalar (.list items) := by
  simp [IsScalar, kind, Kind.scalars]

theorem not_isScalar_struct (fields : List (String × Value)) : ¬IsScalar (.struct fields) := by
  simp [IsScalar, kind, Kind.scalars]

/-- A list of scalars is not a scalar. -/
theorem IsScalarList.not_isScalar {v : Value} (h : v.IsScalarList) : ¬v.IsScalar := by
  cases v with
  | list items => exact not_isScalar_list items
  | _ => exact h.elim

/-- What is unusable is neither a scalar nor a list of them. -/
theorem Unusable.not_isScalar {path : String} {v : Value} {e : FilterError}
    (h : v.Unusable path e) : ¬v.IsScalar ∧ ¬v.IsScalarList := by
  cases h with
  | emptyList => decide
  | mixedList hsame hother =>
    -- two elements differ in kind
    refine ⟨not_isScalar_list _, ?_⟩
    rintro ⟨-, kind, -, hkinds⟩
    exact hother ((hkinds _ (by simp)).trans (hkinds _ (by simp)).symm)
  | @nested items kind hne hkinds hkind =>
    refine ⟨not_isScalar_list items, ?_⟩
    rintro ⟨-, kind', hkind', hkinds'⟩
    obtain ⟨item, hitem⟩ := List.exists_mem_of_ne_nil items hne
    exact hkind ((hkinds item hitem).symm.trans (hkinds' item hitem) ▸ hkind')
  | null => decide
  | struct fields => exact ⟨not_isScalar_struct fields, id⟩

end Value

namespace Filter

/-- Values that are all made by one constructor are an image under it. -/
theorem exists_eq_map {α : Type} {make : α → Value} {items : List Value}
    (h : ∀ item ∈ items, ∃ a, make a = item) : ∃ as : List α, items = as.map make := by
  have hrange : items ∈ Set.range (List.map make) := by
    rw [Set.range_list_map]
    exact h
  obtain ⟨as, has⟩ := hrange
  exact ⟨as, has.symm⟩

/-- Nothing is left out of values that are all made by one constructor. -/
theorem filterMap_map {α β : Type} (make : α → Value) (f : α → β) {pick : Value → Option β}
    (h : ∀ a, pick (make a) = some (f a)) (as : List α) :
    (as.map make).filterMap pick = as.map f := by
  have hpick : pick ∘ make = some ∘ f := funext h
  rw [List.filterMap_map, hpick, List.filterMap_eq_map]

/-- The constant of a list of scalars of one kind is the list of them. -/
theorem listConstant_of_kinds {path : String} {items : List Value} {kind : Kind}
    (hne : items ≠ []) (hkinds : ∀ item ∈ items, item.kind = kind) (hkind : kind ∈ Kind.scalars) :
    ∃ c, listConstant path items = .ok c ∧ Value.Denotes (.list items) c ∧ c.isList = true := by
  -- the kind is that of the first element, and no other element has another one
  obtain ⟨first, rest, rfl⟩ := List.exists_cons_of_ne_nil hne
  have hfirst : first.kind = kind := hkinds first List.mem_cons_self
  have hfind : ((first :: rest).map Value.kind).find? (· != kind) = none := by
    simpa using hkinds
  simp only [listConstant, hfirst, hfind]
  generalize first :: rest = items at hkinds
  simp only [Kind.scalars, List.mem_cons, List.not_mem_nil, or_false] at hkind
  -- the elements are of this kind, so taking out what is of this kind loses none of them
  rcases hkind with rfl | rfl | rfl
  · obtain ⟨ss, rfl⟩ : ∃ ss : List String, items = ss.map .string :=
      exists_eq_map fun item hitem => Value.exists_eq_string (hkinds item hitem)
    refine ⟨.strings ss, congrArg (fun ss => Except.ok (Constant.strings ss)) ?_, .strings ss, rfl⟩
    exact (filterMap_map .string id (fun _ => rfl) ss).trans (List.map_id ss)
  · obtain ⟨ns, rfl⟩ : ∃ ns : List Number, items = ns.map .number :=
      exists_eq_map fun item hitem => Value.exists_eq_number (hkinds item hitem)
    refine ⟨.numbers _, congrArg (fun xs => Except.ok (Constant.numbers xs)) ?_, .numbers ns, rfl⟩
    exact filterMap_map .number Number.toBinary64 (fun _ => rfl) ns
  · obtain ⟨bs, rfl⟩ : ∃ bs : List Bool, items = bs.map .bool :=
      exists_eq_map fun item hitem => Value.exists_eq_bool (hkinds item hitem)
    refine ⟨.bools bs, congrArg (fun bs => Except.ok (Constant.bools bs)) ?_, .bools bs, rfl⟩
    exact (filterMap_map .bool id (fun _ => rfl) bs).trans (List.map_id bs)

/-- A list is a constant, or it is refused for what it holds. -/
theorem listConstant_spec (path : String) (items : List Value) :
    (∃ c, listConstant path items = .ok c ∧ Value.Denotes (.list items) c ∧ c.isList = true ∧
        Value.IsScalarList (.list items)) ∨
      ∃ e, listConstant path items = .error e ∧ Value.Unusable path (.list items) e := by
  cases items with
  | nil => exact .inr ⟨_, rfl, .emptyList⟩
  | cons first rest =>
    -- the kinds are those of the first element up to the first one that differs
    cases hfind : ((first :: rest).map Value.kind).find? (· != first.kind) with
    | some kind =>
      have herror :
          listConstant path (first :: rest) = .error (.mixedList path first.kind kind) := by
        simp only [listConstant, hfind]
      rw [List.find?_map, Option.map_eq_some_iff] at hfind
      obtain ⟨other, hfound, rfl⟩ := hfind
      obtain ⟨hother, same, behind, hsplit, hsame⟩ := List.find?_eq_some_iff_append.mp hfound
      cases same with
      | nil =>
        -- the first element is of its own kind
        cases hsplit
        simp at hother
      | cons v same =>
        obtain ⟨rfl, rfl⟩ := List.cons.inj hsplit
        exact .inr ⟨_, herror,
          .mixedList (fun w hw => by simpa using hsame w (List.mem_cons_of_mem _ hw))
            (by simpa using hother)⟩
    | none =>
      -- one kind for all, which must be that of a scalar
      have hkinds : ∀ item ∈ first :: rest, item.kind = first.kind := by
        simpa using hfind
      by_cases hkind : first.kind ∈ Kind.scalars
      · obtain ⟨c, hc, hdenotes, hlist⟩ := listConstant_of_kinds (by simp) hkinds hkind
        exact .inl ⟨c, hc, hdenotes, hlist, by simp, first.kind, hkind, hkinds⟩
      · refine .inr ⟨.unsupportedElement path, ?_, .nested (by simp) hkinds hkind⟩
        simp only [listConstant, hfind]
        generalize first.kind = kind at hkind
        cases kind <;> simp_all [Kind.scalars]

/-- **A value is a constant if it is a scalar or a list of scalars of one kind**, and the constant
denotes it. -/
theorem constant_spec (path : String) (v : Value) :
    (∃ c, constant path v = .ok c ∧ v.Denotes c ∧
        (c.isList = false ∧ v.IsScalar ∨ c.isList = true ∧ v.IsScalarList)) ∨
      ∃ e, constant path v = .error e ∧ v.Unusable path e := by
  cases v with
  | string s => exact .inl ⟨_, rfl, .string s, .inl ⟨rfl, .string s⟩⟩
  | number n => exact .inl ⟨_, rfl, .number n, .inl ⟨rfl, .number n⟩⟩
  | bool b => exact .inl ⟨_, rfl, .bool b, .inl ⟨rfl, .bool b⟩⟩
  | null => exact .inr ⟨_, rfl, .null⟩
  | struct fields => exact .inr ⟨_, rfl, .struct fields⟩
  | list items =>
    obtain ⟨c, hc, hdenotes, hlist, hscalars⟩ | hunusable := listConstant_spec path items
    · exact .inl ⟨c, hc, hdenotes, .inr ⟨hlist, hscalars⟩⟩
    · exact .inr hunusable

end Filter

/-! ### Nodes -/

/-- What a relation takes as its constant. -/
def Relation.Takes (value : Value) : Relation → Prop
  | unspecified => False
  | present | absent => True
  | equalTo | notEqualTo => value.IsScalar ∨ value.IsScalarList
  | among | notAmong => value.IsScalarList
  | lessThan | greaterThan | atMost | atLeast => value.IsScalar

instance (value : Value) (relation : Relation) : Decidable (relation.Takes value) :=
  match relation with
  | .unspecified => inferInstanceAs (Decidable False)
  | .present | .absent => inferInstanceAs (Decidable True)
  | .equalTo | .notEqualTo => inferInstanceAs (Decidable (value.IsScalar ∨ value.IsScalarList))
  | .among | .notAmong => inferInstanceAs (Decidable value.IsScalarList)
  | .lessThan | .greaterThan | .atMost | .atLeast => inferInstanceAs (Decidable value.IsScalar)

/-- The form that a relation asks of its constant, if it does not take both. -/
def Relation.form? : Relation → Option ConstantForm
  | among | notAmong => some .list
  | lessThan | greaterThan | atMost | atLeast => some .scalar
  | unspecified | present | absent | equalTo | notEqualTo => none

/-- A relation that compares takes scalars unless it asks for a list, and lists of them unless it
asks for a scalar. -/
theorem Relation.takes_iff {relation : Relation} {value : Value} {comparison : Comparison}
    (hcomparison : relation.comparison? = some comparison) :
    relation.Takes value ↔ value.IsScalar ∧ relation.form? ≠ some .list ∨
      value.IsScalarList ∧ relation.form? ≠ some .scalar := by
  cases relation <;> simp_all [Relation.Takes, Relation.form?, Relation.comparison?]

namespace Filter

/-- A node of a filter can be compiled, its operands aside. -/
def IsSound : Filter → Prop
  | logical connective _ => connective ≠ .unspecified
  | relational path relation value => path ≠ "" ∧ relation.Takes value

instance (f : Filter) : Decidable f.IsSound :=
  match f with
  | logical connective _ => inferInstanceAs (Decidable (connective ≠ .unspecified))
  | relational path relation value =>
    inferInstanceAs (Decidable (path ≠ "" ∧ relation.Takes value))

mutual

/-- The nodes of a filter: the operands of a connective from left to right, then the connective. -/
def nodes : Filter → List Filter
  | relational path relation value => [relational path relation value]
  | logical connective operands => nodesAll operands ++ [logical connective operands]

/-- The nodes of filters, from left to right. -/
def nodesAll : List Filter → List Filter
  | [] => []
  | f :: rest => f.nodes ++ nodesAll rest

end

/-- All nodes of a filter are sound. -/
def WellFormed (f : Filter) : Prop :=
  ∀ node ∈ f.nodes, node.IsSound

instance (f : Filter) : Decidable f.WellFormed :=
  inferInstanceAs (Decidable (∀ node ∈ f.nodes, node.IsSound))

/-- What is wrong with a node, its operands aside. The path comes first, then the relation, then
whether the value is a constant at all, and its form last. -/
inductive Fault : Filter → FilterError → Prop
  | connective (operands : List Filter) :
    Fault (.logical .unspecified operands) .unknownConnective
  | path (relation : Relation) (value : Value) : Fault (.relational "" relation value) .emptyPath
  | relation {path : String} (value : Value) (hpath : path ≠ "") :
    Fault (.relational path .unspecified value) .unknownRelation
  | constant {path : String} {relation : Relation} {value : Value} {comparison : Comparison}
    {e : FilterError} (hpath : path ≠ "") (hcomparison : relation.comparison? = some comparison)
    (hvalue : value.Unusable path e) : Fault (.relational path relation value) e
  | noList {path : String} {relation : Relation} {value : Value} (hpath : path ≠ "")
    (hform : relation.form? = some .list) (hvalue : value.IsScalar) :
    Fault (.relational path relation value) (.mismatch path relation .list)
  | noScalar {path : String} {relation : Relation} {value : Value} (hpath : path ≠ "")
    (hform : relation.form? = some .scalar) (hvalue : value.IsScalarList) :
    Fault (.relational path relation value) (.mismatch path relation .scalar)

/-- An error is a fault of the first of some nodes that is not sound. -/
def FirstFault (nodes : List Filter) (e : FilterError) : Prop :=
  ∃ before node behind, nodes = before ++ node :: behind ∧ (∀ g ∈ before, g.IsSound) ∧
    ¬node.IsSound ∧ node.Fault e

/-- A predicate has the shape of a filter: every connective is that of the filter with as many
operands, in the same order, and every relation that of the filter, below `config`, with the same
constant. -/
inductive Renders : Filter → Predicate → Prop
  | all {operands : List Filter} {ps : List Predicate} (h : List.Forall₂ Renders operands ps) :
    Renders (.logical .and operands) (.all ps)
  | any {operands : List Filter} {ps : List Predicate} (h : List.Forall₂ Renders operands ps) :
    Renders (.logical .or operands) (.any ps)
  | present (path : String) (value : Value) :
    Renders (.relational path .present value) (.present ("config." ++ path) true)
  | absent (path : String) (value : Value) :
    Renders (.relational path .absent value) (.present ("config." ++ path) false)
  | compare {path : String} {relation : Relation} {value : Value} {comparison : Comparison}
    {c : Constant} (hcomparison : relation.comparison? = some comparison)
    (hconstant : value.Denotes c) :
    Renders (.relational path relation value) (.compare ("config." ++ path) comparison c)

/-- A node with a fault is not sound. -/
theorem Fault.not_isSound {node : Filter} {e : FilterError} (h : node.Fault e) :
    ¬node.IsSound := by
  cases h with
  | connective operands => exact fun h => h rfl
  -- a path that is missing
  | path relation value => exact fun h => h.1 rfl
  | relation value hpath => exact fun h => h.2
  | @constant path relation value comparison _ hpath hcomparison hvalue =>
    -- the constant itself is of no use
    rintro ⟨-, htakes⟩
    obtain ⟨hscalar, hlist⟩ := hvalue.not_isScalar
    obtain ⟨h, -⟩ | ⟨h, -⟩ := (Relation.takes_iff hcomparison).mp htakes
    · exact hscalar h
    · exact hlist h
  | @noList path relation value hpath hform hvalue =>
    -- no list where the relation asks for one, and the other way round below
    rintro ⟨-, htakes⟩
    have hlist : value.IsScalarList := by
      cases relation <;> simp_all [Relation.Takes, Relation.form?]
    exact hlist.not_isScalar hvalue
  | @noScalar path relation value hpath hform hvalue =>
    rintro ⟨-, htakes⟩
    have hscalar : value.IsScalar := by
      cases relation <;> simp_all [Relation.Takes, Relation.form?]
    exact hvalue.not_isScalar hscalar

/-! ### Compiling -/

/-- What compiling gives for some nodes: what renders them if all are sound, and otherwise a fault
of the first that is not. -/
def Outcome {α : Type} (nodes : List Filter) (Rendered : α → Prop) :
    Except FilterError α → Prop
  | .ok a => (∀ node ∈ nodes, node.IsSound) ∧ Rendered a
  | .error e => FirstFault nodes e

theorem Outcome.of_ok {node : Filter} {p : Predicate} (hsound : node.IsSound)
    (hrenders : node.Renders p) : Outcome [node] node.Renders (.ok p) :=
  ⟨by simpa using hsound, hrenders⟩

theorem Outcome.of_fault {node : Filter} {e : FilterError} (h : node.Fault e) :
    Outcome [node] node.Renders (.error e) :=
  ⟨[], node, [], rfl, by simp, h.not_isSound, h⟩

/-- **One part after another**: the second is only looked at if the first is sound. -/
theorem Outcome.bind {α β : Type} {before behind : List Filter} {R : α → Prop} {S : β → Prop}
    {x : Except FilterError α} {k : α → Except FilterError β} (hx : Outcome before R x)
    (hk : ∀ a, R a → Outcome behind S (k a)) : Outcome (before ++ behind) S (x >>= k) := by
  cases x with
  | error e =>
    -- the first part stops the second, whose nodes are not looked at
    obtain ⟨sound, node, rest, rfl, hfirst⟩ := hx
    exact ⟨sound, node, rest ++ behind, by simp, hfirst⟩
  | ok a =>
    obtain ⟨hsound, ha⟩ := hx
    have hbehind : Outcome behind S (k a) := hk a ha
    -- all nodes before are sound, so the first that is not is one of those behind
    change Outcome (before ++ behind) S (k a)
    cases hka : k a with
    | ok b =>
      rw [hka] at hbehind
      exact ⟨List.forall_mem_append.mpr ⟨hsound, hbehind.1⟩, hbehind.2⟩
    | error e =>
      rw [hka] at hbehind
      obtain ⟨sound, node, rest, rfl, hsound', hfault⟩ := hbehind
      exact ⟨before ++ sound, node, rest, by simp, List.forall_mem_append.mpr ⟨hsound, hsound'⟩,
        hfault⟩

/-- A relation that compares, alone. -/
theorem outcome_comparison {path : String} {relation : Relation} (value : Value)
    {comparison : Comparison} (hpath : path ≠ "")
    (hcomparison : relation.comparison? = some comparison) :
    Outcome [relational path relation value] (relational path relation value).Renders
      (Filter.comparison path relation value comparison relation.form?) := by
  -- the constant is looked at before its form
  obtain ⟨c, hc, hdenotes, hform⟩ | ⟨e, he, hunusable⟩ := constant_spec path value
  · -- then its form, which the relation may be particular about
    rw [comparison_of_constant hc]
    split_ifs with hnoList hnoScalar
    · obtain ⟨hasks, hscalar⟩ := hnoList
      exact .of_fault (.noList hpath hasks (by simp_all))
    · obtain ⟨hasks, hlist⟩ := hnoScalar
      exact .of_fault (.noScalar hpath hasks (by simp_all))
    · have htakes : relation.Takes value := by
        refine (Relation.takes_iff hcomparison).mpr (hform.imp ?_ ?_)
        · exact fun ⟨hlist, hscalar⟩ => ⟨hscalar, fun hasks => hnoList ⟨hasks, hlist⟩⟩
        · exact fun ⟨hlist, hscalars⟩ => ⟨hscalars, fun hasks => hnoScalar ⟨hasks, hlist⟩⟩
      exact .of_ok ⟨hpath, htakes⟩ (.compare hcomparison hdenotes)
  · rw [Filter.comparison, he]
    exact .of_fault (.constant hpath hcomparison hunusable)

/-- **A relation alone.** -/
theorem outcome_compileRelation (path : String) (relation : Relation) (value : Value) :
    Outcome [relational path relation value] (relational path relation value).Renders
      (compileRelation path relation value) := by
  by_cases hempty : path = ""
  · subst hempty
    exact .of_fault (.path relation value)
  · rw [compileRelation.eq_def, if_neg (by simpa using hempty)]
    cases relation with
    | unspecified => exact .of_fault (.relation value hempty)
    | present => exact .of_ok ⟨hempty, trivial⟩ (.present path value)
    | absent => exact .of_ok ⟨hempty, trivial⟩ (.absent path value)
    | _ => exact outcome_comparison value hempty rfl

mutual

/-- Compiling a filter visits its nodes. -/
theorem outcome_compile (f : Filter) : Outcome f.nodes f.Renders f.compile := by
  cases f with
  | relational path relation value =>
    rw [nodes, compile]
    exact outcome_compileRelation path relation value
  | logical connective operands =>
    rw [nodes, compile]
    -- the operands come first, and their connective is looked at only if they are sound
    refine (outcome_compileAll operands).bind fun ps hps => ?_
    cases connective with
    | unspecified => exact .of_fault (.connective operands)
    | and => exact .of_ok (by simp [IsSound]) (.all hps)
    | or => exact .of_ok (by simp [IsSound]) (.any hps)

/-- Compiling filters visits their nodes, one filter after the other. -/
theorem outcome_compileAll (fs : List Filter) :
    Outcome (nodesAll fs) (List.Forall₂ Renders fs) (compileAll fs) := by
  cases fs with
  | nil =>
    rw [nodesAll, compileAll]
    exact ⟨by simp, .nil⟩
  | cons f rest =>
    rw [nodesAll, compileAll]
    refine (outcome_compile f).bind fun p hp => ?_
    -- putting the first predicate in front of the others visits no node
    rw [← List.append_nil (nodesAll rest)]
    refine (outcome_compileAll rest).bind fun ps hps => ?_
    exact ⟨by simp, .cons hp hps⟩

end

/-- **A filter compiles exactly if all its nodes are sound.** The predicate has the shape of the
filter and its constants, element for element; the error is a fault of the first node that is not
sound, operands before their connective and from left to right. -/
theorem compile_iff_wellFormed (f : Filter) :
    ((∃ p, f.compile = .ok p) ↔ f.WellFormed) ∧ (∀ p, f.compile = .ok p → f.Renders p) ∧
      ∀ e, f.compile = .error e → FirstFault f.nodes e := by
  -- what compiling reports is what the nodes say, so only the two outcomes are told apart
  have houtcome := outcome_compile f
  cases hcompile : f.compile with
  | ok p =>
    rw [hcompile] at houtcome
    refine ⟨⟨fun _ => houtcome.1, fun _ => ⟨p, rfl⟩⟩, ?_, by simp⟩
    rintro _ ⟨⟩
    exact houtcome.2
  | error e =>
    rw [hcompile] at houtcome
    -- the node that is reported is not sound, so the filter is not well formed
    have hnot : ¬f.WellFormed := by
      obtain ⟨before, node, behind, hnodes, -, hunsound, -⟩ := houtcome
      exact fun hsound => hunsound (hsound node (by simp [hnodes]))
    refine ⟨⟨by simp, fun hsound => (hnot hsound).elim⟩, by simp, ?_⟩
    rintro _ ⟨⟩
    exact houtcome

/-- A list of two kinds is the first fault of a filter whose connective is missing, too. -/
theorem compile_iff_wellFormed_mixed :
    let f := Filter.logical .and [.relational "name" .among (.list [.string "cpu", .string "mem"]),
      .relational "spec.owner" .absent .null]
    let g := Filter.logical .unspecified [.relational "name" .equalTo (.string "cpu"),
      .relational "flags" .notAmong (.list [.bool true, .bool true, .string "cpu"])]
    (∃ p, f.compile = .ok p ∧ f.Renders p) ∧ ¬(∃ p, g.compile = .ok p) ∧
      FirstFault g.nodes (.mixedList "flags" .bool .string) := by
  intro f g
  obtain ⟨hf, hrenders, -⟩ := compile_iff_wellFormed f
  obtain ⟨hg, -, hfault⟩ := compile_iff_wellFormed g
  obtain ⟨p, hp⟩ := hf.mpr (by decide)
  exact ⟨⟨p, hp, hrenders p hp⟩, fun h => absurd (hg.mp h) (by decide), hfault _ rfl⟩

end Filter

end ConfigLedger
