import ConfigLedger.Proofs.Filter.WellFormed

/-!
# Membership and equality

Is a field that is `among` some constants one that equals the first of them, or the second, and so
on? One relation answers for the whole list (`Filter.accepts_among_iff`), and there is one equation
for each constant in the disjunction (`Filter.accepts_anyOf_iff`).

Both look into a field that holds a list, but not equally far. An equation asks the **elements** of
the list (`Value.elements`), membership asks the **contents**, that is, whatever is inside lists in
lists (`Value.contents`). So the two agree on a field **exactly if one of its elements is one of the
constants whenever something in it is** (`Document.distributes_iff`). That is so of every scalar and
every flat list, but not of a list that has a constant only inside another list
(`Document.not_distributes_nested`).
-/

namespace ConfigLedger

namespace Value

/-! ### Inside lists -/

/-- The elements of a list; anything else is its own only element. -/
def elements : Value → List Value
  | list items => items
  | v => [v]

mutual

/-- What is inside a list and the lists in it; anything else is its own only content. -/
def contents : Value → List Value
  | list items => itemContents items
  | v => [v]

/-- What is inside the items and the lists in them. -/
def itemContents : List Value → List Value
  | [] => []
  | v :: rest => contents v ++ itemContents rest

end

/-- The values are the same text, the same number of binary64, or the same truth value. -/
def alike : Value → Value → Bool
  | string s, string t => s == t
  | number n, number m => n.toBinary64.equal m.toBinary64
  | bool b, bool c => b == c
  | _, _ => false

/-- One of the values is like one of the constants. -/
def Meets (values constants : List Value) : Prop :=
  ∃ v ∈ values, ∃ c ∈ constants, v.alike c = true

variable {v c : Value} {cs : List Value}

theorem any_alike_iff {values : List Value} :
    (values.any fun v => cs.any (v.alike ·)) = true ↔ Meets values cs := by
  simp only [List.any_eq_true, Meets]

/-- A null is like nothing. -/
theorem not_meets_null : ¬ Meets [null] cs := by
  rintro ⟨v, hv, c, -, halike⟩
  obtain rfl := List.mem_singleton.1 hv
  cases c <;> cases halike

/-- The contents of one of the items are among those of all. -/
theorem mem_itemContents {items : List Value} :
    v ∈ itemContents items ↔ ∃ w ∈ items, v ∈ w.contents := by
  induction items with
  | nil => simp [itemContents]
  | cons w rest ih => simp [itemContents, ih]

/-- An element that is like a constant is no list, so it is one of the contents. -/
theorem meets_contents (h : Meets v.elements cs) : Meets v.contents cs := by
  -- take the element that is like a constant
  obtain ⟨w, hw, c, hc, halike⟩ := h
  have hself : w ∈ w.contents := by
    cases w with
    | list items => cases c <;> cases halike
    | _ => exact List.mem_singleton.2 rfl
  -- so what is inside the element is itself, at the end of whatever lists
  refine ⟨w, ?_, c, hc, halike⟩
  cases v with
  | list items => exact mem_itemContents.2 ⟨w, hw, hself⟩
  | _ =>
    obtain rfl := List.mem_singleton.1 hw
    exact hself

/-! ### Comparing with constants -/

/-- A scalar constant equals a field if it equals one of the elements. -/
theorem equals_of_isList_eq_false {k : Constant} (h : k.isList = false) (v : Value) :
    v.equals k = v.elements.any (·.equalsScalar k) := by
  cases k with
  | strings | numbers | bools => cases h
  | _ =>
    cases v with
    | list items => rfl
    | _ => exact (Bool.or_false _).symm

/-- Being equal to a scalar constant, for a value that is no list. -/
theorem equalsScalar_of_denotes {k : Constant} (h : c.Denotes k) (hk : k.isList = false)
    (v : Value) : v.equalsScalar k = v.alike c := by
  cases h with
  | strings | numbers | bools => cases hk
  | _ => cases v <;> rfl

/-- **A scalar constant** equals a field if it is like one of the elements. -/
theorem equals_of_denotes {k : Constant} (h : c.Denotes k) (hk : k.isList = false) (v : Value) :
    v.equals k = v.elements.any (·.alike c) := by
  rw [equals_of_isList_eq_false hk]
  exact congrArg v.elements.any (funext fun w => equalsScalar_of_denotes h hk w)

/-- Being one of the constants of a list, for a value that is none itself. -/
theorem isOneOf_of_denotes {k : Constant} (h : (list cs).Denotes k) (v : Value) :
    v.isOneOf k = cs.any (v.alike ·) := by
  -- one case for each kind of constant; only a value of that kind is compared with anything
  cases h with
  | strings ss =>
    rw [isOneOf, List.any_map]
    cases v <;> rfl
  | numbers ns =>
    rw [isOneOf, List.any_map, List.any_map]
    cases v <;> rfl
  | bools bs =>
    rw [isOneOf, List.any_map]
    cases v <;> rfl

mutual

/-- **The constants of a list** contain a field if something in it is like one of them. -/
theorem containedIn_of_denotes {k : Constant} (h : (list cs).Denotes k) (v : Value) :
    v.containedIn k = v.contents.any fun w => cs.any (w.alike ·) := by
  cases v with
  | list items => exact anyContainedIn_of_denotes h items
  | _ => exact (isOneOf_of_denotes h _).trans (Bool.or_false _).symm

theorem anyContainedIn_of_denotes {k : Constant} (h : (list cs).Denotes k) (items : List Value) :
    anyContainedIn k items = (itemContents items).any fun w => cs.any (w.alike ·) := by
  cases items with
  | nil => rfl
  | cons v rest =>
    rw [anyContainedIn, itemContents, List.any_append, containedIn_of_denotes h v,
      anyContainedIn_of_denotes h rest]

end

end Value

/-! ### Filters -/

namespace Filter

/-- The field at a path equals one of the constants. -/
def anyOf (path : String) (constants : List Value) : Filter :=
  .or (constants.map (.relational path .equalTo))

/-- The field at a path equals none of the constants. -/
def noneOf (path : String) (constants : List Value) : Filter :=
  .and (constants.map (.relational path .notEqualTo))

variable {path : String} {cs : List Value} {c : Value} {p : Predicate} {d : Document}

/-- The constants of a list of scalars are scalars. -/
theorem isScalar_of_mem (hcs : (Value.list cs).IsScalarList) (hc : c ∈ cs) : c.IsScalar := by
  obtain ⟨-, kind, hkind, hkinds⟩ := hcs
  rw [Value.IsScalar, hkinds c hc]
  exact hkind

/-- A filter whose nodes are sound compiles. -/
theorem exists_compile {f : Filter} (h : f.WellFormed) : ∃ p, f.compile = .ok p := by
  have houtcome := outcome_compile f
  cases hcompile : f.compile with
  | ok p => exact ⟨p, rfl⟩
  | error e =>
    rw [hcompile] at houtcome
    obtain ⟨before, node, behind, hnodes, -, hunsound, -⟩ := houtcome
    exact absurd (h node (by simp [hnodes])) hunsound

theorem nodesAll_map_relational (path : String) (relation : Relation) (cs : List Value) :
    nodesAll (cs.map (.relational path relation)) = cs.map (.relational path relation) := by
  induction cs with
  | nil => rfl
  | cons c rest ih => rw [List.map_cons, nodesAll, ih, nodes, List.singleton_append]

/-- Relations with scalars of a list are sound if they take scalars, whatever joins them. -/
theorem wellFormed_map_relational (hpath : path ≠ "") (hcs : (Value.list cs).IsScalarList)
    {relation : Relation} (hrelation : ∀ v : Value, v.IsScalar → relation.Takes v)
    {connective : Connective} (hconnective : connective ≠ .unspecified) :
    (logical connective (cs.map (.relational path relation))).WellFormed := by
  intro node hnode
  rw [nodes, nodesAll_map_relational, List.mem_append, List.mem_singleton] at hnode
  rcases hnode with hnode | rfl
  · obtain ⟨c, hc, rfl⟩ := List.mem_map.1 hnode
    exact ⟨hpath, hrelation c (isScalar_of_mem hcs hc)⟩
  · exact hconnective

/-- Whether some relation with one of the constants holds. -/
theorem acceptsAny_map (v : Value) (path : String) (relation : Relation) (cs : List Value) :
    acceptsAny v (cs.map (.relational path relation)) =
      cs.any fun c => (relational path relation c).accepts v := by
  induction cs with
  | nil => rfl
  | cons c rest ih => rw [List.map_cons, acceptsAny, ih, List.any_cons]

/-- Whether the relations with all of the constants hold. -/
theorem acceptsAll_map (v : Value) (path : String) (relation : Relation) (cs : List Value) :
    acceptsAll v (cs.map (.relational path relation)) =
      cs.all fun c => (relational path relation c).accepts v := by
  induction cs with
  | nil => rfl
  | cons c rest ih => rw [List.map_cons, acceptsAll, ih, List.all_cons]

/-- A relation that compares accepts what its constant compares to. -/
theorem accepts_of_constant {v : Value} {relation : Relation} {comparison : Comparison}
    (hcomparison : relation.comparison? = some comparison) {k : Constant}
    (hk : constant path c = .ok k) :
    (relational path relation c).accepts v =
      comparison.holds k ((v.lookup path).filter fun w => !w.isNull) := by
  rw [accepts, hk]
  exact Relation.holds_of_comparison? hcomparison k _

/-- A scalar, or a list of scalars of one kind, is a constant. -/
theorem exists_constant (path : String) (h : c.IsScalar ∨ c.IsScalarList) :
    ∃ k, constant path c = .ok k ∧ c.Denotes k ∧ (c.IsScalar → k.isList = false) := by
  obtain ⟨k, hk, hdenotes, hform⟩ | ⟨e, -, hunusable⟩ := constant_spec path c
  · refine ⟨k, hk, hdenotes, fun hscalar => ?_⟩
    obtain ⟨hlist, -⟩ | ⟨-, hscalars⟩ := hform
    · exact hlist
    · exact absurd hscalar hscalars.not_isScalar
  · exact absurd h (not_or.2 hunusable.not_isScalar)

/-- What no null has need not be asked of fields that are not null only. -/
theorem any_filter_isNull {g : Value → Bool} (hg : g .null = false) (field : Option Value) :
    (field.filter fun w => !w.isNull).any g = field.any g := by
  rcases field with _ | v
  · rfl
  cases v with
  | null => exact hg.symm
  | _ => rfl

/-- **Membership** asks what is inside lists in lists. -/
theorem accepts_among_iff (hcs : (Value.list cs).IsScalarList) (v : Value) (path : String) :
    (relational path .among (.list cs)).accepts v = true ↔
      ∃ w, v.lookup path = some w ∧ Value.Meets w.contents cs := by
  obtain ⟨k, hk, hdenotes, -⟩ := exists_constant path (.inr hcs)
  have hnull : Value.null.containedIn k = false := by
    rw [Value.containedIn_of_denotes hdenotes, Bool.eq_false_iff, ne_eq, Value.any_alike_iff]
    exact Value.not_meets_null
  rw [accepts_of_constant rfl hk, Comparison.holds, any_filter_isNull hnull, Option.any_eq_true]
  refine exists_congr fun w => and_congr_right fun _ => ?_
  rw [Value.containedIn_of_denotes hdenotes, Value.any_alike_iff]

/-- One equation asks the elements of a list. -/
theorem accepts_equalTo_iff (hc : c.IsScalar) (v : Value) (path : String) :
    (relational path .equalTo c).accepts v = true ↔
      ∃ w, v.lookup path = some w ∧ Value.Meets w.elements [c] := by
  obtain ⟨k, hk, hdenotes, hlist⟩ := exists_constant path (.inl hc)
  -- a constant that is a scalar is compared with each element
  have hequals (w : Value) : w.equals k = true ↔ Value.Meets w.elements [c] := by
    rw [Value.equals_of_denotes hdenotes (hlist hc)]
    simp [Value.Meets]
  -- a null equals no constant, so it does not matter that nulls are left out
  have hnull : Value.null.equals k = false := by
    rw [Bool.eq_false_iff, ne_eq, hequals]
    exact Value.not_meets_null
  rw [accepts_of_constant rfl hk, Comparison.holds, any_filter_isNull hnull, Option.any_eq_true]
  exact exists_congr fun w => and_congr_right fun _ => hequals w

/-- An inequation is the negation of an equation. -/
theorem accepts_notEqualTo (hc : c.IsScalar) (v : Value) (path : String) :
    (relational path .notEqualTo c).accepts v = !(relational path .equalTo c).accepts v := by
  obtain ⟨k, hk, -⟩ := exists_constant path (.inl hc)
  rw [accepts_of_constant rfl hk, accepts_of_constant rfl hk]
  rfl

theorem accepts_notAmong (hcs : (Value.list cs).IsScalarList) (v : Value) (path : String) :
    (relational path .notAmong (.list cs)).accepts v =
      !(relational path .among (.list cs)).accepts v := by
  obtain ⟨k, hk, -⟩ := exists_constant path (.inr hcs)
  rw [accepts_of_constant rfl hk, accepts_of_constant rfl hk]
  rfl

/-- **A disjunction of equations** asks the elements of a list. -/
theorem accepts_anyOf_iff (hcs : (Value.list cs).IsScalarList) (v : Value) (path : String) :
    (anyOf path cs).accepts v = true ↔
      ∃ w, v.lookup path = some w ∧ Value.Meets w.elements cs := by
  -- being like one of the constants is asked for each constant on its own
  have hmeets (w : Value) :
      Value.Meets w.elements cs ↔ ∃ c ∈ cs, Value.Meets w.elements [c] := by
    simp only [Value.Meets, List.mem_singleton, exists_eq_left]
    tauto
  change acceptsAny v _ = true ↔ _
  -- the disjunction holds if one of its equations does
  rw [acceptsAny_map, List.any_eq_true]
  simp only [hmeets]
  constructor
  · rintro ⟨c, hc, haccepts⟩
    obtain ⟨w, hw, hmeet⟩ := (accepts_equalTo_iff (isScalar_of_mem hcs hc) v path).1 haccepts
    exact ⟨w, hw, c, hc, hmeet⟩
  · rintro ⟨w, hw, c, hc, hmeet⟩
    exact ⟨c, hc, (accepts_equalTo_iff (isScalar_of_mem hcs hc) v path).2 ⟨w, hw, hmeet⟩⟩

/-- A conjunction of inequations is the negation of a disjunction of equations. -/
theorem accepts_noneOf (hcs : (Value.list cs).IsScalarList) (v : Value) (path : String) :
    (noneOf path cs).accepts v = !(anyOf path cs).accepts v := by
  change acceptsAll v _ = !acceptsAny v _
  rw [acceptsAll_map, acceptsAny_map, List.not_any_eq_all_not]
  have hnot : ∀ c ∈ cs, (relational path .notEqualTo c).accepts v =
      !(relational path .equalTo c).accepts v :=
    fun c hc => accepts_notEqualTo (isScalar_of_mem hcs hc) v path
  rw [Bool.eq_iff_iff, List.all_eq_true, List.all_eq_true]
  exact forall₂_congr fun c hc => by rw [hnot c hc]

end Filter

/-! ### Documents -/

namespace Document

variable {path : String} {cs : List Value} {f g : Filter}

/-- Both filters compile, and the document satisfies both or none of them. -/
def Agrees (d : Document) (f g : Filter) : Prop :=
  ∃ p q, f.compile = .ok p ∧ g.compile = .ok q ∧ d.satisfies p = d.satisfies q

/-- For the document, membership in a list is the disjunction of equations with its constants, and
non-membership the conjunction of inequations. -/
structure Distributes (d : Document) (path : String) (cs : List Value) : Prop where
  among : d.Agrees (.relational path .among (.list cs)) (.anyOf path cs)
  notAmong : d.Agrees (.relational path .notAmong (.list cs)) (.noneOf path cs)

theorem agrees_iff (hf : f.WellFormed) (hg : g.WellFormed) (d : Document) :
    d.Agrees f g ↔ f.accepts d.value = g.accepts d.value := by
  -- both compile, to one predicate each
  obtain ⟨p, hp⟩ := Filter.exists_compile hf
  obtain ⟨q, hq⟩ := Filter.exists_compile hg
  have hsatisfies : d.satisfies p = f.accepts d.value := Filter.holds_compile hp
  have hsatisfies' : d.satisfies q = g.accepts d.value := Filter.holds_compile hq
  -- agreeing is said of all predicates that the filters compile to, but there is only this pair
  constructor
  · rintro ⟨p', q', hp', hq', h⟩
    obtain rfl : p = p' := Except.ok.inj (hp.symm.trans hp')
    obtain rfl : q = q' := Except.ok.inj (hq.symm.trans hq')
    rwa [hsatisfies, hsatisfies'] at h
  · intro h
    exact ⟨p, q, hp, hq, by rw [hsatisfies, hsatisfies', h]⟩

/-- A document distributes if it accepts membership exactly as it accepts the disjunction. -/
theorem distributes_iff_accepts (hpath : path ≠ "") (hcs : (Value.list cs).IsScalarList)
    (d : Document) : d.Distributes path cs ↔
      (Filter.relational path .among (.list cs)).accepts d.value =
        (Filter.anyOf path cs).accepts d.value := by
  -- all four filters are well formed
  have hrelation (relation : Relation) (htakes : relation.Takes (.list cs)) :
      (Filter.relational path relation (.list cs)).WellFormed := by
    intro node hnode
    obtain rfl := List.mem_singleton.1 hnode
    exact ⟨hpath, htakes⟩
  have hanyOf : (Filter.anyOf path cs).WellFormed :=
    Filter.wellFormed_map_relational hpath hcs (fun _ => Or.inl) (by decide)
  have hnoneOf : (Filter.noneOf path cs).WellFormed :=
    Filter.wellFormed_map_relational hpath hcs (fun _ => Or.inl) (by decide)
  have hamong := agrees_iff (hrelation .among hcs) hanyOf d
  have hnotAmong := agrees_iff (hrelation .notAmong hcs) hnoneOf d
  -- membership and the disjunction are one of the two demands
  constructor
  · exact fun h => hamong.1 h.among
  · intro h
    refine ⟨hamong.2 h, hnotAmong.2 ?_⟩
    -- the other two are the negations
    have hnone := Filter.accepts_noneOf hcs d.value path
    rw [Filter.accepts_notAmong hcs, h]
    exact hnone.symm

/-- **Membership is a disjunction of equations** exactly if one of the elements of the field is one
of the constants whenever something in it is, however many lists around it. -/
theorem distributes_iff (hpath : path ≠ "") (hcs : (Value.list cs).IsScalarList) (d : Document) :
    d.Distributes path cs ↔ ∀ w, d.value.lookup path = some w →
      Value.Meets w.contents cs → Value.Meets w.elements cs := by
  -- both sides in terms of the field: what is inside it on the left, its elements on the right
  rw [distributes_iff_accepts hpath hcs, Bool.eq_iff_iff, Filter.accepts_among_iff hcs,
    Filter.accepts_anyOf_iff hcs]
  constructor
  · -- a path leads to one value at most
    intro h w hw hmeets
    obtain ⟨w', hw', hmeets'⟩ := h.1 ⟨w, hw, hmeets⟩
    obtain rfl : w = w' := Option.some.inj (hw.symm.trans hw')
    exact hmeets'
  · -- the elements are among what is inside, so only one direction asks for anything
    intro h
    constructor
    · rintro ⟨w, hw, hmeets⟩
      exact ⟨w, hw, h w hw hmeets⟩
    · rintro ⟨w, hw, hmeets⟩
      exact ⟨w, hw, Value.meets_contents hmeets⟩

/-- A list inside the list does no harm where a constant stands beside it as well. -/
theorem distributes_iff_beside :
    let cs := [Value.string "hot", .string "cold"]
    let value := Value.struct [("tags", .list [.list [.string "hot"], .null, .string "cold"])]
    let d : Document :=
      ⟨⟨⟨"rules", "alerting", "tenant-1"⟩, "a"⟩, 1, ⟨"ada", "ada@example.com"⟩, value, 1000, 1000⟩
    "tags" ≠ "" ∧ (Value.list cs).IsScalarList ∧ d.Distributes "tags" cs := by
  intro cs value d
  have hpath : "tags" ≠ "" := by decide
  have hcs : (Value.list cs).IsScalarList := by decide
  refine ⟨hpath, hcs, (distributes_iff hpath hcs d).2 fun w hw _ => ?_⟩
  -- the field is a list, in which one constant stands by itself
  have hfield : d.value.lookup "tags" =
      some (.list [.list [.string "hot"], .null, .string "cold"]) := rfl
  obtain rfl := Option.some.inj (hfield.symm.trans hw)
  exact ⟨.string "cold", by simp [Value.elements], .string "cold", by simp [cs], rfl⟩

/-- A constant that is only inside another list is a member, but equals nothing. -/
theorem not_distributes_nested :
    let value := Value.struct [("tags", .list [.list [.string "hot"]])]
    let d : Document :=
      ⟨⟨⟨"rules", "alerting", "tenant-1"⟩, "a"⟩, 1, ⟨"ada", "ada@example.com"⟩, value, 1000, 1000⟩
    "tags" ≠ "" ∧ (Value.list [.string "hot"]).IsScalarList ∧
      ¬ d.Distributes "tags" [.string "hot"] := by
  intro value d
  refine ⟨by decide, by decide, ?_⟩
  -- the two filters compile to these predicates and no others
  rintro ⟨⟨p, q, hp, hq, h⟩, -⟩
  obtain rfl : Predicate.compare "config.tags" .among (.strings ["hot"]) = p := Except.ok.inj hp
  obtain rfl : Predicate.any [.compare "config.tags" .equalTo (.string "hot")] = q :=
    Except.ok.inj hq
  exact absurd h (by decide)

end Document

end ConfigLedger
