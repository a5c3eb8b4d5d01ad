import ConfigLedger.Proofs.Filter.Meaning
import ConfigLedger.Proofs.Json.Nulls

/-!
# Filters do not see nulls

A null field of a struct is as good as no field at all: that is how values are merged, and filters
hold to it as well. Leaving out the null fields of a value, at every depth and inside lists too,
changes nothing for any filter that compiles (`Filter.satisfies_withoutNulls`).

A path leads to the same place with and without nulls, and what stands there is the same but for
the nulls inside it (`Value.filter_lookup_withoutNulls`). The three ways to compare a value with a
constant look at texts, numbers and truth values and at the lists around them, and leaving out
nulls touches none of these: a list keeps its length, since a null in a list has a position.
-/

namespace ConfigLedger

namespace Value

variable {v : Value}

@[simp] theorem isNull_withoutNulls (v : Value) : v.withoutNulls.isNull = v.isNull := by
  cases v <;> rfl

theorem itemsWithoutNulls_eq_map (items : List Value) :
    itemsWithoutNulls items = items.map withoutNulls := by
  induction items with
  | nil => rfl
  | cons v rest ih => rw [itemsWithoutNulls, ih, List.map_cons]

/-! ### Paths -/

theorem unlessNull_eq (x : Option Value) :
    unlessNull x = (x.filter fun v => !v.isNull).map withoutNulls := by
  rcases x with _ | v
  · rfl
  · cases v <;> rfl

theorem filter_map_withoutNulls (x : Option Value) :
    (x.map withoutNulls).filter (fun v => !v.isNull) = unlessNull x := by
  rcases x with _ | v
  · rfl
  · cases v <;> rfl

theorem filter_descend_withoutNulls (h : v.Ordered) (segments : List String) :
    (v.withoutNulls.descend segments).filter (fun w => !w.isNull) =
      unlessNull (v.descend segments) := by
  induction segments generalizing v with
  | nil => exact filter_map_withoutNulls (some v)
  | cons segment rest ih =>
    -- one segment further down, into a field or to an item
    cases v with
    | struct fields =>
      rw [withoutNulls_struct, descend, descend, child, child, lookup_fieldsWithoutNulls h.1]
      cases hfield : fields.lookup segment with
      | none => rfl
      | some w =>
        by_cases hnull : w = null
        · -- the field is gone, and nothing was to be found behind it
          subst hnull
          cases rest <;> rfl
        · rw [unlessNull_some hnull]
          exact ih (orderedFields_iff.1 h.2 _ (mem_of_lookup hfield))
    | list items =>
      -- the item at a position is the same but for its nulls, and a null stays a null
      change (((position? segment).bind fun i => (itemsWithoutNulls items)[i]?).bind
          fun w => w.descend rest).filter _ =
        unlessNull (((position? segment).bind fun i => items[i]?).bind fun w => w.descend rest)
      cases position? segment with
      | none => rfl
      | some i =>
        simp only [Option.bind_some, itemsWithoutNulls_eq_map, List.getElem?_map]
        cases hitem : items[i]? with
        | none => rfl
        | some w => exact ih (orderedItems_iff.1 h w (List.mem_of_getElem? hitem))
    -- a scalar has nothing inside
    | _ => rfl

/-- **What stands at a path** without nulls is what stood there, without the nulls inside it. -/
theorem filter_lookup_withoutNulls (h : v.Ordered) (path : String) :
    (v.withoutNulls.lookup path).filter (fun w => !w.isNull) =
      ((v.lookup path).filter fun w => !w.isNull).map withoutNulls := by
  rw [← unlessNull_eq, lookup, lookup]
  split
  · exact filter_map_withoutNulls (some v)
  · exact filter_descend_withoutNulls h (segments path)

/-! ### Comparing with a constant -/

theorem isString_withoutNulls (s : String) (v : Value) :
    v.withoutNulls.isString s = v.isString s := by
  cases v <;> rfl

theorem isNumber_withoutNulls (x : Binary64) (v : Value) :
    v.withoutNulls.isNumber x = v.isNumber x := by
  cases v <;> rfl

theorem isBool_withoutNulls (b : Bool) (v : Value) : v.withoutNulls.isBool b = v.isBool b := by
  cases v <;> rfl

theorem equalsScalar_withoutNulls (v : Value) (c : Constant) :
    v.withoutNulls.equalsScalar c = v.equalsScalar c := by
  cases v <;> rfl

/-- Lists agree with and without nulls if their elements do. -/
theorem agree_map_withoutNulls {α : Type} {is : α → Value → Bool}
    (his : ∀ c v, is c v.withoutNulls = is c v) (items : List Value) (cs : List α) :
    agree is (items.map withoutNulls) cs = agree is items cs := by
  induction items generalizing cs with
  | nil => rfl
  | cons v rest ih =>
    cases cs with
    | nil => rfl
    | cons c cs => rw [List.map_cons, agree, agree, his, ih]

theorem equals_withoutNulls (v : Value) (c : Constant) : v.withoutNulls.equals c = v.equals c := by
  cases v with
  | list items =>
    -- a list has as many elements as before, so it is asked element by element
    have hitems : (list items).withoutNulls = list (items.map withoutNulls) :=
      congrArg list (itemsWithoutNulls_eq_map items)
    have hany : (items.map withoutNulls).any (·.equalsScalar c) =
        items.any (·.equalsScalar c) := by
      rw [List.any_map]
      exact congrArg items.any (funext fun v => equalsScalar_withoutNulls v c)
    rw [hitems]
    -- a list of constants must agree in length, and otherwise one element is enough
    cases c with
    | strings ss => exact agree_map_withoutNulls isString_withoutNulls items ss
    | numbers xs => exact agree_map_withoutNulls isNumber_withoutNulls items xs
    | bools bs => exact agree_map_withoutNulls isBool_withoutNulls items bs
    | _ => exact hany
  | _ => rfl

mutual

theorem containedIn_withoutNulls (c : Constant) (v : Value) :
    v.withoutNulls.containedIn c = v.containedIn c := by
  cases v with
  | list items => exact anyContainedIn_withoutNulls c items
  | struct fields => cases c <;> rfl
  | _ => rfl

theorem anyContainedIn_withoutNulls (c : Constant) (items : List Value) :
    anyContainedIn c (itemsWithoutNulls items) = anyContainedIn c items := by
  cases items with
  | nil => rfl
  | cons v rest =>
    rw [itemsWithoutNulls, anyContainedIn, anyContainedIn, containedIn_withoutNulls c v,
      anyContainedIn_withoutNulls c rest]

end

theorem order?_withoutNulls (v : Value) (c : Constant) : v.withoutNulls.order? c = v.order? c := by
  cases v <;> rfl

end Value

/-- **No comparison sees the nulls inside a field.** -/
theorem Comparison.holds_map_withoutNulls (c : Constant) (field : Option Value)
    (comparison : Comparison) :
    comparison.holds c (field.map Value.withoutNulls) = comparison.holds c field := by
  cases field with
  | none => rfl
  | some v =>
    cases comparison <;>
      simp only [holds, Option.map_some, Option.any_some, Option.bind_some,
        Value.equals_withoutNulls, Value.containedIn_withoutNulls, Value.order?_withoutNulls]

theorem Relation.holds_map_withoutNulls (c : Option Constant) (field : Option Value)
    (relation : Relation) :
    relation.holds c (field.map Value.withoutNulls) = relation.holds c field := by
  -- presence is not changed by what is inside a field
  cases relation with
  | present => exact Option.isSome_map
  | absent => exact Option.isNone_map
  | unspecified => rfl
  | _ =>
    -- and a comparison is not changed either, whatever its constant
    cases c with
    | none => rfl
    | some c =>
      rw [holds_of_comparison? rfl, holds_of_comparison? rfl]
      exact Comparison.holds_map_withoutNulls c field _

/-! ### Filters -/

namespace Filter

variable {v : Value}

mutual

/-- **Every filter accepts a value with nulls as it does without.** -/
theorem accepts_withoutNulls (h : v.Ordered) (f : Filter) :
    f.accepts v.withoutNulls = f.accepts v := by
  cases f with
  | relational path relation constant =>
    rw [accepts, accepts, Value.filter_lookup_withoutNulls h, Relation.holds_map_withoutNulls]
  | logical connective operands =>
    cases connective with
    | and => exact acceptsAll_withoutNulls h operands
    | or => exact acceptsAny_withoutNulls h operands
    | unspecified => rfl

theorem acceptsAll_withoutNulls (h : v.Ordered) (fs : List Filter) :
    acceptsAll v.withoutNulls fs = acceptsAll v fs := by
  cases fs with
  | nil => rfl
  | cons f rest =>
    rw [acceptsAll, acceptsAll, accepts_withoutNulls h f, acceptsAll_withoutNulls h rest]

theorem acceptsAny_withoutNulls (h : v.Ordered) (fs : List Filter) :
    acceptsAny v.withoutNulls fs = acceptsAny v fs := by
  cases fs with
  | nil => rfl
  | cons f rest =>
    rw [acceptsAny, acceptsAny, accepts_withoutNulls h f, acceptsAny_withoutNulls h rest]

end

/-- **Nulls are invisible to filters.** A document satisfies a filter that compiles exactly if it
does with the null fields of its value left out, at every depth. -/
theorem satisfies_withoutNulls {f : Filter} {p : Predicate} (hcompiles : f.compile = .ok p)
    (d : Document) (hordered : d.value.Ordered) :
    d.satisfies p = { d with value := d.value.withoutNulls }.satisfies p := by
  have hwith (e : Document) : e.satisfies p = f.accepts e.value := holds_compile hcompiles
  rw [hwith d, hwith { d with value := d.value.withoutNulls }]
  exact (accepts_withoutNulls hordered f).symm

/-- A null is missed in a struct inside a list, and the struct that it leaves empty is still set. -/
theorem satisfies_withoutNulls_nested :
    let f := Filter.logical .and [.relational "rules.0" .present .null,
      .relational "rules.0.name" .notEqualTo (.string "cpu"),
      .relational "tags" .equalTo (.string "hot"),
      .logical .or [.relational "rules.1" .present .null, .relational "owner.team" .absent .null]]
    let p := Predicate.all [.present "config.rules.0" true,
      .compare "config.rules.0.name" .notEqualTo (.string "cpu"),
      .compare "config.tags" .equalTo (.string "hot"),
      .any [.present "config.rules.1" true, .present "config.owner.team" false]]
    let full := Value.struct [("owner", .null), ("rules", .list [.struct [("name", .null)], .null]),
      ("tags", .list [.null, .struct [("key", .null)], .string "hot"])]
    let bare := Value.struct [("rules", .list [.struct [], .null]),
      ("tags", .list [.null, .struct [], .string "hot"])]
    let d : Document :=
      ⟨⟨⟨"rules", "alerting", "tenant-1"⟩, "a"⟩, 1, ⟨"ada", "ada@example.com"⟩, full, 1000, 1000⟩
    f.compile = .ok p ∧ full.Ordered ∧ full.withoutNulls = bare ∧ d.satisfies p = true ∧
      d.satisfies p = { d with value := bare }.satisfies p := by
  intro f p full bare d
  have hordered : full.Ordered := by
    refine ⟨?_, trivial, ⟨⟨?_, trivial, trivial⟩, trivial, trivial⟩,
      ⟨trivial, ⟨?_, trivial, trivial⟩, trivial, trivial⟩, trivial⟩
    all_goals exact List.pairwise_map.1 (by decide)
  exact ⟨rfl, hordered, rfl, by decide, satisfies_withoutNulls (f := f) rfl d hordered⟩

end Filter

end ConfigLedger
