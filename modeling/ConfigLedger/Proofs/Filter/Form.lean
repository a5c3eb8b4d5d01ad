import ConfigLedger.Filter.Expression
import ConfigLedger.Proofs.Json.Records

/-!
# Filters read back

A filter that was written is read back as itself, whatever its shape, if its constants can be and
the text does not nest too deeply (`Filter.ofTree?_layout`).

What a text may leave out is said by `Filter.Denoted`: a tree denotes a filter if it does so with
the defaults written where a field is omitted. Every filter that is read is denoted by its tree
(`Filter.denoted_of_ofTree?`).
-/

namespace ConfigLedger

/-! ### Names -/

theorem Connective.ofName?_name (c : Connective) : ofName? c.name = some c := by
  cases c <;> rfl

theorem Connective.name_of_ofName? {name : String} {c : Connective} (h : ofName? name = some c) :
    c.name = name := by
  unfold ofName? at h
  split at h <;> simp_all <;> subst h <;> rfl

theorem Relation.ofName?_name (r : Relation) : ofName? r.name = some r := by
  cases r <;> rfl

theorem Relation.name_of_ofName? {name : String} {r : Relation} (h : ofName? name = some r) :
    r.name = name := by
  unfold ofName? at h
  split at h <;> simp_all <;> subst h <;> rfl

namespace Filter

variable {f : Filter} {fs : List Filter} {t : Tree} {depth : Nat}

/-! ### What filters are made of -/

mutual

/-- The constants that the relations of a filter compare with. -/
def constants : Filter → List Value
  | logical _ operands => constantsAll operands
  | relational _ _ constant => [constant]

/-- The constants of the operands. -/
def constantsAll : List Filter → List Value
  | [] => []
  | f :: rest => f.constants ++ constantsAll rest

end

theorem forall_mem_constantsAll {P : Value → Prop} :
    (∀ v ∈ constantsAll fs, P v) ↔ ∀ f ∈ fs, ∀ v ∈ f.constants, P v := by
  induction fs with
  | nil => simp [constantsAll]
  | cons f fs ih => rw [constantsAll, List.forall_mem_append, ih, List.forall_mem_cons]

theorem layouts_eq_map (fs : List Filter) : layouts fs = fs.map layout := by
  induction fs with
  | nil => rfl
  | cons f fs ih => rw [layouts, ih, List.map_cons]

theorem nesting_layout_logical (connective : Connective) (operands : List Filter) :
    (logical connective operands).layout.nesting =
      (Value.list (operands.map layout)).nesting + 2 := by
  simp [layout, layouts_eq_map, Value.nesting, Value.fieldNesting]

theorem nesting_layout_relational (path : String) (relation : Relation) (constant : Value) :
    (relational path relation constant).layout.nesting = constant.nesting + 2 := by
  simp [layout, Value.nesting, Value.fieldNesting]

/-! ### Reading one alternative -/

section

variable {payload : Tree}

theorem ofTree?_logical {operator operands : Option Tree}
    (h : payload.slots? ["operator", "operands"] = some [operator, operands]) :
    ofTree? (depth + 2) (.struct [(some "logical", payload)]) =
      (connective? depth operator).bind fun connective =>
        (Tree.withDefault? [] (Tree.elements? depth ofTree?) operands).map
          (logical connective) := by
  have htagged : Tree.tagged? (depth + 2) (.struct [(some "logical", payload)]) =
      some ("logical", some (depth + 1, payload)) := rfl
  rw [ofTree?, htagged]
  simp only [h]
  -- the parts are read in turn, and each of them may fail
  cases connective? depth operator with
  | none => rfl
  | some connective =>
    rcases operands with _ | operands
    · -- operands that are given must be a list, and that list is one container deeper
      rfl
    cases operands with
    | list items =>
      cases depth with
      | zero => rfl
      | succ depth =>
        change (items.mapM (ofTree? depth) >>= fun fs => some (logical connective fs)) =
          (items.mapM (ofTree? depth)).map (logical connective)
        cases items.mapM (ofTree? depth) <;> rfl
    | _ => rfl

theorem ofTree?_relational {path operator constant : Option Tree}
    (h : payload.slots? ["path", "operator", "value"] = some [path, operator, constant]) :
    ofTree? (depth + 2) (.struct [(some "relational", payload)]) =
      (Tree.required? Tree.string? path).bind fun path =>
        (relation? depth operator).bind fun relation =>
          (Tree.withDefault? .null (Tree.value? depth) constant).map
            (relational path relation) := by
  have htagged : Tree.tagged? (depth + 2) (.struct [(some "relational", payload)]) =
      some ("relational", some (depth + 1, payload)) := rfl
  rw [ofTree?, htagged]
  simp only [h]
  -- again the parts one after the other
  cases Tree.required? Tree.string? path with
  | none => rfl
  | some path =>
    cases relation? depth operator with
    | none => rfl
    | some relation =>
      cases Tree.withDefault? .null (Tree.value? depth) constant <;> rfl

end

/-! ### What was written -/

theorem connective?_name (c : Connective) :
    connective? depth (some (Value.string c.name).tree) = some c := by
  change Connective.ofName? c.name = _
  exact c.ofName?_name

theorem relation?_name (r : Relation) :
    relation? depth (some (Value.string r.name).tree) = some r := by
  change Relation.ofName? r.name = _
  exact r.ofName?_name

/-- **A filter is read back** if its text nests no more than the depth, and refused if not. -/
theorem ofTree?_layout (h : ∀ v ∈ f.constants, v.Faithful) (depth : Nat) :
    ofTree? depth f.layout.tree = if f.layout.nesting ≤ depth then some f else none := by
  -- the reader goes down by depth, and every alternative is two containers deep
  induction depth using Nat.strongRecOn generalizing f with | ind depth ih
  match depth with
  | 0 | 1 =>
    -- even the smallest filter nests two deep
    have hdeep : 1 < f.layout.nesting := by
      cases f with
      | logical => rw [nesting_layout_logical]; omega
      | relational => rw [nesting_layout_relational]; omega
    rw [if_neg (by omega)]
    rfl
  | depth + 2 =>
    cases f with
    | relational path relation constant =>
      have hslots := @Tree.slots?_tree_zip ["path", "operator", "value"] (by decide)
        [.string path, .string relation.name, constant] rfl
      -- the constant stands at the depth of the payload's fields
      have hconstant := (h constant List.mem_cons_self).value?_tree depth
      simp only [nesting_layout_relational, Nat.add_le_add_iff_right]
      refine (ofTree?_relational hslots).trans ?_
      change ((relation? depth (some (Value.string relation.name).tree)).bind fun relation =>
        (Tree.value? depth constant.tree).map (relational path relation)) = _
      rw [relation?_name, hconstant]
      split <;> rfl
    | logical connective operands =>
      have hslots := @Tree.slots?_tree_zip ["operator", "operands"] (by decide)
        [.string connective.name, .list (layouts operands)] rfl
      -- the operands lie in a list inside the two containers
      have hoperands : Tree.elements? depth ofTree? (Value.list (operands.map layout)).tree = _ :=
        Tree.elements?_tree fun f hf =>
          ih (depth - 1) (by omega) (forall_mem_constantsAll.1 h f hf)
      simp only [nesting_layout_logical, Nat.add_le_add_iff_right]
      -- the list is read by the induction hypothesis, as it is smaller
      refine (ofTree?_logical hslots).trans ?_
      rw [connective?_name, layouts_eq_map]
      change (Tree.elements? depth ofTree? (Value.list (operands.map layout)).tree).map
        (logical connective) = _
      rw [hoperands]
      split <;> rfl

/-! ### What was omitted -/

mutual

/-- The tree denotes the filter, with every field that is omitted at its default: the operator
unspecified, no operands, and null for a constant. A path cannot be omitted. -/
def Denoted : Filter → Tree → Prop
  | logical connective operands, t => ∃ payload operator given items,
    t = .struct [(some "logical", payload)] ∧
      payload.slots? ["operator", "operands"] = some [operator, given] ∧
      (operator.getD (.text (some "unspecified"))).Names connective.name ∧
      given.getD (.list []) = .list items ∧ DenotedAll operands items
  | relational path relation constant, t => ∃ payload operator given,
    t = .struct [(some "relational", payload)] ∧
      payload.slots? ["path", "operator", "value"] =
        some [some (.text (some path)), operator, given] ∧
      (operator.getD (.text (some "unspecified"))).Names relation.name ∧
      ∃ depth, (given.getD .null).value? depth = some constant

/-- The trees denote the operands, one by one. -/
def DenotedAll : List Filter → List Tree → Prop
  | [], items => items = []
  | f :: rest, items => ∃ item behind, items = item :: behind ∧ f.Denoted item ∧
    DenotedAll rest behind

end

theorem denotedAll_of_forall₂ {items : List Tree} (h : List.Forall₂ Denoted fs items) :
    DenotedAll fs items := by
  induction h with
  | nil => rfl
  | cons hf _ ih => exact ⟨_, _, rfl, hf, ih⟩

theorem names_of_connective? {operator : Option Tree} {c : Connective}
    (h : connective? depth operator = some c) :
    (operator.getD (.text (some "unspecified"))).Names c.name := by
  have hdefault : Connective.ofName? "unspecified" = some .unspecified := rfl
  obtain ⟨given, hgiven, hnames⟩ := Tree.names_of_withDefault? hdefault h
  rwa [Connective.name_of_ofName? hgiven]

theorem names_of_relation? {operator : Option Tree} {r : Relation}
    (h : relation? depth operator = some r) :
    (operator.getD (.text (some "unspecified"))).Names r.name := by
  have hdefault : Relation.ofName? "unspecified" = some .unspecified := rfl
  obtain ⟨given, hgiven, hnames⟩ := Tree.names_of_withDefault? hdefault h
  rwa [Relation.name_of_ofName? hgiven]

/-- **A filter that is read** is denoted by its tree. -/
theorem denoted_of_ofTree? (h : ofTree? depth t = some f) : f.Denoted t := by
  induction depth using Nat.strongRecOn generalizing t f with | ind depth ih
  match depth with
  | 0 | 1 => cases h
  | depth + 2 =>
    -- the reader is opened twice, first for which alternative was chosen
    have hread := h
    rw [ofTree?] at hread
    split at hread
    · -- a connective: its operands are read at a smaller depth
      rename_i inner payload htagged
      obtain rfl := Tree.eq_struct_of_tagged? htagged
      split at hread
      · rename_i operator given hslots
        rw [ofTree?_logical hslots] at h
        obtain ⟨connective, hconnective, h⟩ := Option.bind_eq_some_iff.1 h
        obtain ⟨operands, hoperands, rfl⟩ := Option.map_eq_some_iff.1 h
        obtain ⟨items, hitems, hall⟩ := Tree.items_of_withDefault? hoperands
        have hdenoted := hall.imp fun f item hf => ih (depth - 1) (by omega) hf
        exact ⟨payload, operator, given, items, rfl, hslots, names_of_connective? hconnective,
          hitems, denotedAll_of_forall₂ hdenoted⟩
      · cases hread
    · -- a relation: a constant that is missing is a null
      rename_i inner payload htagged
      obtain rfl := Tree.eq_struct_of_tagged? htagged
      split at hread
      · rename_i path operator given hslots
        rw [ofTree?_relational hslots] at h
        obtain ⟨path, hpath, h⟩ := Option.bind_eq_some_iff.1 h
        obtain ⟨relation, hrelation, h⟩ := Option.bind_eq_some_iff.1 h
        obtain ⟨constant, hconstant, rfl⟩ := Option.map_eq_some_iff.1 h
        obtain rfl := Tree.eq_text_of_required? hpath
        have hnull : Tree.value? depth .null = some .null := by rw [Tree.value?]
        rw [Tree.withDefault?_eq hnull] at hconstant
        exact ⟨payload, operator, given, rfl, hslots, names_of_relation? hrelation, depth,
          hconstant⟩
      · cases hread
    · -- no other alternative has a name
      cases hread

mutual

/-- The constants of a filter that a tree denotes are ordered. -/
theorem Denoted.ordered (f : Filter) {t : Tree} (h : f.Denoted t) :
    ∀ v ∈ f.constants, v.Ordered := by
  match f with
  | logical _ operands =>
    obtain ⟨_, _, _, items, -, -, -, -, hall⟩ := h
    exact DenotedAll.ordered operands hall
  | relational _ _ constant =>
    obtain ⟨_, _, _, -, -, -, depth, hconstant⟩ := h
    exact List.forall_mem_singleton.2 (Tree.fits_of_value? _ hconstant).ordered

theorem DenotedAll.ordered (fs : List Filter) {items : List Tree} (h : DenotedAll fs items) :
    ∀ v ∈ constantsAll fs, v.Ordered := by
  match fs with
  | [] => exact fun _ hv => absurd hv List.not_mem_nil
  | f :: rest =>
    obtain ⟨item, behind, -, hf, hrest⟩ := h
    exact List.forall_mem_append.2 ⟨Denoted.ordered f hf, DenotedAll.ordered rest hrest⟩

end

end Filter

end ConfigLedger
