import ConfigLedger.Proofs.Filter.Form
import ConfigLedger.Store.Options

/-!
# Options of a query read back

Options survive being written: the text of any options denotes them again, unless it nests more
containers than a text may (`QueryOptions.ofTree?_layout`). Conversely a text may leave out almost
everything. What it leaves out reads as if the default stood there (`QueryOptions.Denoted`), and
writing the options and reading them again changes nothing more (`QueryOptions.reads_back`).

The condition on the depth is needed on both ways. The options are written with every field given,
so their text can nest more containers than the one they were read from, which left out a list of
operands at the end.
-/

namespace ConfigLedger

/-! ### Integers -/

theorem Number.integer?_ofInt64 (i : Int64) : (ofInt64 i).integer? = some i.toInt := by
  rw [ofInt64]
  split
  · -- a negative number is kept as the natural number below its absolute value
    rename_i hneg
    have hneg' : i.toInt < 0 := Int64.lt_iff_toInt_lt.1 hneg
    rw [integer?]
    congr 1
    dsimp only
    omega
  · -- any other is its own absolute value
    rename_i hnot
    have hle : (0 : Int64) ≤ i := Int64.not_lt.1 hnot
    have hle' : 0 ≤ i.toInt := Int64.le_iff_toInt_le.1 hle
    rw [integer?, Int64.toNat_toUInt64_of_le hle, Int64.toNatClampNeg, Int.toNat_of_nonneg hle']

theorem Number.reread?_ofInt64 (i : Int64) : (ofInt64 i).reread? = some (ofInt64 i) := by
  rw [ofInt64]
  split
  · exact reread?_negative _
  · exact reread?_natural _

/-- **Integers of 64 bits** are read back. -/
theorem Tree.int64?_tree (i : Int64) : (Value.number (.ofInt64 i)).tree.int64? = some i := by
  have hbounds : Int64.minValue.toInt ≤ i.toInt ∧ i.toInt ≤ Int64.maxValue.toInt :=
    ⟨i.minValue_le_toInt, Int64.le_iff_toInt_le.1 i.le_maxValue⟩
  rw [Value.tree, Number.reread?_ofInt64, int64?, integer?, number?, Option.bind_some,
    Number.integer?_ofInt64, Option.bind_some, if_pos hbounds, Option.map_some, Int64.ofInt_toInt]

/-! ### Pages -/

namespace Page

variable {page : Page} {t : Tree} {depth : Nat}

theorem nesting_layout (page : Page) : page.layout.nesting = 1 := by
  cases hlimit : page.limit <;>
    simp [layout, hlimit, Value.nesting, Value.fieldNesting]

theorem ofTree?_of_record? {inner : Nat} {limit offset : Option Tree}
    (h : t.record? depth ["limit", "offset"] = some (inner, [limit, offset])) :
    ofTree? depth t =
      (Tree.withDefault? none (Tree.orNull? Tree.int64?) limit).bind fun limit =>
        (Tree.withDefault? 0 Tree.int64? offset).map fun offset => ⟨limit, offset⟩ := by
  rw [ofTree?, h]
  simp only [Option.map_eq_bind, Function.comp_def]
  rfl

/-- **A page is read back.** -/
theorem ofTree?_layout (page : Page) (depth : Nat) :
    ofTree? depth page.layout.tree = if page.layout.nesting ≤ depth then some page else none := by
  rw [nesting_layout]
  match depth with
  -- nothing but scalars is read without depth, and a page is a struct
  | 0 => rfl
  | depth + 1 =>
    have hrecord := @Tree.record?_tree_zip ["limit", "offset"] (by decide)
      [(page.limit.map fun n => .number (.ofInt64 n)).getD .null, .number (.ofInt64 page.offset)]
      rfl depth
    -- no limit is written as null, which is read as none
    have hlimit : Tree.orNull? Tree.int64?
        ((page.limit.map fun n => Value.number (.ofInt64 n)).getD .null).tree =
          some page.limit := by
      cases page.limit with
      | none => rfl
      | some n =>
        change (Value.number (.ofInt64 n)).tree.int64?.map some = _
        rw [Tree.int64?_tree]
        rfl
    refine (ofTree?_of_record? hrecord).trans ?_
    simp only [Tree.withDefault?, hlimit, Tree.int64?_tree]
    rw [if_pos (by omega)]
    rfl

/-- The tree denotes the page, with no limit and an offset of zero where they are omitted. -/
def Denoted (page : Page) (t : Tree) : Prop :=
  ∃ limit offset, t.slots? ["limit", "offset"] = some [limit, offset] ∧
    Tree.OrNull (fun n t => t.int64? = some n) page.limit (limit.getD .null) ∧
    (offset.getD (.number (some (.natural 0)))).int64? = some page.offset

/-- **A page that is read** is denoted by its tree. -/
-- the reader went through a record with two slots
theorem denoted_of_ofTree? (h : ofTree? depth t = some page) : page.Denoted t := by
  have hread := h
  rw [ofTree?] at hread
  obtain ⟨⟨inner, slots⟩, hrecord, -⟩ := Option.bind_eq_some_iff.1 hread
  obtain ⟨-, hslots, hlength⟩ := Tree.of_record? hrecord
  obtain ⟨limit, offset, rfl⟩ := List.length_eq_two.1 hlength
  -- both fields were read, each from its slot
  rw [ofTree?_of_record? hrecord] at h
  obtain ⟨limit, hlimit, h⟩ := Option.bind_eq_some_iff.1 h
  obtain ⟨offset, hoffset, rfl⟩ := Option.map_eq_some_iff.1 h
  have hzero : Tree.int64? (.number (some (.natural 0))) = some 0 := by decide
  rw [Tree.withDefault?_eq hzero] at hoffset
  exact ⟨_, _, hslots, Tree.orNull_of_withDefault? id hlimit, hoffset⟩

end Page

/-! ### Fields to sort by -/

theorem Direction.ofName?_name (d : Direction) : ofName? d.name = some d := by
  cases d <;> rfl

theorem Direction.name_of_ofName? {name : String} {d : Direction} (h : ofName? name = some d) :
    d.name = name := by
  unfold ofName? at h
  split at h <;> simp_all <;> subst h <;> rfl

namespace SortField

/-- **A field to sort by is read back** if its text nests no more than the depth. -/
theorem ofTree?_layout (field : SortField) (depth : Nat) :
    ofTree? depth field.layout.tree =
      if field.layout.nesting ≤ depth then some field else none := by
  cases field with
  | path p =>
    have hnesting : (path p).layout.nesting = 1 := rfl
    rw [hnesting]
    cases depth with
    | zero => rfl
    | succ depth =>
      rw [if_pos (by omega)]
      rfl
  -- every other field is its name, a scalar
  | _ => exact (if_pos (Nat.zero_le _)).symm

end SortField

namespace SortBy

variable {s : SortBy} {t : Tree} {depth : Nat}

theorem nesting_layout (s : SortBy) : s.layout.nesting = s.field.layout.nesting + 1 := by
  simp [layout, Value.nesting, Value.fieldNesting]

theorem ofTree?_of_record? {inner : Nat} {field order : Option Tree}
    (h : t.record? depth ["field", "order"] = some (inner, [field, order])) :
    ofTree? depth t =
      (Tree.required? (SortField.ofTree? inner) field).bind fun field =>
        (Tree.withDefault? .descending (fun t => (t.name? inner).bind Direction.ofName?) order).map
          fun direction => ⟨field, direction⟩ := by
  rw [ofTree?, h]
  simp only [Option.map_eq_bind, Function.comp_def]
  rfl

/-- **An entry to sort by is read back** if its text nests no more than the depth. -/
theorem ofTree?_layout (s : SortBy) (depth : Nat) :
    ofTree? depth s.layout.tree = if s.layout.nesting ≤ depth then some s else none := by
  simp only [nesting_layout]
  match depth with
  | 0 => rfl
  | depth + 1 =>
    have hrecord := @Tree.record?_tree_zip ["field", "order"] (by decide)
      [s.field.layout, .string s.direction.name] rfl depth
    -- the name of a direction is a scalar, and read at any depth
    have horder : (Value.string s.direction.name).tree.name? depth = some s.direction.name := rfl
    refine (ofTree?_of_record? hrecord).trans ?_
    simp only [Tree.required?, Option.bind_some, s.field.ofTree?_layout depth, Tree.withDefault?,
      horder, Direction.ofName?_name, Nat.add_le_add_iff_right]
    split <;> rfl

/-- The tree denotes the entry, which falls where its order is omitted. -/
def Denoted (s : SortBy) (t : Tree) : Prop :=
  ∃ field order, t.slots? ["field", "order"] = some [some field, order] ∧
    (∃ depth, SortField.ofTree? depth field = some s.field) ∧
    (order.getD (.text (some "descending"))).Names s.direction.name

/-- **An entry that is read** is denoted by its tree. -/
theorem denoted_of_ofTree? (h : ofTree? depth t = some s) : s.Denoted t := by
  -- the reader went through a record with two slots
  have hread := h
  rw [ofTree?] at hread
  obtain ⟨⟨inner, slots⟩, hrecord, -⟩ := Option.bind_eq_some_iff.1 hread
  obtain ⟨-, hslots, hlength⟩ := Tree.of_record? hrecord
  obtain ⟨field, order, rfl⟩ := List.length_eq_two.1 hlength
  rw [ofTree?_of_record? hrecord] at h
  obtain ⟨field, hfield, h⟩ := Option.bind_eq_some_iff.1 h
  obtain ⟨direction, hdirection, rfl⟩ := Option.map_eq_some_iff.1 h
  -- the field itself cannot be omitted
  obtain ⟨given, rfl, hgiven⟩ := Option.bind_eq_some_iff.1 hfield
  have hdefault : Direction.ofName? "descending" = some .descending := rfl
  obtain ⟨name, hname, hnames⟩ := Tree.names_of_withDefault? hdefault hdirection
  obtain rfl := Direction.name_of_ofName? hname
  exact ⟨given, order, hslots, ⟨_, hgiven⟩, hnames⟩

end SortBy

/-! ### Options -/

namespace QueryOptions

variable {o : QueryOptions} {t : Tree} {depth : Nat}

/-- The constants that the filter compares with, if there is one. -/
def constants (o : QueryOptions) : List Value :=
  (o.filter.map Filter.constants).getD []

theorem nesting_layout_le : o.layout.nesting ≤ depth + 1 ↔
    (∀ f ∈ o.filter, f.layout.nesting ≤ depth) ∧ (∀ page ∈ o.page, page.layout.nesting ≤ depth) ∧
      (Value.list (o.sortBy.map SortBy.layout)).nesting ≤ depth := by
  cases hfilter : o.filter <;> cases hpage : o.page <;>
    simp only [layout, hfilter, hpage, Value.nesting, Value.fieldNesting, Option.map_none,
      Option.map_some, Option.getD_none, Option.getD_some, Option.mem_def, Option.some.injEq,
      forall_eq', reduceCtorEq, false_implies, implies_true, Nat.add_le_add_iff_right,
      Nat.max_le, Nat.zero_le, true_and, and_true]

theorem ofTree?_of_record? {inner : Nat} {filter page sortBy : Option Tree}
    (h : t.record? depth ["filter", "pagination", "sort_by"] =
      some (inner, [filter, page, sortBy])) :
    ofTree? depth t =
      (Tree.withDefault? none (Tree.orNull? (Filter.ofTree? inner)) filter).bind fun filter =>
        (Tree.withDefault? none (Tree.orNull? (Page.ofTree? inner)) page).bind fun page =>
          (Tree.withDefault? [] (Tree.elements? inner SortBy.ofTree?) sortBy).map fun sortBy =>
            ⟨filter, page, sortBy⟩ := by
  rw [ofTree?, h]
  simp only [Option.map_eq_bind, Function.comp_def]
  rfl

/-- **Options are read back** if their text nests no more than the depth, and refused if not. -/
theorem ofTree?_layout (h : ∀ v ∈ o.constants, v.Faithful) (depth : Nat) :
    ofTree? depth o.layout.tree = if o.layout.nesting ≤ depth then some o else none := by
  match depth with
  -- options are a struct, which is not read without depth
  | 0 => rfl
  | depth + 1 =>
    have hrecord := @Tree.record?_tree_zip ["filter", "pagination", "sort_by"] (by decide)
      [(o.filter.map Filter.layout).getD .null, (o.page.map Page.layout).getD .null,
        .list (o.sortBy.map SortBy.layout)] rfl depth
    -- each of the three is read with what is left inside the struct
    have hfilter : Tree.orNull? (Filter.ofTree? depth)
        ((o.filter.map Filter.layout).getD .null).tree = _ :=
      Tree.orNull?_tree (fun f => by cases f <;> rfl) fun f hf =>
        Filter.ofTree?_layout (by simpa [constants, Option.mem_def.1 hf] using h) depth
    have hpage : Tree.orNull? (Page.ofTree? depth)
        ((o.page.map Page.layout).getD .null).tree = _ :=
      Tree.orNull?_tree (fun _ => rfl) fun page _ => page.ofTree?_layout depth
    have hsortBy : Tree.elements? depth SortBy.ofTree?
        (Value.list (o.sortBy.map SortBy.layout)).tree = _ :=
      Tree.elements?_tree fun s _ => s.ofTree?_layout (depth - 1)
    -- so all are read exactly if each of them fits into what is left
    refine (ofTree?_of_record? hrecord).trans ?_
    simp only [Tree.withDefault?, hfilter, hpage, hsortBy, nesting_layout_le]
    split_ifs <;> simp_all

/-- The tree denotes the options, with every field that is omitted at its default: no filter, no
page and nothing to sort by. -/
def Denoted (o : QueryOptions) (t : Tree) : Prop :=
  ∃ filter page sortBy items, t.slots? ["filter", "pagination", "sort_by"] =
      some [filter, page, sortBy] ∧
    Tree.OrNull Filter.Denoted o.filter (filter.getD .null) ∧
    Tree.OrNull Page.Denoted o.page (page.getD .null) ∧
    sortBy.getD (.list []) = .list items ∧ List.Forall₂ SortBy.Denoted o.sortBy items

/-- **Options that are read** are denoted by their tree. -/
theorem denoted_of_ofTree? (h : ofTree? depth t = some o) : o.Denoted t := by
  -- the reader went through a record with three slots
  have hread := h
  rw [ofTree?] at hread
  obtain ⟨⟨inner, slots⟩, hrecord, -⟩ := Option.bind_eq_some_iff.1 hread
  obtain ⟨-, hslots, hlength⟩ := Tree.of_record? hrecord
  obtain ⟨filter, page, sortBy, rfl⟩ := List.length_eq_three.1 hlength
  -- each was read from its slot, by a reader of its own
  rw [ofTree?_of_record? hrecord] at h
  obtain ⟨filter, hfilter, h⟩ := Option.bind_eq_some_iff.1 h
  obtain ⟨page, hpage, h⟩ := Option.bind_eq_some_iff.1 h
  obtain ⟨sortBy, hsortBy, rfl⟩ := Option.map_eq_some_iff.1 h
  obtain ⟨items, hitems, hall⟩ := Tree.items_of_withDefault? hsortBy
  exact ⟨_, _, _, items, hslots, Tree.orNull_of_withDefault? Filter.denoted_of_ofTree? hfilter,
    Tree.orNull_of_withDefault? Page.denoted_of_ofTree? hpage, hitems,
    hall.imp fun _ _ => SortBy.denoted_of_ofTree?⟩

theorem Denoted.ordered (h : o.Denoted t) : ∀ v ∈ o.constants, v.Ordered := by
  obtain ⟨filter, _, _, _, -, hfilter, -⟩ := h
  cases hf : o.filter with
  | none => simp [constants, hf]
  | some f =>
    rw [hf] at hfilter
    simpa [constants, hf] using Filter.Denoted.ordered f hfilter

/-- The text of options denotes them, unless it nests more containers than a text may. -/
theorem ofText?_text (h : ∀ v ∈ o.constants, v.Faithful) :
    ofText? o.text = if o.layout.nesting ≤ Tree.maxDepth then some o else none := by
  rw [ofText?, text, Tree.ofText?_compact, Option.bind_some, ofTree?_layout h]

/-- **Options survive being written and read.** The text of any options denotes them again. And for
every text that denotes options, what the text omits has its default, and the text of the options
denotes them as well. -/
theorem reads_back :
    (∀ o : QueryOptions, (∀ v ∈ o.constants, v.Ordered ∧ v.RealsReread) →
      o.layout.nesting ≤ Tree.maxDepth → ofText? o.text = some o) ∧
    ∀ text o, ofText? text = some o → (∀ v ∈ o.constants, v.RealsReread) →
      o.layout.nesting ≤ Tree.maxDepth →
        (∃ t, Tree.ofText? text = some t ∧ o.Denoted t) ∧ ofText? o.text = some o := by
  constructor
  · -- printed options are options like any others
    intro o hconstants hnesting
    have hfaithful : ∀ v ∈ o.constants, v.Faithful := fun v hv =>
      (hconstants v hv).1.faithful (hconstants v hv).2
    rw [ofText?_text hfaithful, if_pos hnesting]
  · intro text o hread hreals hnesting
    obtain ⟨t, htree, ho⟩ := Option.bind_eq_some_iff.1 hread
    have hdenoted := denoted_of_ofTree? ho
    have hfaithful : ∀ v ∈ o.constants, v.Faithful := fun v hv =>
      (hdenoted.ordered v hv).faithful (hreals v hv)
    -- what was read is ordered, so it is written and read like any options
    refine ⟨⟨t, htree, hdenoted⟩, ?_⟩
    rw [ofText?_text hfaithful, if_pos hnesting]

theorem reads_back_omitted :
    -- a relation without an operator and a constant, a page without bounds, an entry without order
    let given : Value := .struct [
      ("filter", .struct [("relational", .struct [("path", .string "k")])]),
      ("pagination", .struct []),
      ("sort_by", .list [.struct [("field", .string "context")]])]
    let o : QueryOptions :=
      ⟨some (.relational "k" .unspecified .null), some ⟨none, 0⟩, [⟨.context, .descending⟩]⟩
    ofText? given.compact = some o ∧ o.Denoted given.tree ∧ ofText? o.text = some o := by
  intro given o
  -- what is omitted is read as its default
  have hread : ofText? given.compact = some o := by
    rw [ofText?, Tree.ofText?_compact, Option.bind_some]
    rfl
  have hreals : ∀ v ∈ o.constants, v.RealsReread :=
    List.forall_mem_singleton.2 fun _ hx => absurd hx List.not_mem_nil
  -- the other half of the theorem is applied, since the text has not been printed from options
  obtain ⟨⟨t, htree, hdenoted⟩, hagain⟩ := reads_back.2 given.compact o hread hreals (by decide)
  rw [Tree.ofText?_compact] at htree
  obtain rfl := Option.some.inj htree
  exact ⟨hread, hdenoted, hagain⟩

end QueryOptions

end ConfigLedger
