import ConfigLedger.Proofs.Json.Parsing
import Mathlib.Data.List.Forall2

/-!
# Nesting of values, and reading them back

`Value.nesting` counts the containers that a value nests. A value that was read within a depth
nests no more than that, and its fields stand in rising order at every level, which is
`Value.Ordered` (`Tree.fits_of_value?`).

Conversely an ordered value is read back from its tree exactly if it fits into the depth and each
of its numbers is read back (`Tree.value?_tree_eq_some_iff`). Both can fail without any other part
of the value being at fault, so nothing weaker would do.
-/

namespace ConfigLedger

/-! ### Lists read element by element -/

section

variable {α β : Type}

theorem mapM_cons (f : α → Option β) (a : α) (l : List α) :
    (a :: l).mapM f = (f a).bind fun b => (l.mapM f).map (b :: ·) := by
  rw [List.mapM_cons]
  cases f a <;> cases l.mapM f <;> rfl

theorem mapM_cons_eq_some_iff {f : α → Option β} {a : α} {l : List α} {l' : List β} :
    (a :: l).mapM f = some l' ↔ ∃ b rest, f a = some b ∧ l.mapM f = some rest ∧ l' = b :: rest := by
  rw [mapM_cons]
  cases f a <;> cases l.mapM f <;> simp [eq_comm]

/-- All elements are left as they are exactly if each is. -/
theorem mapM_eq_some_self_iff {f : α → Option α} {l : List α} :
    l.mapM f = some l ↔ ∀ a ∈ l, f a = some a := by
  induction l with
  | nil => simp
  | cons a l ih =>
    rw [List.forall_mem_cons, ← ih, mapM_cons]
    cases f a <;> cases l.mapM f <;> simp

theorem forall₂_of_mapM {f : α → Option β} {l : List α} {l' : List β} (h : l.mapM f = some l') :
    List.Forall₂ (fun b a => f a = some b) l' l := by
  induction l generalizing l' with
  | nil =>
    obtain rfl : [] = l' := Option.some.inj h
    exact .nil
  | cons a l ih =>
    obtain ⟨b, rest, hb, hrest, rfl⟩ := mapM_cons_eq_some_iff.1 h
    exact .cons hb (ih hrest)

/-- If each element is left as it is or refused, so is the whole list. -/
theorem mapM_eq_ite {P : α → Prop} [DecidablePred P] {f : α → Option α} {l : List α}
    (hf : ∀ a ∈ l, f a = if P a then some a else none) :
    l.mapM f = if ∀ a ∈ l, P a then some l else none := by
  induction l with
  | nil => rfl
  | cons a l ih =>
    obtain ⟨ha, hl⟩ := List.forall_mem_cons.1 hf
    rw [mapM_cons, ha, ih hl]
    -- the list is left as it is only if its head and its tail are
    by_cases hP : P a <;> by_cases hall : ∀ b ∈ l, P b
    · rw [if_pos hP, if_pos hall, if_pos (List.forall_mem_cons.2 ⟨hP, hall⟩)]
      rfl
    · rw [if_pos hP, if_neg hall, if_neg fun h => hall (List.forall_mem_cons.1 h).2]
      rfl
    all_goals
      have hnot : ¬ ∀ b ∈ a :: l, P b := fun h => hP (List.forall_mem_cons.1 h).1
      rw [if_neg hP, if_neg hnot]
      rfl

/-- One element that is refused is enough to refuse the list. -/
theorem mapM_eq_none {f : α → Option β} {l : List α} {a : α} (ha : a ∈ l) (hf : f a = none) :
    l.mapM f = none := by
  induction l with
  | nil => exact absurd ha List.not_mem_nil
  | cons b l ih =>
    rw [mapM_cons]
    rcases List.mem_cons.1 ha with rfl | ha
    · rw [hf, Option.bind_none]
    · rw [ih ha]
      cases f b <;> rfl

/-- What is read comes from some element. -/
theorem exists_of_mem_mapM {f : α → Option β} {l : List α} {l' : List β} (h : l.mapM f = some l')
    {b : β} (hb : b ∈ l') : ∃ a ∈ l, f a = some b := by
  induction l generalizing l' with
  | nil =>
    obtain rfl : [] = l' := Option.some.inj h
    exact absurd hb List.not_mem_nil
  | cons a l ih =>
    obtain ⟨c, rest, hc, hrest, rfl⟩ := mapM_cons_eq_some_iff.1 h
    -- the element comes from the head or from one of those behind it
    rcases List.mem_cons.1 hb with rfl | hb
    · exact ⟨a, List.mem_cons_self, hc⟩
    · obtain ⟨a', ha', hread⟩ := ih hrest hb
      exact ⟨a', List.mem_cons_of_mem _ ha', hread⟩

end

/-! ### Fields in rising order -/

/-- The keys of the fields rise. -/
def Rising {α : Type} (fields : List (String × α)) : Prop :=
  fields.Pairwise fun a b => a.1 < b.1

section

variable {α : Type} {key : String} {value : α} {fields : List (String × α)}

theorem mem_of_mem_putField {field : String × α} (h : field ∈ putField key value fields) :
    field = (key, value) ∨ field ∈ fields := by
  induction fields with
  | nil => simpa [putField] using h
  | cons first rest ih =>
    obtain ⟨k, v⟩ := first
    rw [putField] at h
    split at h
    · exact List.mem_cons.1 h
    · split at h
      · exact (List.mem_cons.1 h).imp_right (List.mem_cons_of_mem _)
      · rcases List.mem_cons.1 h with h | h
        · exact .inr (h ▸ List.mem_cons_self)
        · exact (ih h).imp_right (List.mem_cons_of_mem _)

/-- Setting a field keeps the order. -/
theorem Rising.putField (h : Rising fields) : Rising (putField key value fields) := by
  induction fields with
  | nil => exact List.pairwise_singleton _ _
  | cons first rest ih =>
    obtain ⟨k, v⟩ := first
    obtain ⟨hfirst, hrest⟩ := List.pairwise_cons.1 h
    rw [ConfigLedger.putField]
    split
    -- the new field stands in front of all others
    · rename_i hlt
      refine List.pairwise_cons.2 ⟨fun field hfield => ?_, h⟩
      rcases List.mem_cons.1 hfield with rfl | hfield
      · exact hlt
      · exact String.lt_trans hlt (hfirst field hfield)
    · -- it does not stand in front, so it takes the place of its key or goes further behind
      rename_i hnlt
      split
      -- it takes the place of the field with its key
      · rename_i heq
        subst heq
        exact List.pairwise_cons.2 ⟨hfirst, hrest⟩
      · -- the head stays, as it stands before the new field and before the others
        rename_i hne
        have hlt : k < key := Std.lt_of_le_of_ne (String.not_lt.1 hnlt) (Ne.symm hne)
        refine List.pairwise_cons.2 ⟨fun field hfield => ?_, ih hrest⟩
        rcases mem_of_mem_putField hfield with rfl | hfield
        · exact hlt
        · exact hfirst field hfield

/-- A field whose key stands above all others is set behind them. -/
theorem putField_eq_append (h : ∀ field ∈ fields, field.1 < key) :
    putField key value fields = fields ++ [(key, value)] := by
  induction fields with
  | nil => rfl
  | cons first rest ih =>
    obtain ⟨k, v⟩ := first
    obtain ⟨hfirst, hrest⟩ := List.forall_mem_cons.1 h
    -- neither in front of the head nor in its place
    have hnlt : ¬ key < k := fun hlt => String.lt_irrefl k (String.lt_trans hfirst hlt)
    have hne : key ≠ k := by
      rintro rfl
      exact String.lt_irrefl key hfirst
    rw [putField, if_neg hnlt, if_neg hne, ih hrest, List.cons_append]

end

/-! ### What a value is made of -/

namespace Value

mutual

/-- How many containers a value nests. -/
def nesting : Value → Nat
  | list items => itemNesting items + 1
  | struct fields => fieldNesting fields + 1
  | _ => 0

/-- How many containers the elements nest at most. -/
def itemNesting : List Value → Nat
  | [] => 0
  | v :: rest => max (nesting v) (itemNesting rest)

/-- How many containers the fields nest at most. -/
def fieldNesting : List (String × Value) → Nat
  | [] => 0
  | (_, v) :: rest => max (nesting v) (fieldNesting rest)

end

mutual

/-- The numbers that occur in a value. -/
def numbers : Value → List Number
  | number n => [n]
  | list items => itemNumbers items
  | struct fields => fieldNumbers fields
  | _ => []

/-- The numbers that occur in elements. -/
def itemNumbers : List Value → List Number
  | [] => []
  | v :: rest => numbers v ++ itemNumbers rest

/-- The numbers that occur in fields. -/
def fieldNumbers : List (String × Value) → List Number
  | [] => []
  | (_, v) :: rest => numbers v ++ fieldNumbers rest

end

mutual

/-- The fields of every struct in a value stand in rising order. -/
def Ordered : Value → Prop
  | list items => OrderedItems items
  | struct fields => Rising fields ∧ OrderedFields fields
  | _ => True

/-- The elements are ordered. -/
def OrderedItems : List Value → Prop
  | [] => True
  | v :: rest => Ordered v ∧ OrderedItems rest

/-- The values of the fields are ordered. -/
def OrderedFields : List (String × Value) → Prop
  | [] => True
  | (_, v) :: rest => Ordered v ∧ OrderedFields rest

end

theorem itemNesting_le {items : List Value} {depth : Nat} :
    itemNesting items ≤ depth ↔ ∀ v ∈ items, v.nesting ≤ depth := by
  induction items with
  | nil => simp [itemNesting]
  | cons v rest ih => rw [itemNesting, Nat.max_le, ih, List.forall_mem_cons]

theorem fieldNesting_le {fields : List (String × Value)} {depth : Nat} :
    fieldNesting fields ≤ depth ↔ ∀ field ∈ fields, field.2.nesting ≤ depth := by
  induction fields with
  | nil => simp [fieldNesting]
  | cons field rest ih => rw [fieldNesting, Nat.max_le, ih, List.forall_mem_cons]

theorem forall_mem_itemNumbers {items : List Value} {P : Number → Prop} :
    (∀ n ∈ itemNumbers items, P n) ↔ ∀ v ∈ items, ∀ n ∈ v.numbers, P n := by
  induction items with
  | nil => simp [itemNumbers]
  | cons v rest ih => rw [itemNumbers, List.forall_mem_append, ih, List.forall_mem_cons]

theorem forall_mem_fieldNumbers {fields : List (String × Value)} {P : Number → Prop} :
    (∀ n ∈ fieldNumbers fields, P n) ↔ ∀ field ∈ fields, ∀ n ∈ field.2.numbers, P n := by
  induction fields with
  | nil => simp [fieldNumbers]
  | cons field rest ih => rw [fieldNumbers, List.forall_mem_append, ih, List.forall_mem_cons]

theorem orderedItems_iff {items : List Value} :
    OrderedItems items ↔ ∀ v ∈ items, v.Ordered := by
  induction items with
  | nil => simp [OrderedItems]
  | cons v rest ih => rw [OrderedItems, ih, List.forall_mem_cons]

theorem orderedFields_iff {fields : List (String × Value)} :
    OrderedFields fields ↔ ∀ field ∈ fields, field.2.Ordered := by
  induction fields with
  | nil => simp [OrderedFields]
  | cons field rest ih => rw [OrderedFields, ih, List.forall_mem_cons]

end Value

/-! ### What is read within a depth -/

/-- The value is ordered and does not nest too deeply. -/
structure Value.Fits (depth : Nat) (v : Value) : Prop where
  ordered : v.Ordered
  nesting_le : v.nesting ≤ depth

namespace Tree

mutual

/-- **What is read fits.** -/
theorem fits_of_value? (t : Tree) {depth : Nat} {v : Value} (h : t.value? depth = some v) :
    v.Fits depth := by
  -- by mutual recursion with the items and the fields
  match t with
  | .null | .bool b =>
    obtain rfl := Option.some.inj h
    exact ⟨trivial, Nat.zero_le _⟩
  | .number n | .text n =>
    obtain ⟨a, -, rfl⟩ := Option.map_eq_some_iff.1 h
    exact ⟨trivial, Nat.zero_le _⟩
  | .list items =>
    rw [value?] at h
    split at h
    · cases h
    · rename_i hdepth
      -- the items were read with one container less to go
      obtain ⟨vs, hvs, rfl⟩ := Option.map_eq_some_iff.1 h
      have hfits := fits_of_values? items hvs
      have hle := Value.itemNesting_le.2 fun v hv => (hfits v hv).nesting_le
      refine ⟨Value.orderedItems_iff.2 fun v hv => (hfits v hv).ordered, ?_⟩
      rw [Value.nesting]
      omega
  | .struct fields =>
    -- the fields are read as the items are, and putting them in place keeps them in order
    rw [value?] at h
    split at h
    · cases h
    · rename_i hdepth
      obtain ⟨fs, hfs, rfl⟩ := Option.map_eq_some_iff.1 h
      obtain ⟨hrising, hfits⟩ := fits_of_fields? fields .nil (by simp) hfs
      have hle := Value.fieldNesting_le.2 fun field hfield => (hfits field hfield).nesting_le
      have hordered := Value.orderedFields_iff.2 fun field hfield => (hfits field hfield).ordered
      refine ⟨⟨hrising, hordered⟩, ?_⟩
      rw [Value.nesting]
      omega

theorem fits_of_values? (items : List Tree) {depth : Nat} {vs : List Value}
    (h : values? depth items = some vs) : ∀ v ∈ vs, v.Fits depth := by
  match items with
  | [] =>
    obtain rfl := Option.some.inj h
    simp
  | item :: rest =>
    obtain ⟨v, hv, h⟩ := Option.bind_eq_some_iff.1 h
    obtain ⟨vs', hvs, rfl⟩ := Option.map_eq_some_iff.1 h
    exact List.forall_mem_cons.2 ⟨fits_of_value? item hv, fits_of_values? rest hvs⟩

theorem fits_of_fields? (fields : List (Option String × Tree)) {depth : Nat}
    {read fs : List (String × Value)} (hrising : Rising read)
    (hread : ∀ field ∈ read, field.2.Fits depth) (h : fields? depth read fields = some fs) :
    Rising fs ∧ ∀ field ∈ fs, field.2.Fits depth := by
  match fields with
  | [] =>
    obtain rfl := Option.some.inj h
    exact ⟨hrising, hread⟩
  | (key, item) :: rest =>
    -- a key that is no text, or a value that is too deep, ends the reading
    obtain ⟨key, -, h⟩ := Option.bind_eq_some_iff.1 h
    obtain ⟨v, hv, h⟩ := Option.bind_eq_some_iff.1 h
    have hfits := fits_of_value? item hv
    -- a field that is read takes its place among those read before
    refine fits_of_fields? rest hrising.putField (fun field hfield => ?_) h
    rcases mem_of_mem_putField hfield with rfl | hfield
    · exact hfits
    · exact hread field hfield

end

mutual

/-- **What is read within a depth** is read within any larger one, and as the same. -/
theorem value?_mono (t : Tree) {depth depth' : Nat} (hle : depth ≤ depth') {v : Value}
    (h : t.value? depth = some v) : t.value? depth' = some v := by
  match t with
  -- scalars do not look at the depth
  | .null | .bool _ | .number _ | .text _ => exact h
  | .list items =>
    rw [value?] at h ⊢
    split at h
    · cases h
    · -- a container that is read leaves one less on both sides
      obtain ⟨vs, hvs, rfl⟩ := Option.map_eq_some_iff.1 h
      rw [if_neg (by omega), values?_mono items (by omega) hvs]
      rfl
  | .struct fields =>
    rw [value?] at h ⊢
    split at h
    · cases h
    · obtain ⟨fs, hfs, rfl⟩ := Option.map_eq_some_iff.1 h
      rw [if_neg (by omega), fields?_mono fields (by omega) hfs]
      rfl

theorem values?_mono (items : List Tree) {depth depth' : Nat} (hle : depth ≤ depth')
    {vs : List Value} (h : values? depth items = some vs) : values? depth' items = some vs := by
  match items with
  | [] => exact h
  | item :: rest =>
    obtain ⟨v, hv, hrest⟩ := Option.bind_eq_some_iff.1 h
    obtain ⟨vs', hvs, rfl⟩ := Option.map_eq_some_iff.1 hrest
    rw [values?, value?_mono item hle hv, Option.bind_some, values?_mono rest hle hvs]
    rfl

theorem fields?_mono (fields : List (Option String × Tree)) {depth depth' : Nat}
    (hle : depth ≤ depth') {read fs : List (String × Value)}
    (h : fields? depth read fields = some fs) : fields? depth' read fields = some fs := by
  match fields with
  | [] => exact h
  | (key, item) :: rest =>
    obtain ⟨key, rfl, hitem⟩ := Option.bind_eq_some_iff.1 h
    obtain ⟨v, hv, hrest⟩ := Option.bind_eq_some_iff.1 hitem
    rw [fields?, Option.bind_some, value?_mono item hle hv, Option.bind_some]
    exact fields?_mono rest hle hrest

end

/-! ### Reading a value back -/

theorem values?_itemTrees (depth : Nat) (items : List Value) :
    values? depth (Value.itemTrees items) = items.mapM fun v => v.tree.value? depth := by
  induction items with
  | nil => rfl
  | cons v items ih => rw [Value.itemTrees, values?, ih, mapM_cons]

/-- A field read back. -/
def field? (depth : Nat) (field : String × Value) : Option (String × Value) :=
  (field.2.tree.value? depth).map (field.1, ·)

theorem field?_eq_some_self_iff {depth : Nat} {field : String × Value} :
    field? depth field = some field ↔ field.2.tree.value? depth = some field.2 := by
  obtain ⟨key, v⟩ := field
  simp [field?]

/-- Fields in rising order are read one behind the other. -/
theorem fields?_fieldTrees {depth : Nat} {read fields : List (String × Value)}
    (h : Rising (read ++ fields)) :
    fields? depth read (Value.fieldTrees fields) =
      (fields.mapM (field? depth)).map (read ++ ·) := by
  induction fields generalizing read with
  | nil => simp [Value.fieldTrees, fields?]
  | cons field fields ih =>
    obtain ⟨key, v⟩ := field
    rw [Value.fieldTrees, fields?, Option.bind_some, mapM_cons, field?]
    cases hv : v.tree.value? depth with
    | none => rfl
    | some v' =>
      -- what is read has the key that was written, so the order of the keys is known
      have hlast : ∀ field ∈ read, field.1 < key := fun field hfield =>
        (List.pairwise_append.1 h).2.2 field hfield (key, v) List.mem_cons_self
      have hrising : Rising (read ++ [(key, v')] ++ fields) := by
        rw [Rising, ← List.pairwise_map] at h ⊢
        simpa using h
      -- so it goes behind what was read, and the rest is read behind it
      simp only [Option.bind_some, Option.map_some]
      rw [putField_eq_append hlast, ih hrising, Option.map_map]
      congr 1
      funext fs
      exact List.append_assoc _ _ _

/-- **An ordered value is read back** exactly if it fits into the depth and each of its numbers is
read back. -/
theorem value?_tree_eq_some_iff {v : Value} (h : v.Ordered) (depth : Nat) :
    v.tree.value? depth = some v ↔
      v.nesting ≤ depth ∧ ∀ n ∈ v.numbers, n.reread? = some n := by
  match v with
  -- a scalar is read at any depth, and a number is asked for its own text
  | .null | .bool _ | .string _ => simp [Value.tree, value?, Value.nesting, Value.numbers]
  | .number n => simp [Value.tree, value?, Value.nesting, Value.numbers]
  | .list items =>
    -- the items are read with one container less to go
    have ih (w : Value) (hw : w ∈ items) :=
      value?_tree_eq_some_iff (Value.orderedItems_iff.1 h w hw) (depth - 1)
    rw [Value.tree, value?, values?_itemTrees, Value.nesting, Value.numbers,
      Value.forall_mem_itemNumbers]
    split
    · rename_i hdepth
      simp [hdepth]
    · -- one container less for the items
      have hle : Value.itemNesting items + 1 ≤ depth ↔ Value.itemNesting items ≤ depth - 1 := by
        omega
      rw [hle, Value.itemNesting_le, ← forall₂_and, ← forall₂_congr ih, ← mapM_eq_some_self_iff]
      simp
  | .struct fields =>
    -- fields that rise are read one behind the other, as items are
    have ih (field : String × Value) (hfield : field ∈ fields) :=
      value?_tree_eq_some_iff (Value.orderedFields_iff.1 h.2 field hfield) (depth - 1)
    have hread : fields? (depth - 1) [] (Value.fieldTrees fields) = _ := fields?_fieldTrees h.1
    rw [Value.tree, value?, hread, Value.nesting, Value.numbers, Value.forall_mem_fieldNumbers]
    split
    · rename_i hdepth
      simp [hdepth]
    · have hle : Value.fieldNesting fields + 1 ≤ depth ↔
          Value.fieldNesting fields ≤ depth - 1 := by
        omega
      rw [hle, Value.fieldNesting_le, ← forall₂_and, ← forall₂_congr ih]
      simp only [← field?_eq_some_self_iff, ← mapM_eq_some_self_iff]
      simp
termination_by v
decreasing_by
  · have := List.sizeOf_lt_of_mem hw
    simp only [Value.list.sizeOf_spec]
    omega
  · have := List.sizeOf_lt_of_mem hfield
    obtain ⟨key, w⟩ := field
    simp only [Value.struct.sizeOf_spec, Prod.mk.sizeOf_spec] at *
    omega

end Tree

/-- Nothing but its nesting can keep the value from being read back. -/
structure Value.Faithful (v : Value) : Prop where
  ordered : v.Ordered
  reread : ∀ n ∈ v.numbers, n.reread? = some n

theorem Value.faithful_null : Value.null.Faithful :=
  ⟨trivial, by simp [Value.numbers]⟩

/-- **A faithful value** is read back if it fits into the depth, and refused if not. -/
theorem Value.Faithful.value?_tree {v : Value} (h : v.Faithful) (depth : Nat) :
    v.tree.value? depth = if v.nesting ≤ depth then some v else none := by
  -- a faithful value is as deep as it must be and all its numbers are read back
  have hread (depth : Nat) : v.tree.value? depth = some v ↔ v.nesting ≤ depth := by
    rw [Tree.value?_tree_eq_some_iff h.ordered, and_iff_left h.reread]
  split
  · rename_i hle
    exact (hread depth).2 hle
  · rename_i hlt
    -- what is read within the depth would be read within a larger one, as the value itself
    refine Option.eq_none_iff_forall_ne_some.2 fun w hw => hlt ?_
    have hle : depth ≤ v.nesting := by omega
    have hw' := Tree.value?_mono v.tree hle hw
    rw [(hread v.nesting).2 (Nat.le_refl _)] at hw'
    rw [← Option.some.inj hw'] at hw
    exact (hread depth).1 hw

/-- The text of a faithful value denotes it, unless it nests more than a text may. -/
theorem Value.Faithful.ofText?_compact {v : Value} (h : v.Faithful) :
    ofText? v.compact = if v.nesting ≤ Tree.maxDepth then some v else none := by
  rw [ofText?, Tree.ofText?_compact, Option.bind_some, h.value?_tree]

/-! ### Values that were read from texts -/

/-- What a text denotes fits into the depth of a text. -/
theorem Value.fits_of_ofText? {text : String} {v : Value} (h : ofText? text = some v) :
    v.Fits Tree.maxDepth := by
  obtain ⟨t, -, hread⟩ := Option.bind_eq_some_iff.1 h
  exact Tree.fits_of_value? t hread

/-- The binary64 numbers in a value are read back. No other numbers need that to be said. -/
def Value.RealsReread (v : Value) : Prop :=
  ∀ x, .real x ∈ v.numbers → (Number.real x).reread? = some (.real x)

theorem Value.Ordered.faithful {v : Value} (h : v.Ordered) (hreals : v.RealsReread) :
    v.Faithful := by
  refine ⟨h, fun n hn => ?_⟩
  cases n with
  | natural n => exact Number.reread?_natural n
  | negative below => exact Number.reread?_negative below
  | real x => exact hreals x hn

theorem Value.Fits.faithful {v : Value} {depth : Nat} (h : v.Fits depth) (hreals : v.RealsReread) :
    v.Faithful :=
  h.ordered.faithful hreals

end ConfigLedger
