import ConfigLedger.Proofs.Json.Nesting
import Mathlib.Data.List.Nodup

/-!
# Reading records

What is read of a record depends on its slots alone. A struct that names every known field once
fills all of them in declared order (`Tree.slots?_tree_zip`), so what was written is read field by
field: lists element by element (`Tree.elements?_tree`), and null for nothing (`Tree.orNull?_tree`).

A slot may also be empty. Then the field reads as if the text of its default stood there
(`Tree.withDefault?_eq` and its siblings for names, lists and null).
-/

namespace ConfigLedger

namespace Tree

/-! ### Slots -/

/-- Names that are given once each lead to what is given with them. -/
theorem map_lookup_fieldTrees_zip {known : List String} (hknown : known.Nodup)
    {values : List Value} (hlength : values.length = known.length) :
    known.map (fun name => (Value.fieldTrees (known.zip values)).lookup (some name)) =
      values.map fun v => some v.tree := by
  induction known generalizing values with
  | nil =>
    obtain rfl := List.eq_nil_of_length_eq_zero hlength
    rfl
  | cons name known ih =>
    obtain ⟨v, values, rfl⟩ := List.exists_cons_of_length_eq_add_one hlength
    obtain ⟨hname, hknown⟩ := List.nodup_cons.1 hknown
    rw [List.zip_cons_cons, Value.fieldTrees, List.map_cons, List.map_cons, List.lookup_cons_self,
      ← ih hknown (Nat.succ.inj hlength)]
    congr 1
    -- the names behind the first one differ from it
    refine List.map_congr_left fun other hother => ?_
    have hne : other ≠ name := fun heq => hname (heq ▸ hother)
    rw [List.lookup_cons, beq_false_of_ne (by simpa using hne)]

/-- **A struct that gives every known field once** fills all slots. -/
theorem slots?_tree_zip {known : List String} (hknown : known.Nodup) {values : List Value}
    (hlength : values.length = known.length) :
    slots? known (Value.struct (known.zip values)).tree =
      some (values.map fun v => some v.tree) := by
  -- the fields have the known names as their keys, in this order
  have hkeys : (Value.fieldTrees (known.zip values)).map (·.1) = known.map some := by
    rw [Value.fieldTrees_eq_map, List.map_map]
    change (known.zip values).map (some ∘ Prod.fst) = _
    rw [← List.map_map, List.map_fst_zip (by omega)]
  -- so every key is a text, and none is given twice
  have hgiven :
      (Value.fieldTrees (known.zip values)).any (fun field => field.1.isNone) = false := by
    simp [Value.fieldTrees_eq_map]
  have honce : known.any (fun name => decide (1 < ((Value.fieldTrees (known.zip values)).filter
      fun field => field.1 == some name).length)) = false := by
    simp only [List.any_eq_false, decide_eq_true_eq, Nat.not_lt]
    intro name _
    have hcount := List.nodup_iff_count_le_one.1
      (hknown.map fun _ _ => Option.some.inj) (some name)
    rw [← hkeys, List.count, List.countP_map, List.countP_eq_length_filter] at hcount
    exact hcount
  rw [Value.tree, slots?, hgiven, honce, map_lookup_fieldTrees_zip hknown hlength]
  rfl

theorem record?_tree_zip {known : List String} (hknown : known.Nodup) {values : List Value}
    (hlength : values.length = known.length) (depth : Nat) :
    (Value.struct (known.zip values)).tree.record? (depth + 1) known =
      some (depth, values.map fun v => some v.tree) := by
  rw [record?, slots?_tree_zip hknown hlength]
  rfl

theorem length_of_slots? {known : List String} {t : Tree} {slots : List (Option Tree)}
    (h : t.slots? known = some slots) : slots.length = known.length := by
  -- a record may be given as a list of its values or as a struct
  unfold slots? at h
  split at h
  · split at h
    · obtain rfl := Option.some.inj h
      rw [List.length_append, List.length_map, List.length_replicate]
      omega
    · cases h
  · -- a field for each name that is known
    split at h
    · cases h
    · obtain rfl := Option.some.inj h
      exact List.length_map _
  · cases h

/-- **A record that can be read** has a slot for each known field, and its fields are read with one
container less to go. -/
theorem of_record? {known : List String} {t : Tree} {depth inner : Nat} {slots : List (Option Tree)}
    (h : t.record? depth known = some (inner, slots)) :
    depth = inner + 1 ∧ t.slots? known = some slots ∧ slots.length = known.length := by
  rw [record?] at h
  split at h
  · cases h
  · obtain ⟨slots', hslots, heq⟩ := Option.map_eq_some_iff.1 h
    obtain ⟨rfl, rfl⟩ := Prod.mk.inj heq
    exact ⟨by omega, hslots, length_of_slots? hslots⟩

/-! ### What was written -/

section

variable {α : Type} {layout : α → Value} {depth : Nat}

/-- **Elements are read back** if the list nests no more than the depth, and refused if not. -/
theorem elements?_tree {read : Nat → Tree → Option α} {elements : List α}
    (hread : ∀ a ∈ elements, read (depth - 1) (layout a).tree =
      if (layout a).nesting ≤ depth - 1 then some a else none) :
    elements? depth read (Value.list (elements.map layout)).tree =
      if (Value.list (elements.map layout)).nesting ≤ depth then some elements else none := by
  rw [Value.tree, elements?]
  -- a list is a container, so it takes one level itself
  by_cases hdepth : depth = 0
  · rw [if_pos hdepth, Value.nesting, if_neg (by omega)]
  · -- what the elements may nest is one less than what the list may
    have hle : (Value.list (elements.map layout)).nesting ≤ depth ↔
        ∀ a ∈ elements, (layout a).nesting ≤ depth - 1 := by
      have hitems := @Value.itemNesting_le (elements.map layout) (depth - 1)
      rw [List.forall_mem_map] at hitems
      rw [Value.nesting, ← hitems]
      omega
    -- the elements are read one by one
    rw [if_neg hdepth, Value.itemTrees_eq_map, List.map_map, List.mapM_map]
    simp only [hle]
    exact mapM_eq_ite hread

/-- **What may be null is read back** if it can be where it is not null. -/
theorem orNull?_tree {read : Tree → Option α} {P : α → Prop} [DecidablePred P]
    (hnull : ∀ a, (layout a).isNull = false) {value : Option α}
    (hread : ∀ a ∈ value, read (layout a).tree = if P a then some a else none) :
    orNull? read ((value.map layout).getD .null).tree =
      if ∀ a ∈ value, P a then some value else none := by
  cases value with
  | none => rfl
  | some a =>
    -- what a reader writes is no null, so it is asked
    have horNull : orNull? read (layout a).tree = (read (layout a).tree).map some := by
      have hlayout := hnull a
      cases h : layout a with
      | null =>
        rw [h] at hlayout
        cases hlayout
      | _ => rfl
    rw [Option.map_some, Option.getD_some, horNull, hread a rfl]
    simp only [Option.mem_some_iff, forall_eq']
    split <;> rfl

end

/-! ### What may be omitted -/

/-- The tree is a name: the bare one, or one with null given to it. -/
def Names (t : Tree) (name : String) : Prop :=
  ∃ depth, t.name? depth = some name

/-- **A field that is omitted** reads as the text of its default. -/
theorem withDefault?_eq {α : Type} {read : Tree → Option α} {default : α} {t : Tree}
    (h : read t = some default) (slot : Option Tree) :
    withDefault? default read slot = read (slot.getD t) := by
  cases slot with
  | none => exact h.symm
  | some given => rfl

/-- A choice without payloads that is omitted reads as the name of its default. -/
theorem names_of_withDefault? {α : Type} {ofName? : String → Option α} {default a : α}
    {name : String} {depth : Nat} {slot : Option Tree} (hdefault : ofName? name = some default)
    (h : withDefault? default (fun t => (t.name? depth).bind ofName?) slot = some a) :
    ∃ given, ofName? given = some a ∧ (slot.getD (.text (some name))).Names given := by
  have htext : (fun t : Tree => (t.name? depth).bind ofName?) (.text (some name)) = some default :=
    hdefault
  rw [withDefault?_eq htext] at h
  obtain ⟨given, hgiven, ha⟩ := Option.bind_eq_some_iff.1 h
  exact ⟨given, ha, depth, hgiven⟩

/-- A list that is omitted reads as the empty one. -/
theorem items_of_withDefault? {α : Type} {read : Nat → Tree → Option α} {depth : Nat}
    {slot : Option Tree} {elements : List α}
    (h : withDefault? [] (elements? depth read) slot = some elements) :
    ∃ items, slot.getD (.list []) = .list items ∧
      List.Forall₂ (fun a item => read (depth - 1) item = some a) elements items := by
  cases slot with
  | none =>
    obtain rfl := Option.some.inj h
    exact ⟨[], rfl, .nil⟩
  | some t =>
    -- the slot is filled, and with a list
    change elements? depth read t = some elements at h
    cases t with
    | list items =>
      rw [elements?] at h
      split at h
      · cases h
      · exact ⟨items, rfl, forall₂_of_mapM h⟩
    | _ => cases h

theorem eq_text_of_string? {t : Tree} {s : String} (h : string? t = some s) :
    t = .text (some s) := by
  cases t with
  | text given =>
    obtain rfl : given = some s := h
    rfl
  | _ => cases h

theorem eq_text_of_required? {slot : Option Tree} {s : String}
    (h : required? string? slot = some s) : slot = some (.text (some s)) := by
  obtain ⟨t, rfl, h⟩ := Option.bind_eq_some_iff.1 h
  rw [eq_text_of_string? h]

theorem eq_natural_of_required? {slot : Option Tree} {n : UInt64}
    (h : required? natural? slot = some n) : slot = some (.number (some (.natural n))) := by
  -- a number that is given, and in the form that is asked for
  obtain ⟨t, rfl, ht⟩ := Option.bind_eq_some_iff.1 h
  obtain ⟨m, hm, hn⟩ := Option.bind_eq_some_iff.1 ht
  cases t with
  | number given =>
    obtain rfl : given = some m := hm
    cases m with
    | natural n' =>
      obtain rfl := Option.some.inj hn
      rfl
    | _ => cases hn
  | _ => cases hm

theorem eq_struct_of_tagged? {t payload : Tree} {depth inner : Nat} {name : String}
    (h : t.tagged? depth = some (name, some (inner, payload))) :
    t = .struct [(some name, payload)] := by
  -- a bare name has no payload, so the tree is a struct with one field
  unfold tagged? at h
  split at h
  · obtain ⟨_, -, heq⟩ := Option.map_eq_some_iff.1 h
    cases heq
  · split at h
    · cases h
    · obtain ⟨_, rfl, heq⟩ := Option.map_eq_some_iff.1 h
      cases heq
      rfl
  · cases h

/-- Nothing, if the tree is null, and otherwise what it denotes. -/
def OrNull {α : Type} (Denoted : α → Tree → Prop) : Option α → Tree → Prop
  | none, t => t = .null
  | some a, t => Denoted a t

/-- What may be null and is omitted reads as null. -/
theorem orNull_of_withDefault? {α : Type} {Denoted : α → Tree → Prop} {read : Tree → Option α}
    (hread : ∀ {t a}, read t = some a → Denoted a t) {slot : Option Tree} {value : Option α}
    (h : withDefault? none (orNull? read) slot = some value) :
    OrNull Denoted value (slot.getD .null) := by
  have hnull : orNull? read .null = some none := rfl
  -- omitted or null, it is the same to the reader
  rw [withDefault?_eq hnull] at h
  generalize slot.getD .null = t at h
  unfold orNull? at h
  split at h
  · obtain rfl := Option.some.inj h
    rfl
  · obtain ⟨a, ha, rfl⟩ := Option.map_eq_some_iff.1 h
    exact hread ha

end Tree

end ConfigLedger
