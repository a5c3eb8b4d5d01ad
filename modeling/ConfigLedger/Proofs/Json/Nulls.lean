import ConfigLedger.Proofs.Json.Merge

/-!
# Values without nulls

A null in a struct stands for a field that is not set. `Value.withoutNulls` leaves such fields out,
at every depth and inside lists too. An element of a list stays where it is even if it is null,
since it has a position; and a null by itself has no struct to be left out of.

What is then found under a key is what was found there, unless it was null
(`lookup_fieldsWithoutNulls`). The order of fields is kept (`Ordered.withoutNulls`).
-/

namespace ConfigLedger

namespace Value

mutual

/-- The value without the null fields of all structs in it. -/
def withoutNulls : Value → Value
  | list items => list (itemsWithoutNulls items)
  | struct fields => struct (fieldsWithoutNulls fields)
  | v => v

/-- The elements without the null fields of all structs in them. -/
def itemsWithoutNulls : List Value → List Value
  | [] => []
  | v :: rest => withoutNulls v :: itemsWithoutNulls rest

/-- The fields that are not null, without the null fields of all structs in them. -/
def fieldsWithoutNulls : List (String × Value) → List (String × Value)
  | [] => []
  | (key, v) :: rest =>
    if v.isNull then fieldsWithoutNulls rest else (key, withoutNulls v) :: fieldsWithoutNulls rest

end

/-- A field without nulls: it is missing if it is null. -/
def unlessNull (x : Option Value) : Option Value :=
  x.bind fun v => if v.isNull then none else some v.withoutNulls

variable {v : Value} {fields : List (String × Value)}

@[simp] theorem withoutNulls_null : null.withoutNulls = null := rfl

@[simp] theorem withoutNulls_struct (fields : List (String × Value)) :
    (struct fields).withoutNulls = struct (fieldsWithoutNulls fields) := rfl

@[simp] theorem isSolid_withoutNulls (v : Value) : v.withoutNulls.isSolid = v.isSolid := by
  cases v <;> rfl

@[simp] theorem unlessNull_none : unlessNull none = none := rfl

@[simp] theorem unlessNull_null : unlessNull (some null) = none := rfl

theorem isNull_iff : v.isNull = true ↔ v = null := by
  cases v <;> simp [isNull]

theorem unlessNull_some (h : v ≠ null) : unlessNull (some v) = some v.withoutNulls := by
  rw [unlessNull, Option.bind_some, if_neg (mt isNull_iff.1 h)]

theorem eq_of_unlessNull {w : Value} (h : unlessNull (some v) = some w) : v.withoutNulls = w := by
  rw [unlessNull, Option.bind_some] at h
  split at h
  · cases h
  · exact Option.some.inj h

/-! ### Fields -/

/-- No key is new. -/
theorem keys_fieldsWithoutNulls (fields : List (String × Value)) :
    ((fieldsWithoutNulls fields).map Prod.fst).Sublist (fields.map Prod.fst) := by
  induction fields with
  | nil => exact List.Sublist.refl _
  | cons field rest ih =>
    obtain ⟨key, v⟩ := field
    rw [fieldsWithoutNulls]
    split
    · exact ih.cons key
    · exact ih.cons_cons key

theorem Rising.withoutNulls (h : Rising fields) : Rising (fieldsWithoutNulls fields) := by
  have hkeys : (fields.map Prod.fst).Pairwise (· < ·) := List.pairwise_map.2 h
  exact List.pairwise_map.1 (hkeys.sublist (keys_fieldsWithoutNulls fields))

/-- **What is found without nulls** is what was found, unless that is null. -/
theorem lookup_fieldsWithoutNulls (h : Rising fields) (key : String) :
    (fieldsWithoutNulls fields).lookup key = unlessNull (fields.lookup key) := by
  induction fields with
  | nil => rfl
  | cons field rest ih =>
    obtain ⟨k, v⟩ := field
    have hrest := ih (List.pairwise_cons.1 h).2
    rw [fieldsWithoutNulls, lookup_cons_eq_ite]
    by_cases hkey : key = k
    · -- no other field has the key, so nothing comes to light behind a null
      subst hkey
      have hbehind : (fieldsWithoutNulls rest).lookup key = none := by
        rw [hrest, h.lookup_eq_none, unlessNull_none]
      rw [if_pos rfl, unlessNull, Option.bind_some]
      -- the field is left out if it is null
      split
      · exact hbehind
      · rw [lookup_cons_eq_ite, if_pos rfl]
    · -- another key, which is looked for in the rest
      rw [if_neg hkey, ← hrest]
      split
      · rfl
      · rw [lookup_cons_eq_ite, if_neg hkey]

mutual

/-- **Leaving out nulls keeps the order** of all fields. -/
theorem Ordered.withoutNulls (v : Value) (h : v.Ordered) : v.withoutNulls.Ordered := by
  cases v with
  | list items => exact orderedItems_withoutNulls items h
  | struct fields => exact ⟨Rising.withoutNulls h.1, orderedFields_withoutNulls fields h.2⟩
  | _ => exact h

theorem orderedItems_withoutNulls (items : List Value) (h : OrderedItems items) :
    OrderedItems (itemsWithoutNulls items) := by
  cases items with
  | nil => exact h
  | cons v rest => exact ⟨Ordered.withoutNulls v h.1, orderedItems_withoutNulls rest h.2⟩

theorem orderedFields_withoutNulls (fields : List (String × Value)) (h : OrderedFields fields) :
    OrderedFields (fieldsWithoutNulls fields) := by
  cases fields with
  | nil => exact h
  | cons field rest =>
    obtain ⟨key, v⟩ := field
    rw [fieldsWithoutNulls]
    split
    · exact orderedFields_withoutNulls rest h.2
    · exact ⟨Ordered.withoutNulls v h.1, orderedFields_withoutNulls rest h.2⟩

end

/-! ### Values that may be missing -/

variable {x : Option Value}

theorem OrderedField.unlessNull (hx : OrderedField x) : OrderedField (unlessNull x) := by
  intro w hw
  obtain ⟨v, rfl, hv⟩ := Option.bind_eq_some_iff.1 hw
  split at hv
  · cases hv
  · obtain rfl := Option.some.inj hv
    exact Ordered.withoutNulls v (hx v rfl)

/-- Fields can be looked up before or after nulls are left out. -/
theorem entry_unlessNull (hx : OrderedField x) (key : String) :
    entry (unlessNull x) key = unlessNull (entry x key) := by
  rcases x with _ | u
  · rfl
  cases u with
  | struct fs => exact lookup_fieldsWithoutNulls (hx _ rfl).1 key
  | _ => rfl

end Value

end ConfigLedger
