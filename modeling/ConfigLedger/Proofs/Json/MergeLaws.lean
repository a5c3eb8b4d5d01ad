import ConfigLedger.Proofs.Json.Nulls

/-!
# Laws of merging

Equal values are merged without a look inside them, and what counts as equal there is coarser than
being the same: the two zeros of binary64 are equal. Does it matter? No: `Value.plainMerge` goes
through all fields whether the values are equal or not, and gives the same (`plainMerge_eq_merge`).

Merging is idempotent, and laying a value on again changes nothing, neither the fallback below the
merged value nor the preferred value above it. It does not matter either whether nulls are left out
before or after merging. All these laws are one statement for fields, where either side may be
missing, and its induction is that of a value over its fields (`OrderedField.induction`): a missing
field and a null change nothing, a solid value hides what is below it, and two structs are laid over
one another field by field (`overlay_struct_eq`).
-/

namespace ConfigLedger

namespace Value

mutual

/-- Lays the preferred value over the fallback, without asking whether they are equal. -/
def plainMerge (fallback : Value) : Value → Value
  | null => fallback
  | struct preferred =>
    match fallback with
    | struct fields => struct (plainMergeFields fields fields preferred)
    | _ => struct preferred
  | preferred => preferred

/-- Lays the preferred fields over the `merged` ones as `mergeFields` does, without asking whether
values are equal. -/
def plainMergeFields (fallback merged : List (String × Value)) :
    List (String × Value) → List (String × Value)
  | [] => merged
  | (key, preferred) :: rest =>
    let value := match fallback.lookup key with
      | some value => plainMerge value preferred
      | none => preferred
    plainMergeFields fallback (putField key value merged) rest

end

variable {u v : Value} {x y : Option Value} {fs gs : List (String × Value)}

/-! ### The look at equal values -/

mutual

/-- A value equals itself. -/
theorem same_self (v : Value) : v.same v = true := by
  cases v with
  | null => rfl
  | list items => exact sameItems_self items
  | struct fields => exact sameFields_self fields
  | number n => cases n <;> exact beq_self_eq_true _
  | _ => exact beq_self_eq_true _

theorem sameItems_self (items : List Value) : sameItems items items = true := by
  cases items with
  | nil => rfl
  | cons v rest => rw [sameItems, same_self v, sameItems_self rest, Bool.and_true]

theorem sameFields_self (fields : List (String × Value)) : sameFields fields fields = true := by
  cases fields with
  | nil => rfl
  | cons field rest =>
    obtain ⟨key, v⟩ := field
    rw [sameFields, beq_self_eq_true, same_self v, sameFields_self rest, Bool.and_true,
      Bool.and_true]

end

/-- **Structs are merged field by field**, equal or not. -/
theorem struct_merge_struct (hfs : Rising fs) (hgs : Rising gs) :
    (struct fs).merge (struct gs) = struct (mergeFields fs fs gs) := by
  rw [merge_struct]
  split
  · -- fields that count as equal are replaced by the new ones, as field by field
    next hsame =>
    have hfields : gs = mergeFields fs fs gs := by
      refine Rising.eq_of_lookup hgs (Rising.mergeFields hfs) fun key => ?_
      rw [lookup_mergeFields_self hgs]
      exact (lookup_of_sameFields hsame key).symm
    rw [← hfields]
  · rfl

mutual

/-- **The look at equal values** changes nothing, at whatever depth. -/
theorem plainMerge_eq_merge {u : Value} (hu : u.Ordered) (v : Value) (hv : v.Ordered) :
    u.plainMerge v = u.merge v := by
  cases v with
  | null => rw [plainMerge, merge_null]
  | struct gs =>
    -- by mutual recursion with the fields
    rw [plainMerge.eq_def]
    cases u with
    | struct fs =>
      rw [struct_merge_struct hu.1 hv.1, ← plainMergeFields_eq hu.2 fs gs hv.2]
    | _ => rw [merge_struct, ite_self]
  | _ =>
    rw [merge_of_isSolid rfl]
    rfl

theorem plainMergeFields_eq {fallback : List (String × Value)}
    (hfallback : OrderedFields fallback) (merged gs : List (String × Value))
    (hgs : OrderedFields gs) :
    plainMergeFields fallback merged gs = mergeFields fallback merged gs := by
  cases gs with
  | nil => rfl
  | cons g gs =>
    obtain ⟨key, p⟩ := g
    rw [plainMergeFields, mergeFields, plainMergeFields_eq hfallback _ gs hgs.2]
    -- a key that is new, or one whose values are merged
    cases hlookup : fallback.lookup key with
    | none => rfl
    | some w =>
      have hw : w.Ordered := orderedFields_iff.1 hfallback _ (mem_of_lookup hlookup)
      dsimp only
      rw [plainMerge_eq_merge hw p hgs.1]

end

/-! ### Laying on again -/

@[simp] theorem overlay_self (x : Option Value) : overlay x x = x := by
  cases x with
  | none => rfl
  | some v => rw [overlay_some, merge_of_same (same_self v)]

/-- **What is below already** might as well not be below once more. -/
theorem overlay_overlay_self (hx : OrderedField x) (hy : OrderedField y) :
    overlay x (overlay x y) = overlay x y := by
  induction y, hy using OrderedField.induction generalizing x with
  | missing => exact overlay_self x
  | null =>
    -- a null shows only where a field is missing
    rw [overlay_null]
    cases x with
    | none => rfl
    | some u => exact overlay_self (some u)
  | solid v _ hv => rw [overlay_of_isSolid hv, overlay_of_isSolid hv]
  | struct gs hgs ih =>
    -- both are structs, and their fields agree by the induction hypothesis
    obtain ⟨hs, hoverlay, hrising, hlookup⟩ := hx.overlay_struct hgs
    have hhs : OrderedField (some (struct hs)) := hoverlay ▸ hx.overlay hgs
    rw [hoverlay]
    -- the fields of the lower struct are laid below those of the merged one
    refine overlay_struct_eq hx hhs hrising fun key => ?_
    rw [hlookup]
    exact ih key (hx.entry key)

/-! ### Nulls -/

/-- **Nulls can be left out** before or after fields are laid over one another. -/
theorem unlessNull_overlay (hx : OrderedField x) (hy : OrderedField y) :
    unlessNull (overlay x y) = overlay (unlessNull x) (unlessNull y) := by
  induction y, hy using OrderedField.induction generalizing x with
  | missing => rfl
  | null =>
    -- a null is left out, whether it shows or not
    rw [overlay_null]
    cases x <;> rfl
  | solid v _ hv =>
    -- what hides all does so without its nulls, too
    have hnull : v ≠ null := by
      rintro rfl
      cases hv
    rw [overlay_of_isSolid hv, unlessNull_some hnull,
      overlay_of_isSolid ((isSolid_withoutNulls v).trans hv)]
  | struct gs hgs ih =>
    -- on structs both sides are taken field by field, and each field is a smaller case
    obtain ⟨hs, hoverlay, hhs, hlookup⟩ := hx.overlay_struct hgs
    rw [hoverlay]
    refine (overlay_struct_eq hx.unlessNull hgs.unlessNull (Rising.withoutNulls hhs)
      fun key => ?_).symm
    calc
      overlay (entry (unlessNull x) key) ((fieldsWithoutNulls gs).lookup key)
        = overlay (unlessNull (entry x key)) (unlessNull (gs.lookup key)) := by
        rw [entry_unlessNull hx, lookup_fieldsWithoutNulls (hgs _ rfl).1]
      _ = unlessNull (overlay (entry x key) (gs.lookup key)) := (ih key (hx.entry key)).symm
      _ = (fieldsWithoutNulls hs).lookup key := by
        rw [lookup_fieldsWithoutNulls hhs, hlookup]

theorem withoutNulls_merge (hu : u.Ordered) (hv : v.Ordered) :
    (u.merge v).withoutNulls = u.withoutNulls.merge v.withoutNulls := by
  by_cases hunull : u = null
  · rw [hunull, null_merge, withoutNulls_null, null_merge]
  by_cases hvnull : v = null
  · rw [hvnull, merge_null, withoutNulls_null, merge_null]
  -- neither of the two is left out as a field
  have hfield := unlessNull_overlay (orderedField_some hu) (orderedField_some hv)
  rw [unlessNull_some hunull, unlessNull_some hvnull, overlay_some, overlay_some] at hfield
  exact eq_of_unlessNull hfield

/-! ### The laws -/

/-- **Merging as an algebra.** The look at equal values changes nothing; a value merged with itself
is that value; to lay the merged value over the fallback, or the preferred value over the merged
one, changes nothing more; and nulls can be left out before or after. -/
theorem merge_laws (hu : u.Ordered) (hv : v.Ordered) :
    u.merge v = u.plainMerge v ∧ u.merge u = u ∧ u.merge (u.merge v) = u.merge v ∧
      (u.merge v).merge v = u.merge v ∧
      (u.merge v).withoutNulls = u.withoutNulls.merge v.withoutNulls := by
  -- a value is a field that is not missing, so the laws about fields apply
  have hu' : OrderedField (some u) := orderedField_some hu
  have hbelow : u.merge (u.merge v) = u.merge v :=
    Option.some.inj (overlay_overlay_self hu' (orderedField_some hv))
  have habove : (u.merge v).merge v = u.merge v :=
    Option.some.inj (overlay_foldl_overlay hu' (orderedField_some hv) (List.forall_mem_nil _))
  exact ⟨(plainMerge_eq_merge hu v hv).symm, merge_of_same (same_self u), hbelow, habove,
    withoutNulls_merge hu hv⟩

/-- Structs that count as equal, as they differ in the sign of a zero alone, and nulls that are
kept, inherited and left out. -/
theorem merge_laws_zeros :
    let zero : Value := number (.real Binary64.zero)
    let minusZero : Value := number (.real Binary64.zero.neg)
    let u : Value := struct [("a", struct [("z", zero)]), ("b", bool true),
      ("c", list [struct [("n", null)]])]
    let v : Value := struct [("a", struct [("z", minusZero)]), ("b", null), ("d", null)]
    let merged : Value := struct [("a", struct [("z", minusZero)]), ("b", bool true),
      ("c", list [struct [("n", null)]]), ("d", null)]
    u.Ordered ∧ v.Ordered ∧ (struct [("z", zero)]).same (struct [("z", minusZero)]) = true ∧
      u.merge v = merged ∧ u.plainMerge v = merged ∧ u.merge u = u ∧ u.merge merged = merged ∧
      merged.merge v = merged ∧
      u.withoutNulls.merge v.withoutNulls = struct [("a", struct [("z", minusZero)]),
        ("b", bool true), ("c", list [struct []])] := by
  intro zero minusZero u v merged
  have hu : u.Ordered := by
    refine ⟨?_, ⟨?_, trivial, trivial⟩, trivial, ⟨⟨?_, trivial, trivial⟩, trivial⟩, trivial⟩
    all_goals exact List.pairwise_map.1 (by decide)
  have hv : v.Ordered := by
    refine ⟨?_, ⟨?_, trivial, trivial⟩, trivial, trivial, trivial⟩
    all_goals exact List.pairwise_map.1 (by decide)
  -- `a` is taken as a whole, as its fields count as equal
  have hmerged : u.merge v = merged := rfl
  obtain ⟨hplain, hself, hbelow, habove, hnulls⟩ := merge_laws hu hv
  rw [hmerged] at hplain hbelow habove hnulls
  exact ⟨hu, hv, rfl, hmerged, hplain.symm, hself, hbelow, habove, hnulls.symm⟩

end Value

end ConfigLedger
