import ConfigLedger.Proofs.Json.Merge
import ConfigLedger.Proofs.Scope.Resolution

/-!
# What an effective value sets

Values are laid over one another, from the least to the most specific scope. What stands at a path
in the end, and which scope is it from?

What can be told path by path are **leaves**: values that are set and are no structs, so lists and
scalars, where the path leads through structs alone (`Value.Leaf`). A value that is laid over others
**spares** a path if it sets nothing there and has no leaf on the way to it (`Value.Spares`): an
explicit null spares the path, a list above it does not, nor does a struct at it.

One value laid over another has its own leaves and those that it spares (`Value.leaf_overlay_iff`).
So the leaves of all values laid over one another are those that **prevail**, that is, those which
all values behind them spare (`Value.leaf_iff_prevails`): the most specific scope that sets a path
decides on it.
-/

namespace ConfigLedger

namespace Value

/-! ### Leaves -/

/-- What a path of keys leads to, through structs alone. -/
def reach (x : Option Value) (path : List String) : Option Value :=
  path.foldl entry x

/-- The path leads to the value, which is set and is no struct. -/
def Leaf (x : Option Value) (path : List String) (z : Value) : Prop :=
  reach x path = some z ∧ z.isSolid = true

/-- Laid over others, this leaves what they have at the path as it is: nothing is set there, and
there is no leaf on the way. -/
structure Spares (x : Option Value) (path : List String) : Prop where
  unset : isSet (reach x path) = false
  no_leaf_above : ∀ above, above <+: path → above ≠ path → ∀ z, ¬ Leaf x above z

/-- Some value has the leaf, and all values behind it spare the path. -/
def Prevails (values : List Value) (path : List String) (z : Value) : Prop :=
  ∃ before v behind, values = before ++ v :: behind ∧
    Leaf (some v) path z ∧ ∀ w ∈ behind, Spares (some w) path

variable {x y : Option Value} {u v z : Value} {path : List String} {key : String}
  {values : List Value}

theorem leaf_nil_iff : Leaf x [] z ↔ x = some z ∧ z.isSolid = true :=
  Iff.rfl

theorem leaf_cons_iff : Leaf x (key :: path) z ↔ Leaf (entry x key) path z :=
  Iff.rfl

theorem spares_nil_iff : Spares x [] ↔ isSet x = false := by
  refine ⟨Spares.unset, fun h => ⟨h, fun above habove hne => ?_⟩⟩
  exact absurd (List.prefix_nil.1 habove) hne

/-- A path into fields is spared by what is not solid and spares the rest of the path in the
field. -/
theorem spares_cons_iff : Spares x (key :: path) ↔
    (∀ v, x = some v → v.isSolid = false) ∧ Spares (entry x key) path := by
  constructor
  · -- the value itself is one of the places above the path, and the others lie in the field
    intro h
    refine ⟨fun v hv => Bool.eq_false_iff.2 fun hsolid => ?_, h.unset, fun above habove hne => ?_⟩
    · exact h.no_leaf_above [] List.nil_prefix (List.cons_ne_nil _ _).symm v ⟨hv, hsolid⟩
    · exact h.no_leaf_above (key :: above) ((List.prefix_cons_inj key).2 habove)
        fun heq => hne (List.cons.inj heq).2
  · rintro ⟨hopen, hrest⟩
    refine ⟨hrest.unset, fun above habove hne z hleaf => ?_⟩
    -- above the path there are the value itself and the places inside the field
    rcases List.prefix_cons_iff.1 habove with rfl | ⟨tail, rfl, htail⟩
    · rw [leaf_nil_iff] at hleaf
      exact absurd hleaf.2 (Bool.eq_false_iff.1 (hopen z hleaf.1))
    · exact hrest.no_leaf_above tail htail (fun heq => hne (heq ▸ rfl)) z hleaf

/-! ### One value over another -/

/-- What is found where a value itself is laid over another one. -/
theorem leaf_overlay_nil_iff (hy : OrderedField y) :
    Leaf (overlay x y) [] z ↔ Leaf y [] z ∨ Leaf x [] z ∧ isSet y = false := by
  simp only [leaf_nil_iff]
  -- a missing value lets everything through, as a null does
  rcases y with _ | v
  · simp [overlay, isSet]
  cases v with
  | null =>
    -- a null lets the value below it through, and is no leaf
    rw [overlay_null]
    cases x with
    | none => simp [isSet, isNull]
    | some u =>
      have hnull : ¬ (null = z ∧ z.isSolid = true) := by
        rintro ⟨rfl, hsolid⟩
        cases hsolid
      simp [isSet, isNull, hnull]
  | struct gs =>
    -- a struct is no leaf either, but it hides what was there
    obtain ⟨hs, hoverlay, -⟩ := overlay_struct (hy _ rfl).1 x
    have hstruct (fields : List (String × Value)) : ¬ (struct fields = z ∧ z.isSolid = true) := by
      rintro ⟨rfl, hsolid⟩
      cases hsolid
    rw [hoverlay]
    simp [isSet, isNull, hstruct]
  | _ =>
    -- a leaf is laid on as a whole
    rw [overlay_of_isSolid rfl]
    simp [isSet, isNull]

/-- **The leaves of a value laid over another one** are its own, and those below that it spares. -/
theorem leaf_overlay_iff (hy : OrderedField y) :
    Leaf (overlay x y) path z ↔ Leaf y path z ∨ Leaf x path z ∧ Spares y path := by
  induction path generalizing x y with
  | nil => rw [leaf_overlay_nil_iff hy, spares_nil_iff]
  | cons key path ih =>
    by_cases hopen : ∀ v, y = some v → v.isSolid = false
    · -- the fields are laid over one another
      simp only [leaf_cons_iff]
      rw [entry_overlay hy hopen, ih (hy.entry key), spares_cons_iff, and_iff_right hopen]
    · -- a leaf at the root hides all paths, and has no fields itself
      have hnot : ¬ Spares y (key :: path) := fun h => hopen (spares_cons_iff.1 h).1
      obtain ⟨v, hv⟩ := not_forall.1 hopen
      obtain ⟨rfl, hsolid⟩ := Classical.not_imp.1 hv
      rw [overlay_of_isSolid (Bool.not_eq_false _ ▸ hsolid)]
      simp only [hnot, and_false, or_false]

/-! ### All values over one another -/

theorem not_prevails_nil : ¬ Prevails [] path z := by
  rintro ⟨before, v, behind, h, -⟩
  exact absurd h.symm (List.append_ne_nil_of_right_ne_nil _ (List.cons_ne_nil _ _))

/-- What prevails is behind the first value, or it is that of the first one, spared by all
others. -/
theorem prevails_cons_iff : Prevails (u :: values) path z ↔
    Prevails values path z ∨ Leaf (some u) path z ∧ ∀ w ∈ values, Spares (some w) path := by
  constructor
  · rintro ⟨before, v, behind, h, hleaf, hspares⟩
    rcases List.cons_eq_append_iff.1 h with ⟨rfl, hfirst⟩ | ⟨others, rfl, hothers⟩
    · obtain ⟨rfl, rfl⟩ := List.cons.inj hfirst
      exact .inr ⟨hleaf, hspares⟩
    · exact .inl ⟨others, v, behind, hothers, hleaf, hspares⟩
  · rintro (⟨before, v, behind, rfl, hleaf, hspares⟩ | ⟨hleaf, hspares⟩)
    · exact ⟨u :: before, v, behind, rfl, hleaf, hspares⟩
    · exact ⟨[], u, values, rfl, hleaf, hspares⟩

theorem leaf_foldl_merge_iff (hu : u.Ordered) (hvalues : ∀ v ∈ values, v.Ordered) :
    Leaf (some (values.foldl merge u)) path z ↔ Prevails (u :: values) path z := by
  induction values generalizing u with
  | nil => simp [prevails_cons_iff, not_prevails_nil]
  | cons v values ih =>
    obtain ⟨hv, hvalues⟩ := List.forall_mem_cons.1 hvalues
    -- the bottom two layers, by the case of two
    have hmerged : Leaf (some (u.merge v)) path z ↔
        Leaf (some v) path z ∨ Leaf (some u) path z ∧ Spares (some v) path :=
      leaf_overlay_iff (x := some u) (orderedField_some hv)
    -- the first two values count as the one that they are merged to
    calc
      Leaf (some ((v :: values).foldl merge u)) path z
        ↔ Prevails (u.merge v :: values) path z := ih (Ordered.merge hu v hv) hvalues
      _ ↔ Prevails values path z ∨
            (Leaf (some v) path z ∨ Leaf (some u) path z ∧ Spares (some v) path) ∧
              ∀ w ∈ values, Spares (some w) path := by rw [prevails_cons_iff, hmerged]
      _ ↔ Prevails (u :: v :: values) path z := by
        rw [prevails_cons_iff (u := u), prevails_cons_iff (u := v), List.forall_mem_cons]
        tauto

/-- **The effective value, path by path.** Values laid over one another from the least to the most
specific one, of which there is at least one, have a leaf at a path exactly if it is the leaf of one
of them and all more specific ones spare the path. -/
theorem leaf_iff_prevails {first : Value} {rest : List Value}
    (hordered : ∀ v ∈ first :: rest, v.Ordered) :
    (first :: rest).foldl (ConfigLedger.overlay merge) none = some (rest.foldl merge first) ∧
      ∀ path z, Leaf (some (rest.foldl merge first)) path z ↔
        Prevails (first :: rest) path z := by
  obtain ⟨hfirst, hrest⟩ := List.forall_mem_cons.1 hordered
  exact ⟨foldl_overlay_some merge first rest, fun path z => leaf_foldl_merge_iff hfirst hrest⟩

/-- Nulls spare a path, at its end and on the way to it; a struct in the place of a list does
not. -/
theorem leaf_iff_prevails_nulls :
    let general : Value := struct [("limits", struct [("burst", bool true), ("rate", bool false)]),
      ("tags", list [string "a"])]
    let middle : Value := struct [("limits", struct [("rate", null)]),
      ("tags", struct [("k", string "b")])]
    let specific : Value := struct [("limits", null)]
    let merged : Value := [middle, specific].foldl merge general
    (∀ v ∈ [general, middle, specific], v.Ordered) ∧
      merged = struct [("limits", struct [("burst", bool true), ("rate", bool false)]),
        ("tags", struct [("k", string "b")])] ∧
      Prevails [general, middle, specific] ["limits", "rate"] (bool false) ∧
      ¬ Prevails [general, middle, specific] ["tags"] (list [string "a"]) := by
  intro general middle specific merged
  have hordered : ∀ v ∈ [general, middle, specific], v.Ordered := by
    have hgeneral : general.Ordered := by
      refine ⟨?_, ⟨?_, trivial, trivial, trivial⟩, ⟨trivial, trivial⟩, trivial⟩
      all_goals exact List.pairwise_map.1 (by decide)
    have hmiddle : middle.Ordered := by
      refine ⟨?_, ⟨?_, trivial, trivial⟩, ⟨?_, trivial, trivial⟩, trivial⟩
      all_goals exact List.pairwise_map.1 (by decide)
    have hspecific : specific.Ordered := ⟨List.pairwise_singleton _ _, trivial, trivial⟩
    simp [hgeneral, hmiddle, hspecific]
  have hmerged : merged = struct [("limits", struct [("burst", bool true), ("rate", bool false)]),
      ("tags", struct [("k", string "b")])] := rfl
  obtain ⟨-, hleaf⟩ := leaf_iff_prevails hordered
  -- the list is gone, so no leaf is found in its place
  have htags : ¬ Leaf (some merged) ["tags"] (list [string "a"]) := by
    rintro ⟨hreach, -⟩
    cases hreach
  exact ⟨hordered, hmerged, (hleaf _ _).1 ⟨rfl, rfl⟩, fun h => htags ((hleaf _ _).2 h)⟩

end Value

end ConfigLedger
