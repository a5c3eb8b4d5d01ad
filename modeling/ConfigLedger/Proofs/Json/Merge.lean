import ConfigLedger.Json.Merge
import ConfigLedger.Proofs.Entries
import ConfigLedger.Proofs.Json.Nesting
import Mathlib.Data.List.Nodup

/-!
# Merging field by field

A field may be missing, so what merging does to the fields of structs is `Value.overlay`: a missing
field changes nothing, and over a missing field everything is laid as it is. The fields of two
structs laid over one another are laid over one another (`lookup_mergeFields_self`), whether or not
the structs are equal; so the look at equal values changes nothing. What is true of all fields that
may be missing is proved by induction over the fields of structs (`Value.OrderedField.induction`),
where two structs laid over one another are known by their fields (`Value.overlay_struct_eq`).

Values can be laid over one another one after the other. What is laid on twice might as well have
been laid on the second time only, whatever stands below it and in between
(`Value.overlay_foldl_overlay`). The reason is that a value hides the same places each time: a
solid value hides everything, a null nothing, and a struct what its fields hide, field by field.
-/

namespace ConfigLedger

/-! ### Fields -/

section

variable {α : Type} {fields others : List (String × α)}

theorem lookup_putField (key : String) (value : α) (fields : List (String × α)) (other : String) :
    (putField key value fields).lookup other =
      if other = key then some value else fields.lookup other := by
  induction fields with
  | nil => rw [putField, lookup_cons_eq_ite]
  | cons field rest ih =>
    obtain ⟨k, v⟩ := field
    rw [putField]
    split
    · rw [lookup_cons_eq_ite]
    · split
      -- the field takes the place of the one with its key
      · next heq =>
        subst heq
        rw [lookup_cons_eq_ite, lookup_cons_eq_ite]
        split <;> rfl
      · -- further behind, and there `other` is `k` or one of the others
        next hne =>
        rw [lookup_cons_eq_ite, lookup_cons_eq_ite, ih]
        by_cases h : other = k
        · have : other ≠ key := fun hkey => hne (hkey.symm.trans h)
          rw [if_pos h, if_neg this, if_pos h]
        · rw [if_neg h, if_neg h]

theorem mem_of_lookup {key : String} {value : α} (h : fields.lookup key = some value) :
    (key, value) ∈ fields := by
  obtain ⟨before, behind, rfl, -⟩ := List.lookup_eq_some_iff.1 h
  simp

theorem Rising.nodup_keys (h : Rising fields) : (fields.map Prod.fst).Nodup := by
  refine List.pairwise_map.2 (h.imp fun {a b} hlt heq => ?_)
  rw [heq] at hlt
  exact String.lt_irrefl _ hlt

theorem Rising.lookup_eq_none {key : String} {value : α} (h : Rising ((key, value) :: fields)) :
    fields.lookup key = none := by
  rw [List.lookup_eq_none_iff]
  intro field hfield
  have hlt : key < field.1 := (List.pairwise_cons.1 h).1 field hfield
  simpa using fun heq : key = field.1 => String.lt_irrefl _ (heq ▸ hlt)

/-- **Fields in rising order** are known by what is found under each key. -/
theorem Rising.eq_of_lookup (h : Rising fields) (h' : Rising others)
    (hlookup : ∀ key, fields.lookup key = others.lookup key) : fields = others := by
  have hmem (field : String × α) : field ∈ fields ↔ field ∈ others := by
    obtain ⟨key, value⟩ := field
    rw [Entries.mem_iff_lookup h.nodup_keys, Entries.mem_iff_lookup h'.nodup_keys, hlookup]
  have hperm : fields.Perm others :=
    (List.perm_ext_iff_of_nodup (List.Nodup.of_map _ h.nodup_keys)
      (List.Nodup.of_map _ h'.nodup_keys)).2 hmem
  exact hperm.eq_of_pairwise
    (fun a b _ _ hab hba => absurd (String.lt_trans hab hba) (String.lt_irrefl _)) h h'

end

namespace Value

/-! ### Values that may be missing -/

/-- Lays a field over another one, where either may be missing. -/
def overlay (u : Option Value) : Option Value → Option Value
  | none => u
  | some v => some ((u.map fun w => w.merge v).getD v)

/-- What stands under a key, if this is a struct. -/
def entry : Option Value → String → Option Value
  | some (struct fields), key => fields.lookup key
  | _, _ => none

/-- The value is set and has no fields, so it hides whatever it is laid over. -/
def isSolid : Value → Bool
  | null | struct _ => false
  | _ => true

variable {u v : Value} {x : Option Value} {fs gs : List (String × Value)}

@[simp] theorem none_overlay (x : Option Value) : overlay none x = x := by
  cases x <;> rfl

@[simp] theorem overlay_some (u v : Value) : overlay (some u) (some v) = some (u.merge v) := rfl

@[simp] theorem merge_null (u : Value) : u.merge null = u := by
  rw [merge]

theorem merge_of_isSolid (hv : v.isSolid = true) (u : Value) : u.merge v = v := by
  cases v with
  | null => cases hv
  | struct _ => cases hv
  | _ => rw [merge] <;> simp

theorem merge_struct (u : Value) (gs : List (String × Value)) :
    u.merge (struct gs) =
      if u.same (struct gs) then struct gs
      else match u with
        | struct fs => struct (mergeFields fs fs gs)
        | _ => struct gs :=
  merge.eq_def u (struct gs)

@[simp] theorem null_merge (v : Value) : null.merge v = v := by
  cases v with
  | struct gs => rw [merge_struct, ite_self]
  | _ => rw [merge] <;> simp

theorem overlay_of_isSolid (hv : v.isSolid = true) (x : Option Value) :
    overlay x (some v) = some v := by
  cases x with
  | none => rfl
  | some u => rw [overlay_some, merge_of_isSolid hv]

theorem overlay_null (x : Option Value) : overlay x (some null) = some (x.getD null) := by
  cases x with
  | none => rfl
  | some u => rw [overlay_some, merge_null, Option.getD_some]

/-! ### Structs -/

/-- Values that count as equal are laid over one another without effect. -/
theorem merge_of_same (h : u.same v = true) : u.merge v = v := by
  cases v with
  | null =>
    cases u <;> first | rfl | cases h
  | struct gs => rw [merge_struct, if_pos h]
  | _ => rw [merge] <;> simp

/-- Fields that count as equal stand under the same keys. -/
theorem lookup_of_sameFields (h : sameFields fs gs = true) (key : String) :
    overlay (fs.lookup key) (gs.lookup key) = gs.lookup key := by
  -- the fields are compared pairwise in their order, so both lists shrink together
  induction fs generalizing gs with
  | nil =>
    cases gs with
    | nil => rfl
    | cons g gs => cases h
  | cons f fs ih =>
    cases gs with
    | nil => cases h
    | cons g gs =>
      obtain ⟨k, a⟩ := f
      obtain ⟨l, b⟩ := g
      rw [sameFields, Bool.and_eq_true, Bool.and_eq_true, beq_iff_eq] at h
      obtain ⟨⟨rfl, hsame⟩, hrest⟩ := h
      rw [lookup_cons_eq_ite, lookup_cons_eq_ite]
      by_cases hkey : key = k
      · -- what counts as equal is replaced
        rw [if_pos hkey, if_pos hkey, overlay_some, merge_of_same hsame]
      · rw [if_neg hkey, if_neg hkey, ih hrest]

/-- Fields that are laid over others come from there, and the others stay. -/
theorem lookup_mergeFields {fallback merged : List (String × Value)} (hgs : Rising gs)
    (key : String) :
    (mergeFields fallback merged gs).lookup key =
      if (gs.lookup key).isSome then overlay (fallback.lookup key) (gs.lookup key)
      else merged.lookup key := by
  induction gs generalizing merged with
  | nil => rfl
  | cons g gs ih =>
    obtain ⟨k, p⟩ := g
    rw [mergeFields, ih (List.pairwise_cons.1 hgs).2, lookup_putField, lookup_cons_eq_ite]
    by_cases hkey : key = k
    · -- the first field is the only one with its key
      subst hkey
      rw [hgs.lookup_eq_none, if_pos rfl, if_pos rfl]
      cases fallback.lookup key <;> rfl
    · rw [if_neg hkey, if_neg hkey]

/-- **The fields of structs that are laid over one another are laid over one another.** -/
theorem lookup_mergeFields_self (hgs : Rising gs) (key : String) :
    (mergeFields fs fs gs).lookup key = overlay (fs.lookup key) (gs.lookup key) := by
  rw [lookup_mergeFields hgs]
  cases gs.lookup key <;> rfl

theorem Rising.mergeFields {fallback merged : List (String × Value)} (h : Rising merged) :
    Rising (mergeFields fallback merged gs) := by
  induction gs generalizing merged with
  | nil => exact h
  | cons g gs ih => exact ih h.putField

/-- A struct is laid over whatever is there as a struct. -/
theorem overlay_struct (hgs : Rising gs) (x : Option Value) :
    ∃ hs, overlay x (some (struct gs)) = some (struct hs) ∧
      ∀ key, hs.lookup key = overlay (entry x key) (gs.lookup key) := by
  -- what has no fields is replaced
  have hreplaced (hx : overlay x (some (struct gs)) = some (struct gs))
      (hentry : ∀ key, entry x key = none) :
      ∃ hs, overlay x (some (struct gs)) = some (struct hs) ∧
        ∀ key, hs.lookup key = overlay (entry x key) (gs.lookup key) :=
    ⟨gs, hx, fun key => by rw [hentry, none_overlay]⟩
  rcases x with _ | u
  · exact hreplaced rfl fun _ => rfl
  cases u with
  | struct fs =>
    -- fields over fields, which merging takes for a whole if they count as equal
    by_cases hsame : (struct fs).same (struct gs) = true
    · refine ⟨gs, by rw [overlay_some, merge_of_same hsame], fun key => ?_⟩
      exact (lookup_of_sameFields hsame key).symm
    · refine ⟨Value.mergeFields fs fs gs, ?_, lookup_mergeFields_self hgs⟩
      rw [overlay_some, merge_struct, if_neg hsame]
  | _ =>
    -- no fields below, so there is nothing to lay the new ones over
    refine hreplaced ?_ fun _ => rfl
    rw [overlay_some, merge_struct, ite_self]

mutual

/-- **Merging keeps the order** of all fields. -/
theorem Ordered.merge {u : Value} (hu : u.Ordered) (v : Value) (hv : v.Ordered) :
    (u.merge v).Ordered := by
  cases v with
  | null =>
    rw [merge_null]
    exact hu
  | struct gs =>
    rw [merge_struct]
    split
    · exact hv
    · -- only two structs are merged field by field
      cases u with
      | struct fs => exact ⟨Rising.mergeFields hu.1, ordered_mergeFields hu.2 hu.2 gs hv.2⟩
      | _ => exact hv
  | _ =>
    rw [merge_of_isSolid rfl]
    exact hv

theorem ordered_mergeFields {fallback merged : List (String × Value)}
    (hfallback : OrderedFields fallback) (hmerged : OrderedFields merged)
    (gs : List (String × Value)) (hgs : OrderedFields gs) :
    OrderedFields (Value.mergeFields fallback merged gs) := by
  cases gs with
  | nil => exact hmerged
  | cons g gs =>
    obtain ⟨key, p⟩ := g
    rw [Value.mergeFields]
    -- the first field is put in place, and the others are laid over the result
    refine ordered_mergeFields hfallback (orderedFields_iff.2 fun field hfield => ?_) gs hgs.2
    rcases mem_of_mem_putField hfield with rfl | hfield
    · -- the value that is put there is the one laid on, or a merged one
      cases hlookup : fallback.lookup key with
      | none => exact hgs.1
      | some w =>
        have hw : w.Ordered := orderedFields_iff.1 hfallback _ (mem_of_lookup hlookup)
        exact Ordered.merge hw p hgs.1
    · exact orderedFields_iff.1 hmerged field hfield

end

/-- Nothing stands there, or an ordered value does. -/
def OrderedField (x : Option Value) : Prop :=
  ∀ v, x = some v → v.Ordered

variable {y : Option Value} {w : List (Option Value)}

theorem orderedField_some {v : Value} (h : v.Ordered) : OrderedField (some v) := by
  rintro _ ⟨⟩
  exact h

theorem OrderedField.overlay (hx : OrderedField x) (hy : OrderedField y) :
    OrderedField (overlay x y) := by
  intro v hv
  cases y with
  | none => exact hx v hv
  | some p =>
    cases x with
    | none => exact hy v hv
    | some u =>
      obtain rfl := Option.some.inj hv
      exact Ordered.merge (hx u rfl) p (hy p rfl)

theorem OrderedField.foldl (hx : OrderedField x) (hw : ∀ y ∈ w, OrderedField y) :
    OrderedField (w.foldl Value.overlay x) := by
  induction w generalizing x with
  | nil => exact hx
  | cons y w ih =>
    obtain ⟨hy, hw⟩ := List.forall_mem_cons.1 hw
    exact ih (hx.overlay hy) hw

theorem OrderedField.entry (hx : OrderedField x) (key : String) : OrderedField (entry x key) := by
  intro v hv
  rcases x with _ | u
  · cases hv
  cases u with
  | struct fs => exact orderedFields_iff.1 (hx _ rfl).2 _ (mem_of_lookup hv)
  | _ => cases hv

/-! ### From fields to structs -/

theorem sizeOf_lt_of_lookup {key : String} (h : fs.lookup key = some v) :
    sizeOf v < sizeOf (struct fs) := by
  have hmem := List.sizeOf_lt_of_mem (mem_of_lookup h)
  rw [Prod.mk.sizeOf_spec] at hmem
  rw [struct.sizeOf_spec]
  omega

/-- **Induction over fields.** A field is missing, or null, or it hides all, or it is a struct, for
whose fields the statement holds already. -/
@[elab_as_elim]
theorem OrderedField.induction {motive : (y : Option Value) → OrderedField y → Prop}
    (missing : ∀ h, motive none h) (null : ∀ h, motive (some null) h)
    (solid : ∀ v h, v.isSolid = true → motive (some v) h)
    (struct : ∀ gs (h : OrderedField (some (struct gs))),
      (∀ key, motive (gs.lookup key) (h.entry key)) → motive (some (struct gs)) h)
    (y : Option Value) (hy : OrderedField y) : motive y hy :=
  match y, hy with
  | none, hy => missing hy
  | some .null, hy => null hy
  -- a field of a struct is smaller, and a missing one is the base case
  | some (.struct gs), hy => struct gs hy fun key => by
    have hfields (z : Option Value) (hz : OrderedField z) (hfield : gs.lookup key = z) :
        motive z hz := by
      cases z with
      | none => exact missing hz
      | some w => exact OrderedField.induction missing null solid struct (some w) hz
    exact hfields _ _ rfl
  | some (.bool _), hy | some (.number _), hy | some (.string _), hy | some (.list _), hy =>
    solid _ hy rfl
termination_by sizeOf y
decreasing_by simpa using sizeOf_lt_of_lookup hfield

/-- A struct that is laid over something is a struct in order, of the fields laid over one
another. -/
theorem OrderedField.overlay_struct (hx : OrderedField x)
    (hgs : OrderedField (some (struct gs))) :
    ∃ hs, Value.overlay x (some (struct gs)) = some (struct hs) ∧ Rising hs ∧
      ∀ key, hs.lookup key = Value.overlay (Value.entry x key) (gs.lookup key) := by
  obtain ⟨hs, hoverlay, hlookup⟩ := Value.overlay_struct (hgs _ rfl).1 x
  exact ⟨hs, hoverlay, (hx.overlay hgs _ hoverlay).1, hlookup⟩

/-- Two structs laid over one another are known by their fields. -/
theorem overlay_struct_eq {hs : List (String × Value)} (hx : OrderedField x)
    (hgs : OrderedField (some (struct gs))) (hhs : Rising hs)
    (h : ∀ key, overlay (entry x key) (gs.lookup key) = hs.lookup key) :
    overlay x (some (struct gs)) = some (struct hs) := by
  obtain ⟨ks, hoverlay, hks, hlookup⟩ := hx.overlay_struct hgs
  rw [hoverlay, hks.eq_of_lookup hhs fun key => (hlookup key).trans (h key)]

/-! ### One after the other -/

/-- Over a value that hides everything it does not matter what was there before. -/
theorem foldl_overlay_of_isSolid (h : ∃ v, some v ∈ w ∧ v.isSolid = true) (x y : Option Value) :
    w.foldl overlay x = w.foldl overlay y := by
  induction w generalizing x y with
  | nil =>
    obtain ⟨v, hv, -⟩ := h
    exact absurd hv List.not_mem_nil
  | cons z w ih =>
    obtain ⟨v, hv, hsolid⟩ := h
    rw [List.foldl_cons, List.foldl_cons]
    -- this one hides what was there, or else a later one does
    rcases List.mem_cons.1 hv with rfl | hv
    · rw [overlay_of_isSolid hsolid, overlay_of_isSolid hsolid]
    · exact ih ⟨v, hv, hsolid⟩ _ _

/-- What is laid on is there, or what is laid over it. -/
theorem exists_foldl_overlay (v : Value) (w : List (Option Value)) :
    ∃ v', w.foldl overlay (some v) = some v' := by
  induction w generalizing v with
  | nil => exact ⟨v, rfl⟩
  | cons z w ih =>
    cases z with
    | none => exact ih v
    | some p => exact ih (v.merge p)

/-- A null at the bottom shows only where nothing is laid over it. -/
theorem foldl_overlay_null (w : List (Option Value)) :
    w.foldl overlay (some null) = some ((w.foldl overlay none).getD null) := by
  -- the first thing that is laid on takes the place of the null
  induction w with
  | nil => rfl
  | cons z w ih =>
    cases z with
    | none => exact ih
    | some p =>
      obtain ⟨v, hv⟩ := exists_foldl_overlay p w
      rw [List.foldl_cons, List.foldl_cons, overlay_some, null_merge, none_overlay, hv,
        Option.getD_some]

/-- The fields of what is laid over something are laid over its fields, unless it is solid. -/
theorem entry_overlay (hy : OrderedField y) (hsolid : ∀ v, y = some v → v.isSolid = false)
    (x : Option Value) (key : String) :
    entry (overlay x y) key = overlay (entry x key) (entry y key) := by
  rcases y with _ | v
  · rfl
  cases v with
  | null =>
    -- a null is not laid over anything, and alone it has no fields
    rw [overlay_null]
    rcases x with _ | u <;> rfl
  | struct gs =>
    -- the fields of the two structs are merged
    obtain ⟨hs, hoverlay, hlookup⟩ := overlay_struct (hy _ rfl).1 x
    rw [hoverlay]
    exact hlookup key
  | _ => cases hsolid _ rfl

theorem entry_foldl (hw : ∀ y ∈ w, OrderedField y)
    (hsolid : ∀ v, some v ∈ w → v.isSolid = false) (x : Option Value) (key : String) :
    entry (w.foldl overlay x) key = (w.map (entry · key)).foldl overlay (entry x key) := by
  induction w generalizing x with
  | nil => rfl
  | cons y w ih =>
    obtain ⟨hy, hw⟩ := List.forall_mem_cons.1 hw
    have hfirst : ∀ v, y = some v → v.isSolid = false :=
      fun v hv => hsolid v (hv ▸ List.mem_cons_self)
    rw [List.foldl_cons, List.map_cons, List.foldl_cons, ← entry_overlay hy hfirst]
    exact ih hw (fun v hv => hsolid v (List.mem_cons_of_mem _ hv)) _

/-- **What is laid on twice might as well have been laid on the second time only.** -/
theorem overlay_foldl_overlay (hx : OrderedField x) (hy : OrderedField y)
    (hw : ∀ z ∈ w, OrderedField z) :
    overlay (w.foldl overlay (overlay x y)) y = overlay (w.foldl overlay x) y := by
  induction y, hy using OrderedField.induction generalizing x w with
  | missing => rfl
  | null =>
    -- a null shows where nothing else does, and there it is laid on in the end
    rcases x with _ | u
    · rw [none_overlay, foldl_overlay_null, overlay_null, overlay_null, Option.getD_some]
    · rw [overlay_some, merge_null]
  | solid v _ hv => rw [overlay_of_isSolid hv, overlay_of_isSolid hv]
  | struct gs hgs ih =>
    -- either something in between hides all, or the structs can be taken apart field by field
    by_cases hsolid : ∃ v, some v ∈ w ∧ v.isSolid = true
    · rw [foldl_overlay_of_isSolid hsolid _ x]
    have hopen : ∀ v, some v ∈ w → v.isSolid = false := by
      intro v hv
      exact Bool.eq_false_iff.2 fun h => hsolid ⟨v, hv, h⟩
    obtain ⟨hs, hoverlay, hhs, hlookup⟩ := (hx.foldl hw).overlay_struct hgs
    -- both sides are structs now
    rw [hoverlay]
    refine overlay_struct_eq ((hx.overlay hgs).foldl hw) hgs hhs fun key => ?_
    rw [hlookup, entry_foldl hw hopen, entry_foldl hw hopen,
      entry_overlay hgs (by rintro _ ⟨⟩; rfl)]
    -- the fields in between are those of what is in between, so the induction applies
    refine ih key (hx.entry key) fun z hz => ?_
    obtain ⟨field, hfield, rfl⟩ := List.mem_map.1 hz
    exact (hw field hfield).entry key

end Value

end ConfigLedger
