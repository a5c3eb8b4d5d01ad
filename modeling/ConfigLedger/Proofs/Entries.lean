import ConfigLedger.Entries
import Mathlib.Data.List.Dedup
import Mathlib.Data.List.Induction

/-!
# Entries and first occurrences

`firstBy` keeps an item exactly if no item before it agrees with it (`mem_firstBy`), so what
it keeps differs in the aspect (`nodup_map_firstBy`). Of keys it keeps the first occurrences, while
`List.dedup` keeps the last ones, and where the two orders differ, some two keys tell them apart
(`exists_find?_ne`).

`Entries` are a finite function: `Entries.get?` reads it, and setting a value changes it at one key
(`Entries.get?_put`). A key that is set again stays at its first place
(`Entries.values_foldl_put`), so the entries of a list hold the last item under each key
(`Entries.toList_ofList_map`).
-/

namespace ConfigLedger

variable {α β κ : Type}

/-! ### First occurrences -/

/-- An item is kept if it is the first one with its aspect. -/
theorem mem_firstBy [BEq β] [LawfulBEq β] {aspect : α → β} {l : List α} {a : α} :
    a ∈ firstBy aspect l ↔ l.find? (fun b => aspect b == aspect a) = some a := by
  induction l with
  | nil => simp [firstBy]
  | cons b rest ih =>
    rw [firstBy, List.mem_cons, List.mem_filter, ih, List.find?_cons]
    by_cases h : aspect b = aspect a
    · simp [h, eq_comm]
    · have hab : a ≠ b := fun hab => h (hab ▸ rfl)
      have hne : (aspect b == aspect a) = false := by simpa using h
      simp [hne, hab, Ne.symm h]

theorem nodup_map_firstBy [BEq β] [LawfulBEq β] (aspect : α → β) (l : List α) :
    ((firstBy aspect l).map aspect).Nodup := by
  induction l with
  | nil => simp [firstBy]
  | cons b rest ih =>
    rw [firstBy, List.map_cons, List.nodup_cons]
    constructor
    · simp
    · exact ih.sublist (List.filter_sublist.map aspect)

/-- Where no two items agree, all of them are kept. -/
theorem firstBy_of_nodup [BEq β] [LawfulBEq β] {aspect : α → β} {l : List α}
    (h : (l.map aspect).Nodup) : firstBy aspect l = l := by
  induction l with
  | nil => rfl
  | cons a rest ih =>
    rw [List.map_cons, List.nodup_cons] at h
    rw [firstBy, ih h.2, List.filter_eq_self.2]
    intro b hb
    rw [bne_iff_ne]
    exact fun hab => h.1 (List.mem_map.2 ⟨b, hb, hab⟩)

/-! ### First and last occurrences -/

section
variable [DecidableEq κ] {keys : List κ} {key : κ}

@[simp] theorem mem_firstBy_id : key ∈ firstBy id keys ↔ key ∈ keys := by
  induction keys with
  | nil => simp [firstBy]
  | cons k rest ih =>
    rw [firstBy, List.mem_cons, List.mem_filter, ih, List.mem_cons]
    by_cases h : key = k <;> simp [h]

theorem nodup_firstBy_id (keys : List κ) : (firstBy id keys).Nodup := by
  have h := nodup_map_firstBy id keys
  rwa [List.map_id] at h

theorem firstBy_id_of_nodup (h : keys.Nodup) : firstBy id keys = keys :=
  firstBy_of_nodup (by rwa [List.map_id])

/-- Keys are selected before or after the first occurrences of each are taken. -/
theorem filter_firstBy_id (p : κ → Bool) (keys : List κ) :
    (firstBy id keys).filter p = firstBy id (keys.filter p) := by
  induction keys with
  | nil => rfl
  | cons k rest ih =>
    rw [firstBy, List.filter_cons, List.filter_cons, List.filter_filter]
    -- a key that is selected stands in front on both sides, and is dropped behind
    by_cases hk : p k = true
    · rw [if_pos hk, if_pos hk, firstBy, ← ih, List.filter_filter]
      simp only [Bool.and_comm]
    · -- what is selected differs from a key that is not
      have hdiffers : ∀ key ∈ firstBy id rest, (p key && key != k) = p key := by
        intro key _
        by_cases hkey : key = k
        · simp [hkey, hk]
        · simp [hkey]
      rw [if_neg hk, if_neg hk, ← ih]
      exact List.filter_congr hdiffers

/-- A key behind others comes first there unless it is one of them. -/
theorem firstBy_concat (keys : List κ) (key : κ) :
    firstBy id (keys ++ [key]) =
      if key ∈ keys then firstBy id keys else firstBy id keys ++ [key] := by
  induction keys with
  | nil => simp [firstBy]
  | cons k rest ih =>
    rw [List.cons_append, firstBy, ih, firstBy]
    -- what decides is whether the key stands behind the first one, or is the first one
    by_cases hrest : key ∈ rest
    · rw [if_pos hrest, if_pos (List.mem_cons_of_mem _ hrest)]
    · rw [if_neg hrest, List.filter_append]
      by_cases hkey : key = k
      · simp [hkey]
      · simp [hkey, hrest]

theorem firstBy_id_eq_eraseDups (keys : List κ) : firstBy id keys = keys.eraseDups := by
  induction keys using List.reverseRecOn with
  | nil => rfl
  | append_singleton keys key ih =>
    rw [firstBy_concat, ih, List.eraseDups_append]
    split <;> simp [List.removeAll, List.eraseDups_cons, *]

/-- The last occurrence of a key is the one that stays. -/
theorem find?_reverse_dedup (p : κ → Bool) (keys : List κ) :
    keys.dedup.reverse.find? p = keys.reverse.find? p := by
  induction keys with
  | nil => rfl
  | cons k rest ih =>
    by_cases hmem : k ∈ rest
    · rw [List.dedup_cons_of_mem hmem, ih, List.reverse_cons, List.find?_append]
      -- the key occurs again behind, so the first occurrence is not the last one found
      cases hfound : rest.reverse.find? p with
      | some other => rfl
      | none =>
        have hk : ¬ p k = true := List.find?_eq_none.1 hfound k (List.mem_reverse.2 hmem)
        simp [hk]
    · -- the last occurrence is found where it stands
      rw [List.dedup_cons_of_notMem hmem, List.reverse_cons, List.reverse_cons, List.find?_append,
        List.find?_append, ih]

/-- **Keys in two different orders** differ in which of some two keys comes first. -/
theorem exists_find?_ne {others : List κ} (hnodup : keys.Nodup) (hperm : keys.Perm others)
    (hne : keys ≠ others) :
    ∃ a b, a ≠ b ∧ keys.find? (fun k => k = a ∨ k = b) = some a ∧
      others.find? (fun k => k = a ∨ k = b) = some b := by
  induction keys generalizing others with
  | nil => exact absurd hperm.nil_eq hne
  | cons k rest ih =>
    cases others with
    | nil => exact absurd hperm.eq_nil hne
    | cons l others =>
      -- the lists part at their first keys, or at some pair behind
      by_cases hkl : k = l
      · subst hkl
        -- the two keys lie in the rests, so neither is the one in front
        have hrest : rest ≠ others := fun heq => hne (congrArg _ heq)
        obtain ⟨hk, hnodup⟩ := List.nodup_cons.1 hnodup
        obtain ⟨a, b, hab, ha, hb⟩ := ih hnodup (hperm.cons_inv) hrest
        have hka : k ≠ a := by
          rintro rfl
          exact hk (List.mem_of_find?_eq_some ha)
        have hkb : k ≠ b := by
          rintro rfl
          exact hk (hperm.cons_inv.mem_iff.2 (List.mem_of_find?_eq_some hb))
        refine ⟨a, b, hab, ?_, ?_⟩
        · rwa [List.find?_cons_of_neg (by simp [hka, hkb])]
        · rwa [List.find?_cons_of_neg (by simp [hka, hkb])]
      · exact ⟨k, l, hkl, List.find?_cons_of_pos (by simp), List.find?_cons_of_pos (by simp)⟩

/-- Keys that a function tells apart can be replaced by its values before or after the first
occurrences are taken. -/
theorem map_firstBy_id [DecidableEq β] {f : κ → β}
    (hf : ∀ a ∈ keys, ∀ b ∈ keys, f a = f b → a = b) :
    (firstBy id keys).map f = firstBy id (keys.map f) := by
  induction keys using List.reverseRecOn with
  | nil => rfl
  | append_singleton keys key ih =>
    -- the values meet no earlier than the keys do
    have hmem : f key ∈ keys.map f ↔ key ∈ keys := by
      refine ⟨fun h => ?_, List.mem_map_of_mem⟩
      obtain ⟨a, ha, hfa⟩ := List.mem_map.1 h
      exact hf a (by simp [ha]) key (by simp) hfa ▸ ha
    have ih := ih fun a ha b hb => hf a (by simp [ha]) b (by simp [hb])
    rw [List.map_append, List.map_singleton, firstBy_concat, firstBy_concat]
    by_cases hkey : key ∈ keys
    · rw [if_pos hkey, if_pos (hmem.2 hkey), ih]
    · rw [if_neg hkey, if_neg (hmem.not.2 hkey), List.map_append, ih, List.map_singleton]

/-- The last of the items under each key, in the order in which the keys first come. -/
def lastOfEach (key : α → κ) (xs : List α) : List α :=
  (firstBy id (xs.map key)).filterMap fun k => xs.reverse.find? fun x => key x = k

theorem mem_of_mem_lastOfEach {key : α → κ} {xs : List α} {x : α} (h : x ∈ lastOfEach key xs) :
    x ∈ xs := by
  obtain ⟨k, -, hfound⟩ := List.mem_filterMap.1 h
  exact List.mem_reverse.1 (List.mem_of_find?_eq_some hfound)

/-- Every key has a last item under it. -/
theorem map_lastOfEach (key : α → κ) (xs : List α) :
    (lastOfEach key xs).map key = firstBy id (xs.map key) := by
  rw [lastOfEach, List.map_filterMap]
  -- every key is that of some item, and the last of them is found from behind
  have hfound : ∀ k ∈ firstBy id (xs.map key),
      (xs.reverse.find? fun x => key x = k).map key = some k := by
    intro k hk
    obtain ⟨x, hx, rfl⟩ := List.mem_map.1 (mem_firstBy_id.1 hk)
    cases hfind : xs.reverse.find? fun y => key y = key x with
    | none => exact absurd (List.find?_eq_none.1 hfind x (List.mem_reverse.2 hx)) (by simp)
    | some y =>
      have hy := List.find?_some hfind
      simpa using hy
  rw [List.filterMap_congr hfound, List.filterMap_some]

end

/-! ### Entries -/

section
variable [DecidableEq κ] {key other : κ} {value : α}

theorem lookup_cons_eq_ite (k : κ) (v : α) (l : List (κ × α)) :
    ((k, v) :: l).lookup key = if key = k then some v else l.lookup key := by
  rw [List.lookup_cons]
  split
  · next h => rw [if_pos (beq_iff_eq.1 h)]
  · next h => rw [if_neg (beq_eq_false_iff_ne.1 h)]

theorem lookup_assign (l : List (κ × α)) :
    (assign key value l).lookup other = if other = key then some value else l.lookup other := by
  induction l with
  | nil => rw [assign, lookup_cons_eq_ite]
  | cons e rest ih =>
    obtain ⟨k, v⟩ := e
    rw [assign]
    -- the key is found either here or behind
    split
    · next hk =>
      subst hk
      rw [lookup_cons_eq_ite, lookup_cons_eq_ite]
      split <;> rfl
    · next hk =>
      rw [lookup_cons_eq_ite, lookup_cons_eq_ite, ih]
      by_cases h : other = k
      · have : ¬ other = key := fun hkey => hk (hkey.symm.trans h)
        rw [if_pos h, if_neg this, if_pos h]
      · rw [if_neg h, if_neg h]

namespace Entries

variable {entries : Entries κ α}

/-- The value of a key. -/
def get? (entries : Entries κ α) (key : κ) : Option α :=
  entries.toList.lookup key

@[simp] theorem get?_empty : (empty : Entries κ α).get? key = none := rfl

/-- Setting a value changes it at that key alone. -/
theorem get?_put : (entries.put key value).get? other =
    if other = key then some value else entries.get? other :=
  lookup_assign _

theorem mem_iff_lookup {l : List (κ × α)} (hl : (l.map Prod.fst).Nodup) :
    (key, value) ∈ l ↔ l.lookup key = some value := by
  induction l generalizing value with
  | nil => simp
  | cons e rest ih =>
    obtain ⟨k, v⟩ := e
    rw [List.map_cons, List.nodup_cons] at hl
    rw [List.mem_cons, lookup_cons_eq_ite, ih hl.2, Prod.mk.injEq]
    split
    · next hkey =>
      -- the key stands at the front, hence nowhere else
      subst hkey
      have hnone : rest.lookup key ≠ some value := fun hrest =>
        hl.1 (List.mem_map.2 ⟨(key, value), (ih hl.2).2 hrest, rfl⟩)
      simp [hnone, eq_comm]
    · next hkey => simp [hkey]

theorem assign_of_lookup {l : List (κ × α)} (h : l.lookup key = some value) :
    assign key value l = l := by
  induction l with
  | nil => cases h
  | cons e rest ih =>
    obtain ⟨k, v⟩ := e
    rw [lookup_cons_eq_ite] at h
    rw [assign]
    split
    · -- the entry is there, and it has this value already
      next hkey =>
      rw [if_pos hkey] at h
      rw [hkey, Option.some.inj h]
    · next hkey =>
      rw [if_neg hkey] at h
      rw [ih h]

theorem assign_of_notMem {l : List (κ × α)} (h : key ∉ l.map Prod.fst) :
    assign key value l = l ++ [(key, value)] := by
  induction l with
  | nil => rfl
  | cons e rest ih =>
    obtain ⟨k, v⟩ := e
    rw [List.map_cons, List.mem_cons, not_or] at h
    rw [assign, if_neg h.1, ih h.2, List.cons_append]

/-- **Keys that are looked up one after the other** stand where they came first. -/
theorem toList_foldl_put (f : κ → Option α) (keys : List κ) :
    (keys.foldl (fun entries key => ((f key).map (entries.put key)).getD entries)
      Entries.empty).toList = (firstBy id keys).filterMap fun key => (f key).map (key, ·) := by
  -- one more key at the end changes the entries by one assignment at most
  induction keys using List.reverseRecOn with
  | nil => rfl
  | append_singleton keys key ih =>
    obtain ⟨entries, hentries⟩ : ∃ entries, entries = keys.foldl (fun entries key =>
        ((f key).map (entries.put key)).getD entries) Entries.empty := ⟨_, rfl⟩
    rw [← hentries] at ih
    rw [List.foldl_append, List.foldl_cons, List.foldl_nil, ← hentries, firstBy_concat]
    cases hf : f key with
    | none =>
      -- nothing is found, so the key leaves no entry
      rw [Option.map_none, Option.getD_none, ih]
      split
      · rfl
      · simp [hf]
    | some value =>
      rw [Option.map_some, Option.getD_some]
      change assign key value entries.toList = _
      by_cases hmem : key ∈ keys
      · -- the key has its entry already
        have hlookup : entries.toList.lookup key = some value := by
          rw [← mem_iff_lookup entries.distinct, ih, List.mem_filterMap]
          exact ⟨key, mem_firstBy_id.2 hmem, by rw [hf, Option.map_some]⟩
        rw [assign_of_lookup hlookup, if_pos hmem, ih]
      · -- the first entry of its key stands at the end
        have hfresh : key ∉ entries.toList.map Prod.fst := by
          rw [ih]
          intro h
          obtain ⟨pair, hpair, rfl⟩ := List.mem_map.1 h
          obtain ⟨k, hk, hpair⟩ := List.mem_filterMap.1 hpair
          obtain ⟨v, -, rfl⟩ := Option.map_eq_some_iff.1 hpair
          exact hmem (mem_firstBy_id.1 hk)
        rw [assign_of_notMem hfresh, if_neg hmem, ih, List.filterMap_append]
        simp [hf]

theorem values_foldl_put (f : κ → Option α) (keys : List κ) :
    (keys.foldl (fun entries key => ((f key).map (entries.put key)).getD entries)
      Entries.empty).values = (firstBy id keys).filterMap f := by
  rw [values, toList_foldl_put, List.map_filterMap]
  refine List.filterMap_congr fun key _ => ?_
  cases f key <;> rfl

/-- The entries of some of the keys. -/
def select (entries : Entries κ α) (p : κ → Bool) : Entries κ α :=
  ⟨entries.toList.filter fun e => p e.1, entries.distinct.sublist (List.filter_sublist.map _)⟩

omit [DecidableEq κ] in
@[simp] theorem toList_select (entries : Entries κ α) (p : κ → Bool) :
    (entries.select p).toList = entries.toList.filter fun e => p e.1 := rfl

omit [DecidableEq κ] in
/-- Entries are their list. -/
theorem eq_of_toList {entries others : Entries κ α} (h : entries.toList = others.toList) :
    entries = others := by
  cases entries
  cases others
  simpa using h

/-- Of keys that are looked up, some can be selected before. -/
theorem select_foldl_put {f f' : κ → Option α} {p : κ → Bool}
    (hf : ∀ key, p key = true → f key = f' key) (keys : List κ) :
    (keys.foldl (fun entries key => ((f key).map (entries.put key)).getD entries)
      Entries.empty).select p =
        (keys.filter p).foldl (fun entries key => ((f' key).map (entries.put key)).getD entries)
          Entries.empty := by
  refine eq_of_toList ?_
  -- both sides are lists of what is found, in the order of the keys that are selected
  rw [toList_select, toList_foldl_put, toList_foldl_put, ← filter_firstBy_id, List.filter_filterMap,
    List.filterMap_filter]
  refine List.filterMap_congr fun key _ => ?_
  by_cases hkey : p key = true
  · rw [if_pos hkey, ← hf key hkey]
    cases f key <;> simp [hkey]
  · rw [if_neg hkey]
    cases f key <;> simp [hkey]

theorem mem_toList_iff : (key, value) ∈ entries.toList ↔ entries.get? key = some value :=
  mem_iff_lookup entries.distinct

theorem keys_assign_of_mem {l : List (κ × α)} (h : key ∈ l.map Prod.fst) :
    (assign key value l).map Prod.fst = l.map Prod.fst := by
  induction l with
  | nil => cases h
  | cons e rest ih =>
    obtain ⟨k, v⟩ := e
    rw [assign]
    split
    · next hkey => rw [hkey, List.map_cons, List.map_cons]
    · next hkey =>
      rw [List.map_cons, List.map_cons, ih ((List.mem_cons.1 h).resolve_left hkey)]

/-- A key that is new comes last. -/
theorem keys_put (entries : Entries κ α) (key : κ) (value : α) :
    (entries.put key value).keys =
      if key ∈ entries.keys then entries.keys else entries.keys ++ [key] := by
  change (assign key value entries.toList).map Prod.fst = _
  split
  · next h => exact keys_assign_of_mem h
  · next h =>
    rw [assign_of_notMem h, List.map_append, List.map_singleton]
    rfl

/-- Entries are their keys with what is found there. -/
theorem toList_eq_filterMap_keys (entries : Entries κ α) :
    entries.toList = entries.keys.filterMap fun key => (entries.get? key).map (key, ·) := by
  have hfound : ∀ e ∈ entries.toList, (entries.get? e.1).map (e.1, ·) = some e := by
    intro e he
    rw [get?, (mem_iff_lookup entries.distinct).1 he, Option.map_some]
  rw [keys, List.filterMap_map]
  exact (List.filterMap_some.symm).trans (List.filterMap_congr hfound).symm

theorem ofList_map_concat (key : α → κ) (value : α → β) (xs : List α) (x : α) :
    ofList ((xs ++ [x]).map fun x => (key x, value x)) =
      (ofList (xs.map fun x => (key x, value x))).put (key x) (value x) := by
  rw [ofList, List.map_append, List.foldl_append]
  rfl

theorem keys_ofList_map (key : α → κ) (value : α → β) (xs : List α) :
    (ofList (xs.map fun x => (key x, value x))).keys = firstBy id (xs.map key) := by
  induction xs using List.reverseRecOn with
  | nil => rfl
  | append_singleton xs x ih =>
    rw [ofList_map_concat, keys_put, ih, List.map_append, List.map_singleton, firstBy_concat]
    simp only [mem_firstBy_id]

theorem get?_ofList_map (key : α → κ) (value : α → β) (xs : List α) (k : κ) :
    (ofList (xs.map fun x => (key x, value x))).get? k =
      (xs.reverse.find? fun x => key x = k).map value := by
  induction xs using List.reverseRecOn with
  | nil => rfl
  | append_singleton xs x ih =>
    rw [ofList_map_concat, get?_put, List.reverse_append, List.reverse_singleton,
      List.singleton_append, List.find?_cons]
    by_cases hk : key x = k
    · simp [hk]
    · simpa [hk, Ne.symm hk] using ih

/-- **Every key stands at its first place** with the value of the last item under it. -/
theorem toList_ofList_map (key : α → κ) (value : α → β) (xs : List α) :
    (ofList (xs.map fun x => (key x, value x))).toList =
      (lastOfEach key xs).map fun x => (key x, value x) := by
  rw [toList_eq_filterMap_keys, keys_ofList_map, lastOfEach, List.map_filterMap]
  refine List.filterMap_congr fun k _ => ?_
  rw [get?_ofList_map]
  cases hfind : xs.reverse.find? fun x => key x = k with
  | none => rfl
  | some x =>
    obtain rfl : key x = k := by simpa using List.find?_some hfind
    rfl

end Entries
end

end ConfigLedger
