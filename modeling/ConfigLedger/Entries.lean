/-!
# Entries

`Entries` holds a value for each of some keys, in the order in which the keys first came.
Setting the value of a key that is there keeps its place. The keys are distinct, which is
kept in the type.

`firstBy` drops each item that agrees in some respect with an item before it.
-/

namespace ConfigLedger

/-- The first of the items with each value of an aspect, in the order in which they came. -/
def firstBy {α β : Type} [BEq β] (aspect : α → β) : List α → List α
  | [] => []
  | a :: rest => a :: (firstBy aspect rest).filter fun b => aspect b != aspect a

/-- Sets the value of a key: in its place if the key is there, and behind all others if not. -/
def assign {κ α : Type} [DecidableEq κ] (key : κ) (value : α) : List (κ × α) → List (κ × α)
  | [] => [(key, value)]
  | (k, v) :: rest => if key = k then (key, value) :: rest else (k, v) :: assign key value rest

/-- The keys after setting a value. -/
theorem mem_keys_assign {κ α : Type} [DecidableEq κ] {key x : κ} {value : α}
    {l : List (κ × α)} (h : x ∈ (assign key value l).map Prod.fst) :
    x = key ∨ x ∈ l.map Prod.fst := by
  induction l with
  | nil => simpa [assign] using h
  | cons e rest ih =>
    obtain ⟨k, v⟩ := e
    rw [assign] at h
    split at h
    · -- the value is set at the place of its key
      rcases List.mem_cons.1 h with h | h
      · exact .inl h
      · exact .inr (List.mem_cons_of_mem _ h)
    · -- it is set somewhere behind
      rcases List.mem_cons.1 h with h | h
      · exact .inr (h ▸ List.mem_cons_self)
      · exact (ih h).imp_right (List.mem_cons_of_mem _)

/-- Setting a value keeps the keys distinct. -/
theorem nodup_keys_assign {κ α : Type} [DecidableEq κ] {key : κ} {value : α}
    {l : List (κ × α)} (h : (l.map Prod.fst).Nodup) :
    ((assign key value l).map Prod.fst).Nodup := by
  induction l with
  | nil => simp [assign]
  | cons e rest ih =>
    obtain ⟨k, v⟩ := e
    simp only [List.map_cons, List.nodup_cons] at h
    rw [assign]
    split
    · -- the keys are those that were there
      rename_i hk
      subst hk
      simpa using h
    · -- the head is none of the keys behind it, and not the one that is set
      rename_i hk
      simp only [List.map_cons, List.nodup_cons]
      refine ⟨fun hmem => ?_, ih h.2⟩
      rcases mem_keys_assign hmem with hk' | hmem
      · exact hk hk'.symm
      · exact h.1 hmem

/-- A value for each of some keys, in order of arrival. -/
structure Entries (κ α : Type) where
  toList : List (κ × α)
  distinct : (toList.map Prod.fst).Nodup

namespace Entries

variable {κ α : Type}

/-- No entries. -/
def empty : Entries κ α :=
  ⟨[], by simp⟩

/-- Sets the value of a key. -/
def put [DecidableEq κ] (entries : Entries κ α) (key : κ) (value : α) : Entries κ α :=
  ⟨assign key value entries.toList, nodup_keys_assign entries.distinct⟩

/-- The entries of a list: every key at its first place with its last value. -/
def ofList [DecidableEq κ] (pairs : List (κ × α)) : Entries κ α :=
  pairs.foldl (fun entries pair => entries.put pair.1 pair.2) empty

/-- The keys in order. -/
def keys (entries : Entries κ α) : List κ :=
  entries.toList.map Prod.fst

/-- The values in order. -/
def values (entries : Entries κ α) : List α :=
  entries.toList.map Prod.snd

end Entries

end ConfigLedger
