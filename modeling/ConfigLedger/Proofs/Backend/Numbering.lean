import ConfigLedger.Proofs.Backend.History

/-!
# Versions without gaps

A history is `Numbered` if its versions are `1, 2, …` without a gap, and a collection is if all
of its histories are. In such a collection the versions that are free are known: of those that
follow a version that is there, or that follow none, only the one behind the newest is free.

So a document whose version follows the newest one is always added (`Numbered.insert?_next`).
And if its version follows one that was the newest at some earlier time, then it is added only if
that one still is the newest (`Numbered.newest_of_insert?`). Either way the history of its key
becomes longer by this document, and the numbering goes on (`Numbered.of_insert?`).

In other collections there may be gaps. Still the version behind the newest one is free, unless the
newest one is the last that there is (`insert?_behind_newest`).
-/

namespace ConfigLedger

open Binary64 (exactBound)

/-- Documents whose versions count up from one. -/
def Numbered (l : List Document) : Prop :=
  l.map (fun d => d.version.toNat) = List.range' 1 l.length

/-- The version that follows the newest one, if there is one. -/
def nextVersion (newest : Option Document) : UInt64 :=
  (newest.map fun d => d.version + 1).getD 1

namespace Numbered

variable {l : List Document} {d : Document}

theorem nil : Numbered [] := rfl

theorem concat (h : Numbered l) (hd : d.version.toNat = l.length + 1) : Numbered (l ++ [d]) := by
  rw [Numbered] at h ⊢
  rw [List.map_append, h, List.length_append, List.length_singleton, List.range'_concat,
    List.map_singleton, hd, Nat.one_mul, Nat.add_comm]

theorem version_bounds (h : Numbered l) (hd : d ∈ l) :
    1 ≤ d.version.toNat ∧ d.version.toNat ≤ l.length := by
  -- the versions are the numbers from one up to the length
  have hmem : d.version.toNat ∈ l.map fun d => d.version.toNat := List.mem_map.2 ⟨d, hd, rfl⟩
  rw [h, List.mem_range'_1] at hmem
  omega

/-- No version is left out. -/
theorem exists_version (h : Numbered l) {n : Nat} (hpos : 1 ≤ n) (hn : n ≤ l.length) :
    ∃ d ∈ l, d.version.toNat = n := by
  have hmem : n ∈ l.map fun d => d.version.toNat := by
    rw [h, List.mem_range'_1]
    omega
  exact List.mem_map.1 hmem

theorem version_getLast? (h : Numbered l) (hlast : l.getLast? = some d) :
    d.version.toNat = l.length := by
  have hmap : (l.map fun d => d.version.toNat).getLast? = some d.version.toNat := by
    rw [List.getLast?_map, hlast, Option.map_some]
  rw [h, List.getLast?_range'] at hmap
  split at hmap
  · cases hmap
  · next hne =>
    rw [Option.some.injEq] at hmap
    omega

end Numbered

namespace Collection

variable {c c' : Collection} {d : Document} {key : Key}

/-- All histories count up from one. -/
def Numbered (c : Collection) : Prop :=
  ∀ key, ConfigLedger.Numbered (c.history key)

/-- No key has as many versions as binary64 numbers can tell apart. -/
def Few (c : Collection) : Prop :=
  ∀ key, (c.history key).length < exactBound

theorem Numbered.empty : empty.Numbered := fun _ => ConfigLedger.Numbered.nil

/-- A short history has versions that can be told apart. -/
theorem Numbered.exactAt (h : c.Numbered) (hfew : (c.history key).length < exactBound) :
    c.ExactAt key :=
  fun _ hd => ((h key).version_bounds hd).2.trans_lt hfew

theorem Numbered.exact (h : c.Numbered) (hfew : c.Few) : c.Exact :=
  fun d hd => h.exactAt (hfew d.key) d (mem_history.2 ⟨hd, rfl⟩)

theorem Numbered.version_newest (h : c.Numbered) (hd : c.newest key = some d) :
    d.version.toNat = (c.history key).length :=
  (h key).version_getLast? hd

/-- Behind a version there is room, unless it is the last one there is. -/
theorem toNat_nextVersion {newest : Option Document}
    (hroom : ∀ d, newest = some d → d.version.toNat + 1 < 2 ^ 64) :
    (nextVersion newest).toNat = (newest.map fun d => d.version.toNat).getD 0 + 1 := by
  cases newest with
  | none => rfl
  | some d =>
    change (d.version + 1).toNat = d.version.toNat + 1
    rw [UInt64.toNat_add, UInt64.toNat_one, Nat.mod_eq_of_lt (hroom d rfl)]

theorem toNat_nextVersion_newest
    (hbound : ∀ d ∈ c.history key, d.version.toNat + 1 < 2 ^ 64) :
    (nextVersion (c.newest key)).toNat =
      ((c.newest key).map fun d => d.version.toNat).getD 0 + 1 :=
  toNat_nextVersion fun d hd => hbound d (List.mem_of_getLast? hd)

theorem version_lt_nextVersion (hbound : ∀ d ∈ c.history key, d.version.toNat + 1 < 2 ^ 64)
    (hd : d ∈ c.history key) : d.version < nextVersion (c.newest key) := by
  obtain ⟨hmem, hkey⟩ := mem_history.1 hd
  have hnext := toNat_nextVersion_newest hbound
  cases hnewest : c.newest key with
  | none => exact absurd hkey (newest_eq_none_iff.1 hnewest d hmem)
  | some last =>
    -- what stands there is no greater than the newest version
    have hle := UInt64.le_iff_toNat_le.1 (version_le_newest hnewest hmem hkey)
    rw [hnewest, Option.map_some, Option.getD_some] at hnext
    rw [UInt64.lt_iff_toNat_lt, hnext]
    omega

/-- **The version behind the newest one is free.** -/
theorem insert?_behind_newest
    (hbound : ∀ d ∈ c.history key, d.version.toNat + 1 < 2 ^ 64) (hkey : d.key = key)
    (hversion : d.version = nextVersion (c.newest key)) : ∃ c', c.insert? d = some c' := by
  rw [← Option.isSome_iff_exists, Option.isSome_iff_ne_none, Ne, insert?_eq_none_iff]
  rintro ⟨e, he, hekey, heversion⟩
  have hlt := version_lt_nextVersion hbound (mem_history.2 ⟨he, hekey.trans hkey⟩)
  rw [heversion, hversion] at hlt
  exact UInt64.lt_irrefl _ hlt

theorem ExactAt.version_add_one_lt (h : c.ExactAt key) :
    ∀ d ∈ c.history key, d.version.toNat + 1 < 2 ^ 64 := by
  intro d hd
  have hlt : d.version.toNat < exactBound := h d hd
  have hbound : exactBound = 0x20000000000000 := rfl
  omega

theorem ExactAt.insert?_next (h : c.ExactAt key) (hkey : d.key = key)
    (hversion : d.version = nextVersion (c.newest key)) : ∃ c', c.insert? d = some c' :=
  insert?_behind_newest h.version_add_one_lt hkey hversion

/-- What is added behind the newest version is the newest one afterwards. -/
theorem ExactAt.history_of_insert?_next (h : c.ExactAt key) (hkey : d.key = key)
    (hversion : d.version = nextVersion (c.newest key)) (hinsert : c.insert? d = some c') :
    c'.history key = c.history key ++ [d] := by
  rw [history_of_insert? hinsert, if_pos hkey]
  intro e he hekey
  rw [hversion]
  exact version_lt_nextVersion h.version_add_one_lt (mem_history.2 ⟨he, hekey.trans hkey⟩)

/-- The version behind the newest is the next number. -/
theorem Numbered.toNat_next (h : c.Numbered) (hfew : (c.history key).length < exactBound) :
    (nextVersion (c.newest key)).toNat = (c.history key).length + 1 := by
  rw [toNat_nextVersion_newest (h.exactAt hfew).version_add_one_lt]
  cases hnewest : c.newest key with
  | none => rw [List.getLast?_eq_none_iff.1 hnewest, Option.map_none]; rfl
  | some d => rw [Option.map_some, Option.getD_some, h.version_newest hnewest]

/-- **A version that follows one that was the newest is free only if that one still is.** -/
theorem Numbered.newest_of_insert? (h : c.Numbered)
    (hfew : (c.history d.key).length < exactBound) {found : Option Document}
    (hfound : ∀ e, found = some e → e ∈ c.documents ∧ e.key = d.key)
    (hd : d.version = nextVersion found) (hinsert : c.insert? d = some c') :
    c.newest d.key = found := by
  have hhistory {e : Document} (he : found = some e) : e ∈ c.history d.key :=
    mem_history.2 (hfound e he)
  have hbounds {e : Document} (he : found = some e) := (h d.key).version_bounds (hhistory he)
  have hversion := toNat_nextVersion fun e he =>
    (h.exactAt hfew).version_add_one_lt e (hhistory he)
  rw [← hd] at hversion
  -- the version is free, so the history does not reach it
  have hlength : (c.history d.key).length < d.version.toNat := by
    by_contra hle
    obtain ⟨e, he, heq⟩ := (h d.key).exists_version (by omega) (not_lt.1 hle)
    obtain ⟨he, hkey⟩ := mem_history.1 he
    exact not_mem_of_insert?_eq_some hinsert he hkey (UInt64.toNat_inj.1 heq)
  cases found with
  | none =>
    -- the version is the first one
    rw [Option.map_none, Option.getD_none] at hversion
    have hnil : c.history d.key = [] := List.eq_nil_of_length_eq_zero (by omega)
    rw [newest, hnil, List.getLast?_nil]
  | some e =>
    -- the history ends with the version that was found, so that one is the newest
    rw [Option.map_some, Option.getD_some] at hversion
    have hle := (hbounds rfl).2
    cases hnewest : c.newest d.key with
    | none =>
      rw [List.getLast?_eq_none_iff.1 hnewest] at hhistory
      cases hhistory rfl
    | some last =>
      have hlast := h.version_newest hnewest
      obtain ⟨hmem, hkey⟩ := mem_documents_of_newest hnewest
      refine congrArg some (eq_of_sameVersion hmem (hfound e rfl).1 (Document.sameVersion_iff.2 ?_))
      exact ⟨hkey.trans (hfound e rfl).2.symm, UInt64.toNat_inj.1 (by omega)⟩

/-- **The numbering goes on.** A document that follows the newest version of its key extends the
history of that key and leaves the others. -/
theorem Numbered.of_insert? (h : c.Numbered) (hfew : (c.history d.key).length < exactBound)
    (hd : d.version = nextVersion (c.newest d.key)) (hinsert : c.insert? d = some c') :
    c'.Numbered ∧
      ∀ key, c'.history key = if d.key = key then c.history key ++ [d] else c.history key := by
  -- the key of the document is extended, and the others are not touched
  have hhistory (key : Key) :
      c'.history key = if d.key = key then c.history key ++ [d] else c.history key := by
    split
    · next hkey =>
      subst hkey
      exact (h.exactAt hfew).history_of_insert?_next rfl hd hinsert
    · next hne => exact history_of_insert?_of_ne hinsert hne
  -- so the numbering of that key has to be looked at only
  refine ⟨fun key => ?_, hhistory⟩
  rw [hhistory]
  split
  · next hkey =>
    subst hkey
    refine (h d.key).concat ?_
    rw [hd, h.toNat_next hfew]
  · exact h key

/-- The version behind the newest is free. -/
theorem Numbered.insert?_next (h : c.Numbered) (hfew : (c.history d.key).length < exactBound)
    (hd : d.version = nextVersion (c.newest d.key)) : ∃ c', c.insert? d = some c' :=
  (h.exactAt hfew).insert?_next rfl hd

end Collection
end ConfigLedger
