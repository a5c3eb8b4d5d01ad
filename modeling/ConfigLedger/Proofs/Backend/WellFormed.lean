import ConfigLedger.Proofs.Backend.Numbering

/-!
# Well-formed histories

A version succeeds the one below it if it is a tombstone that deletes a live version and keeps
its time of creation, or if it is live and takes its time of creation from a live version below,
or from itself if there is none (`Document.Succeeds`). A collection is well formed if its
histories are numbered and every version succeeds the one directly below it.

`WellFormed.insert?` is what all writers rely on. They compute a version from the newest one that
they found, which may be outdated by the time they add it. If it is added nonetheless, then the
numbering leaves no other possibility than that it still was the newest one.
-/

namespace ConfigLedger

open Binary64 (exactBound)

/-- How a version follows the one directly below it, if there is one. -/
structure Document.Succeeds (below : Option Document) (d : Document) : Prop where
  /-- A tombstone deletes a live version and carries its time of creation. -/
  tombstone : d.isTombstone = true →
    ∃ e, below = some e ∧ e.isTombstone = false ∧ d.created = e.created
  /-- A live version carries the time of creation of a live version, or else its own time. -/
  live : d.isTombstone = false →
    d.created = ((below.bind Document.record?).map Record.created).getD d.updated

namespace Collection

variable {c c' : Collection} {d e : Document} {found : Option Document}

/-- The version directly below another one. -/
def below (c : Collection) (d : Document) : Option Document :=
  c.documents.find? fun e => decide (e.key = d.key ∧ e.version + 1 = d.version)

/-- All histories are numbered, and each version succeeds the one directly below it. -/
structure WellFormed (c : Collection) : Prop where
  numbered : c.Numbered
  succeeds : ∀ d ∈ c.documents, d.Succeeds (c.below d)

/-! ### The version below -/

theorem below_eq_some_iff :
    c.below d = some e ↔ e ∈ c.documents ∧ e.key = d.key ∧ e.version + 1 = d.version := by
  rw [below]
  constructor
  · intro h
    exact ⟨List.mem_of_find?_eq_some h, by simpa using List.find?_some h⟩
  · -- there is a version with this number, so the search does not fail
    rintro ⟨he, hkey, hversion⟩
    cases hfind : c.documents.find? fun e => decide (e.key = d.key ∧ e.version + 1 = d.version) with
    | none =>
      have := List.find?_eq_none.1 hfind e he
      simp [hkey, hversion] at this
    | some f =>
      -- the version below is determined by its number
      obtain ⟨hfkey, hfversion⟩ : f.key = d.key ∧ f.version + 1 = d.version := by
        simpa using List.find?_some hfind
      have hsame : f.version = e.version :=
        (UInt64.add_left_inj 1).1 (hfversion.trans hversion.symm)
      rw [eq_of_sameVersion (List.mem_of_find?_eq_some hfind) he
        (Document.sameVersion_iff.2 ⟨hfkey.trans hkey.symm, hsame⟩)]

theorem below_eq_none_iff :
    c.below d = none ↔ ∀ e ∈ c.documents, e.key = d.key → e.version + 1 ≠ d.version := by
  rw [below, List.find?_eq_none]
  simp

/-- Nothing stands below the first version. -/
theorem Numbered.below_eq_none (h : c.Numbered) (hd : d.version = 1) : c.below d = none := by
  rw [below_eq_none_iff, hd]
  intro e he hkey hversion
  have hzero : e.version = 0 :=
    (UInt64.add_left_inj 1).1 (hversion.trans (UInt64.zero_add 1).symm)
  have := ((h e.key).version_bounds (mem_history.2 ⟨he, rfl⟩)).1
  rw [hzero] at this
  exact absurd this (by decide)

/-- Some version stands below every other one. -/
theorem Numbered.exists_below (h : c.Numbered) (hd : d ∈ c.documents) (hne : d.version ≠ 1) :
    ∃ e, c.below d = some e := by
  obtain ⟨hpos, hle⟩ := (h d.key).version_bounds (mem_history.2 ⟨hd, rfl⟩)
  -- the number below is positive, so it is in the history
  have hone : d.version.toNat ≠ 1 := fun hone => hne (UInt64.toNat_inj.1 hone)
  obtain ⟨e, he, hversion⟩ := (h d.key).exists_version (n := d.version.toNat - 1)
    (by omega) (by omega)
  obtain ⟨he, hkey⟩ := mem_history.1 he
  refine ⟨e, below_eq_some_iff.2 ⟨he, hkey, ?_⟩⟩
  rw [← UInt64.toNat_inj, UInt64.toNat_add, hversion, UInt64.toNat_one]
  have := d.version.toNat_lt
  omega

/-- What stands below a version stays there while others are added. -/
theorem Numbered.below_of_subset (h : c.Numbered) (h' : c'.Numbered)
    (hsub : c.documents ⊆ c'.documents) (hd : d ∈ c.documents) : c'.below d = c.below d := by
  by_cases hone : d.version = 1
  · rw [h.below_eq_none hone, h'.below_eq_none hone]
  · obtain ⟨e, he⟩ := h.exists_below hd hone
    obtain ⟨hmem, hrest⟩ := below_eq_some_iff.1 he
    rw [he, below_eq_some_iff]
    exact ⟨hsub hmem, hrest⟩

/-! ### Well-formed collections -/

namespace WellFormed

theorem empty : empty.WellFormed :=
  ⟨Numbered.empty, by simp [Collection.empty]⟩

/-- The first version of a key is live. -/
theorem live_of_version_eq_one (h : c.WellFormed) (hd : d ∈ c.documents) (hone : d.version = 1) :
    d.isTombstone = false := by
  rw [Bool.eq_false_iff]
  intro htombstone
  obtain ⟨e, he, -⟩ := (h.succeeds d hd).tombstone htombstone
  rw [h.numbered.below_eq_none hone] at he
  cases he

/-- **A version that is added succeeds the one it was computed from**, which is the one directly
below it, and the collection stays well formed. -/
theorem insert? (h : c.WellFormed) (hfew : (c.history d.key).length < exactBound)
    (hfound : ∀ e, found = some e → e ∈ c.documents ∧ e.key = d.key)
    (hd : d.version = nextVersion found) (hsucceeds : d.Succeeds found)
    (hinsert : c.insert? d = some c') : c'.WellFormed ∧ c'.below d = found := by
  have hnewest := h.numbered.newest_of_insert? hfew hfound hd hinsert
  rw [← hnewest] at hd
  -- the addition follows the newest version, so the numbering goes on
  obtain ⟨hnumbered, -⟩ := h.numbered.of_insert? hfew hd hinsert
  have hbelow : c'.below d = found := by
    rw [hnewest] at hd
    cases found with
    | none => exact hnumbered.below_eq_none hd
    | some e =>
      obtain ⟨he, hkey⟩ := hfound e rfl
      exact below_eq_some_iff.2 ⟨subset_insert? hinsert he, hkey, hd.symm⟩
  -- the versions that were there keep the versions below them
  refine ⟨⟨hnumbered, fun e he => ?_⟩, hbelow⟩
  rcases (mem_of_insert?_eq_some hinsert).1 he with rfl | he
  · rw [hbelow]
    exact hsucceeds
  · -- the other versions had theirs before the addition
    rw [h.numbered.below_of_subset hnumbered (subset_insert? hinsert) he]
    exact h.succeeds e he

end WellFormed

end Collection
end ConfigLedger
