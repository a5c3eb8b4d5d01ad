import ConfigLedger.Backend.Memory
import ConfigLedger.Proofs.Backend.Query
import Mathlib.Data.List.Pairwise

/-!
# What a collection holds

A collection is known by its members: two collections with the same members are equal
(`Collection.eq_of_mem_iff`), and a key and a version are borne by one member at most
(`Collection.eq_of_sameVersion`). Each way to add documents is described by the members
afterwards, and an addition that is refused leaves the collection as it was.
-/

namespace ConfigLedger

namespace Document

theorem sameVersion_iff {d e : Document} :
    d.sameVersion e = true ↔ d.key = e.key ∧ d.version = e.version := by
  rw [sameVersion, Bool.and_eq_true, beq_iff_eq, beq_iff_eq]

theorem sameVersion_comm (d e : Document) : d.sameVersion e = e.sameVersion d := by
  rw [Bool.eq_iff_iff, sameVersion_iff, sameVersion_iff, eq_comm, @eq_comm _ d.version]

/-- Under one key the order of documents is that of their versions. -/
theorem before_iff_version_lt {d e : Document} (h : d.key = e.key) :
    d.Before e ↔ d.version < e.version := by
  simp [Before, h, Key.not_precedes_self]

end Document

theorem mem_putDocument {d x : Document} {l : List Document} (hl : l.Pairwise Document.Before) :
    x ∈ putDocument d l ↔ x = d ∨ (x ∈ l ∧ d.sameVersion x = false) := by
  induction l with
  | nil => simp [putDocument]
  | cons e rest ih =>
    obtain ⟨he, hrest⟩ := List.pairwise_cons.1 hl
    -- what stands behind a document is another version
    have hother {a : Document} (ha : a.Before e ∨ a.sameVersion e = true) :
        ∀ y ∈ rest, a.sameVersion y = false := by
      intro y hy
      rw [Bool.eq_false_iff]
      intro hsame
      have hbefore : a.Before y := by
        rcases ha with ha | ha
        · exact ha.trans (he y hy)
        · exact (he y hy).of_sameVersion_left ha
      obtain ⟨hkey, hversion⟩ := Document.sameVersion_iff.1 hsame
      rw [Document.before_iff_version_lt hkey, hversion] at hbefore
      exact UInt64.lt_irrefl _ hbefore
    -- the three cases of `putDocument`: in the place of its version, at the head, further behind
    rw [putDocument]
    split
    · next hsame =>
      have := hother (.inr hsame)
      simp only [List.mem_cons]
      constructor
      · rintro (rfl | hx)
        · exact .inl rfl
        · exact .inr ⟨.inr hx, this x hx⟩
      · rintro (rfl | ⟨rfl | hx, hne⟩)
        · exact .inl rfl
        · rw [hsame] at hne
          cases hne
        · exact .inr hx
    · next hsame =>
      split
      · next hbefore =>
        have := hother (.inl hbefore)
        simp only [List.mem_cons]
        constructor
        · rintro (rfl | rfl | hx)
          · exact .inl rfl
          · exact .inr ⟨.inl rfl, by simpa using hsame⟩
          · exact .inr ⟨.inr hx, this x hx⟩
        · rintro (rfl | ⟨hx, -⟩)
          · exact .inl rfl
          · exact .inr hx
      · rw [List.mem_cons, ih hrest, List.mem_cons]
        constructor
        · rintro (rfl | rfl | ⟨hx, hne⟩)
          · exact .inr ⟨.inl rfl, by simpa using hsame⟩
          · exact .inl rfl
          · exact .inr ⟨.inr hx, hne⟩
        · rintro (rfl | ⟨rfl | hx, hne⟩)
          · exact .inr (.inl rfl)
          · exact .inl rfl
          · exact .inr (.inr ⟨hx, hne⟩)

namespace Collection

variable {c c' : Collection} {d e : Document}

/-! ### Members -/

theorem mem_put : e ∈ (c.put d).documents ↔ e = d ∨ (e ∈ c.documents ∧ d.sameVersion e = false) :=
  mem_putDocument c.ordered

/-- **A key and a version are borne by one document at most.** -/
theorem eq_of_sameVersion (hd : d ∈ c.documents) (he : e ∈ c.documents)
    (h : d.sameVersion e = true) : d = e := by
  by_contra hne
  obtain ⟨hkey, hversion⟩ := Document.sameVersion_iff.1 h
  -- unless they are the same, one stands before the other
  have hbefore : d.Before e ∨ e.Before d := by
    have : Std.Symm fun a b : Document => a.Before b ∨ b.Before a := ⟨fun _ _ => Or.symm⟩
    have hpair : c.documents.Pairwise fun a b => a.Before b ∨ b.Before a :=
      c.ordered.imp Or.inl
    exact hpair.forall hd he hne
  rw [Document.before_iff_version_lt hkey, Document.before_iff_version_lt hkey.symm,
    hversion] at hbefore
  rcases hbefore with h | h <;> exact UInt64.lt_irrefl _ h

theorem nodup_documents (c : Collection) : c.documents.Nodup :=
  c.ordered.imp fun {a b} hbefore hab => by
    rw [hab] at hbefore
    exact b.not_before_self hbefore

/-- A collection is its members. -/
theorem eq_of_mem_iff (h : ∀ d, d ∈ c.documents ↔ d ∈ c'.documents) : c = c' := by
  have hperm : c.documents.Perm c'.documents :=
    (List.perm_ext_iff_of_nodup c.nodup_documents c'.nodup_documents).2 h
  have hlist : c.documents = c'.documents :=
    hperm.eq_of_pairwise (fun a b _ _ hab hba => absurd (hab.trans hba) a.not_before_self)
      c.ordered c'.ordered
  cases c
  cases c'
  simpa using hlist

theorem eq_empty (h : c.documents = []) : c = .empty := by
  refine eq_of_mem_iff fun d => ?_
  rw [h]
  rfl

/-! ### Additions -/

theorem taken_iff :
    c.taken d = true ↔ ∃ e ∈ c.documents, e.key = d.key ∧ e.version = d.version := by
  simp only [taken, d.sameVersion_comm, List.any_eq_true, Document.sameVersion_iff]

/-- A version is refused exactly if it is taken. -/
theorem insert?_eq_none_iff :
    c.insert? d = none ↔ ∃ e ∈ c.documents, e.key = d.key ∧ e.version = d.version := by
  rw [insert?, ← taken_iff]
  split <;> simp_all

/-- A document that is added becomes a member, next to those there were. -/
theorem mem_of_insert?_eq_some (h : c.insert? d = some c') :
    e ∈ c'.documents ↔ e = d ∨ e ∈ c.documents := by
  rw [insert?] at h
  split at h
  · cases h
  · next hfree =>
    cases h
    rw [mem_put]
    refine or_congr_right ⟨And.left, fun he => ⟨he, ?_⟩⟩
    rw [Bool.eq_false_iff]
    exact fun hsame => hfree (List.any_eq_true.2 ⟨e, he, hsame⟩)

/-- A document that is added was not there in any other form. -/
theorem not_mem_of_insert?_eq_some (h : c.insert? d = some c') (he : e ∈ c.documents)
    (hkey : e.key = d.key) : e.version ≠ d.version := by
  intro hversion
  rw [insert?_eq_none_iff.2 ⟨e, he, hkey, hversion⟩] at h
  cases h

theorem insertIf?_eq_some (condition : Predicate) (h : c.insertIf? d condition = some c') :
    (c.documents.filter (·.satisfies condition)).length = 1 ∧ c.insert? d = some c' := by
  rw [insertIf?] at h
  split at h
  · next hone => exact ⟨hone, h⟩
  · cases h

theorem subset_insert? (h : c.insert? d = some c') : c.documents ⊆ c'.documents :=
  fun _ he => (mem_of_insert?_eq_some h).2 (.inr he)

/-- A bulk addition takes nothing away. -/
theorem subset_insertAll (c : Collection) (documents : List Document) :
    c.documents ⊆ (c.insertAll documents).2.documents := by
  induction documents generalizing c with
  | nil => exact List.Subset.refl _
  | cons d rest ih =>
    rw [insertAll]
    cases hinsert : c.insert? d with
    | none => exact ih c
    | some c' => exact List.Subset.trans (subset_insert? hinsert) (ih c')

/-- What is there after a bulk addition was there before or was to be added. -/
theorem mem_of_mem_insertAll {documents : List Document} (c : Collection)
    (h : e ∈ (c.insertAll documents).2.documents) : e ∈ c.documents ∨ e ∈ documents := by
  induction documents generalizing c with
  | nil => exact .inl h
  | cons d rest ih =>
    rw [insertAll] at h
    cases hinsert : c.insert? d with
    | none =>
      -- a duplicate adds nothing
      rw [hinsert] at h
      exact (ih c h).imp_right (List.mem_cons_of_mem _)
    | some c' =>
      rw [hinsert] at h
      -- it was in the larger collection, which `d` is the only new document of
      rcases ih c' h with h | h
      · rcases (mem_of_insert?_eq_some hinsert).1 h with rfl | h
        · exact .inr List.mem_cons_self
        · exact .inl h
      · exact .inr (List.mem_cons_of_mem _ h)

end Collection
end ConfigLedger
