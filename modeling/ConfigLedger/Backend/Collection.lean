import ConfigLedger.Backend.Query

/-!
# Collections of documents

A `Collection` holds documents in the order of their keys and, under one key, of their
versions. Key and version identify a document, so a collection holds each version once; both
facts are kept in the type. Documents are added and never replaced: `Collection.insert?`
refuses a version that is taken, `Collection.insertIf?` refuses it too and adds only if
exactly one stored document satisfies a condition.
-/

namespace ConfigLedger

namespace Document

/-- The order of stored documents: by key, then by version. -/
def Before (a b : Document) : Prop :=
  a.key.precedes b.key = true ∨ (a.key = b.key ∧ a.version < b.version)

instance (a b : Document) : Decidable (Before a b) :=
  inferInstanceAs (Decidable (_ ∨ _))

/-- Whether two documents are the same version of the same key. -/
def sameVersion (a b : Document) : Bool :=
  a.key == b.key && a.version == b.version

/-- The order of documents is transitive. -/
theorem Before.trans {a b c : Document} (hab : a.Before b) (hbc : b.Before c) : a.Before c := by
  rcases hab with hab | ⟨hk, hv⟩ <;> rcases hbc with hbc | ⟨hk', hv'⟩
  · exact .inl (Key.precedes_trans hab hbc)
  · exact .inl (hk' ▸ hab)
  · exact .inl (hk ▸ hbc)
  · exact .inr ⟨hk.trans hk', UInt64.lt_trans hv hv'⟩

/-- No document stands before itself. -/
theorem not_before_self (a : Document) : ¬ a.Before a := by
  simp [Before, Key.not_precedes_self, UInt64.lt_irrefl]

/-- Of two documents one stands before the other, unless they are the same version. -/
theorem before_or_before {a b : Document} (h : a.sameVersion b = false) :
    a.Before b ∨ b.Before a := by
  by_cases hk : a.key = b.key
  · -- of one key the lower version stands first
    have hv : a.version ≠ b.version := by
      intro hv
      simp [sameVersion, hk, hv] at h
    rcases UInt64.lt_or_lt_of_ne hv with hv | hv
    · exact .inl (.inr ⟨hk, hv⟩)
    · exact .inr (.inr ⟨hk.symm, hv⟩)
  · rcases Key.precedes_or_precedes hk with hk | hk
    · exact .inl (.inl hk)
    · exact .inr (.inl hk)

/-- Documents that are the same version stand at the same place. -/
theorem Before.of_sameVersion_left {a b c : Document} (h : a.sameVersion b) (hbc : b.Before c) :
    a.Before c := by
  simp only [sameVersion, Bool.and_eq_true, beq_iff_eq] at h
  simpa [Before, h.1, h.2] using hbc

end Document

/-- Adds a document at its place, in the place of the same version if that is there. -/
def putDocument (d : Document) : List Document → List Document
  | [] => [d]
  | e :: rest =>
    if d.sameVersion e then d :: rest
    else if d.Before e then d :: e :: rest
    else e :: putDocument d rest

/-- What stands in a list after adding a document was there before or is the document. -/
theorem mem_of_mem_putDocument {d x : Document} {l : List Document} (h : x ∈ putDocument d l) :
    x = d ∨ x ∈ l := by
  induction l with
  | nil => simpa [putDocument] using h
  | cons e rest ih =>
    rw [putDocument] at h
    split at h
    · -- it took the place of its own version
      rcases List.mem_cons.1 h with h | h
      · exact .inl h
      · exact .inr (List.mem_cons_of_mem _ h)
    · split at h
      · -- it came to the head
        exact List.mem_cons.1 h
      · -- it went behind the head
        rcases List.mem_cons.1 h with h | h
        · exact .inr (h ▸ List.mem_cons_self)
        · exact (ih h).imp_right (List.mem_cons_of_mem _)

/-- Adding a document keeps the order. -/
theorem pairwise_putDocument {d : Document} {l : List Document} (h : l.Pairwise Document.Before) :
    (putDocument d l).Pairwise Document.Before := by
  induction l with
  | nil => simp [putDocument]
  | cons e rest ih =>
    obtain ⟨he, hrest⟩ := List.pairwise_cons.1 h
    rw [putDocument]
    -- the document takes the place of its version
    split
    · rename_i hsame
      exact List.pairwise_cons.2 ⟨fun x hx => (he x hx).of_sameVersion_left hsame, hrest⟩
    · -- it comes to the head, before what was there
      split
      · rename_i _ hbefore
        refine List.pairwise_cons.2 ⟨fun x hx => ?_, h⟩
        rcases List.mem_cons.1 hx with rfl | hx
        · exact hbefore
        · exact hbefore.trans (he x hx)
      · -- it goes behind the head, which stands before it because neither of the other cases
        -- applies
        rename_i hsame hbefore
        refine List.pairwise_cons.2 ⟨fun x hx => ?_, ih hrest⟩
        rcases mem_of_mem_putDocument hx with rfl | hx
        · exact (Document.before_or_before (by simpa using hsame)).resolve_left hbefore
        · exact he x hx

/-- Documents in order, each version of a key at most once. -/
structure Collection where
  documents : List Document
  ordered : documents.Pairwise Document.Before := by simp

namespace Collection

/-- No documents. -/
def empty : Collection :=
  { documents := [] }

/-- How many documents there are. -/
def size (c : Collection) : Nat :=
  c.documents.length

/-- Adds a document, in the place of the same version if that is there. -/
def put (c : Collection) (d : Document) : Collection :=
  ⟨putDocument d c.documents, pairwise_putDocument c.ordered⟩

/-- The collection of a list of documents; of those that are the same version the last one stays. -/
def ofList (documents : List Document) : Collection :=
  documents.foldl put empty

/-- Whether a version is taken. -/
def taken (c : Collection) (d : Document) : Bool :=
  c.documents.any d.sameVersion

/-- Adds a document unless its version is taken. -/
def insert? (c : Collection) (d : Document) : Option Collection :=
  if c.taken d then none else some (c.put d)

/-- Adds a document unless its version is taken, if exactly one stored document satisfies the
condition. -/
def insertIf? (c : Collection) (d : Document) (condition : Predicate) : Option Collection :=
  if (c.documents.filter (·.satisfies condition)).length = 1 then c.insert? d else none

/-- Takes a version of a key out again. -/
def remove (c : Collection) (d : Document) : Collection :=
  ⟨c.documents.filter fun e => !d.sameVersion e, c.ordered.filter _⟩

/-- What a query finds. -/
def find (c : Collection) (q : Query) : List Document :=
  q.select c.documents

/-- Adds documents one after the other, each on its own, and reports which were added. -/
def insertAll (c : Collection) : List Document → List Bool × Collection
  | [] => ([], c)
  | d :: rest =>
    match c.insert? d with
    | some c =>
      let (added, c) := c.insertAll rest
      (true :: added, c)
    | none =>
      let (added, c) := c.insertAll rest
      (false :: added, c)

end Collection

end ConfigLedger
