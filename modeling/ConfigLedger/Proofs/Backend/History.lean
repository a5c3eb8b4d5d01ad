import ConfigLedger.Proofs.Backend.Collection
import ConfigLedger.Proofs.Entries
import Mathlib.Data.List.Perm.Subperm

/-!
# Histories of keys

`Collection.history` lists the versions of one key, the oldest first, and `Collection.newest`
is the last of them. An addition extends the history of its own key and of no other
(`history_of_insert?`).

The query for the latest version of a key finds what a stable sort puts first in its history
(`latest`), and the query of a resource, of which the store keeps the first document in each
context, finds the same for all keys at once (`mem_firstBy_find`). Whatever the versions are, after
an addition it finds the addition or what it found before (`latest_of_insert?`).
-/

namespace ConfigLedger
namespace Collection

variable {c c' : Collection} {d e : Document} {key : Key}

/-- The versions of a key, the oldest first. -/
def history (c : Collection) (key : Key) : List Document :=
  c.documents.filter fun d => decide (d.key = key)

/-- The newest version of a key. -/
def newest (c : Collection) (key : Key) : Option Document :=
  (c.history key).getLast?

@[simp] theorem mem_history : d ∈ c.history key ↔ d ∈ c.documents ∧ d.key = key := by
  simp [history]

/-- Within a history versions rise. -/
theorem pairwise_history (c : Collection) (key : Key) :
    (c.history key).Pairwise fun d e => d.version < e.version := by
  refine (c.ordered.filter _).imp_of_mem fun {d e} hd he hbefore => ?_
  have hkey : d.key = e.key := (mem_history.1 hd).2.trans (mem_history.1 he).2.symm
  exact (Document.before_iff_version_lt hkey).1 hbefore

theorem mem_documents_of_newest (h : c.newest key = some d) : d ∈ c.documents ∧ d.key = key :=
  mem_history.1 (List.mem_of_getLast? h)

theorem newest_eq_none_iff : c.newest key = none ↔ ∀ d ∈ c.documents, d.key ≠ key := by
  rw [newest, List.getLast?_eq_none_iff, history, List.filter_eq_nil_iff]
  simp

/-- The newest version is the one that no other exceeds. -/
theorem version_le_newest (h : c.newest key = some d) (he : e ∈ c.documents) (hkey : e.key = key) :
    e.version ≤ d.version := by
  obtain ⟨older, hhistory⟩ := List.getLast?_eq_some_iff.1 h
  have hmem : e ∈ c.history key := mem_history.2 ⟨he, hkey⟩
  have hpair := c.pairwise_history key
  rw [hhistory] at hmem hpair
  -- the newest version is the last one, and all others stand before it
  rcases List.mem_append.1 hmem with hold | hlast
  · exact UInt64.le_of_lt ((List.pairwise_append.1 hpair).2.2 e hold d (by simp))
  · rw [List.mem_singleton.1 hlast]
    exact UInt64.le_refl _

/-- The histories of a larger collection are no shorter. -/
theorem length_history_le (h : c.documents ⊆ c'.documents) (key : Key) :
    (c.history key).length ≤ (c'.history key).length := by
  refine (List.subperm_of_subset (c.nodup_documents.filter _) fun d hd => ?_).length_le
  obtain ⟨hd, hkey⟩ := mem_history.1 hd
  exact mem_history.2 ⟨h hd, hkey⟩

/-! ### Additions -/

/-- Rising documents are a history if they are its members. -/
theorem history_eq {l : List Document} (hl : l.Pairwise fun a b => a.version < b.version)
    (hmem : ∀ e, e ∈ l ↔ e ∈ c.history key) : c.history key = l := by
  -- rising versions do not repeat
  have hnodup {l : List Document} (hl : l.Pairwise fun a b => a.version < b.version) :
      l.Nodup := by
    refine hl.imp fun {a b} hlt heq => ?_
    rw [heq] at hlt
    exact UInt64.lt_irrefl _ hlt
  -- so the lists have the same documents equally often, and there is only one way for them to rise
  have hperm : (c.history key).Perm l :=
    (List.perm_ext_iff_of_nodup (hnodup (c.pairwise_history key)) (hnodup hl)).2 fun e =>
      (hmem e).symm
  exact hperm.eq_of_pairwise
    (fun a b _ _ hab hba => absurd (UInt64.lt_trans hab hba) (UInt64.lt_irrefl _))
    (c.pairwise_history key) hl

/-- An addition leaves the histories of the other keys as they are. -/
theorem history_of_insert?_of_ne (h : c.insert? d = some c') (hne : d.key ≠ key) :
    c'.history key = c.history key := by
  refine history_eq (c.pairwise_history key) fun e => ?_
  rw [mem_history, mem_history, mem_of_insert?_eq_some h]
  constructor
  · exact fun ⟨he, hekey⟩ => ⟨.inr he, hekey⟩
  · rintro ⟨rfl | he, hekey⟩
    · exact absurd hekey hne
    · exact ⟨he, hekey⟩

/-- **An addition behind all versions of its key extends the history of that key**, and it leaves
the histories of the other keys as they are. -/
theorem history_of_insert? (h : c.insert? d = some c')
    (hnew : ∀ e ∈ c.documents, e.key = d.key → e.version < d.version) :
    c'.history key = if d.key = key then c.history key ++ [d] else c.history key := by
  split
  · next hkey =>
    refine history_eq ?_ fun e => ?_
    -- the addition stands behind all versions that were there
    · refine List.pairwise_append.2 ⟨c.pairwise_history key, by simp, fun e he f hf => ?_⟩
      obtain ⟨he, hekey⟩ := mem_history.1 he
      rw [List.mem_singleton.1 hf]
      exact hnew e he (hekey.trans hkey.symm)
    · -- the members are those of the history and the addition
      rw [mem_history, mem_of_insert?_eq_some h, List.mem_append, mem_history,
        List.mem_singleton]
      constructor
      · rintro (⟨he, hekey⟩ | rfl)
        · exact ⟨.inr he, hekey⟩
        · exact ⟨.inl rfl, hkey⟩
      · rintro ⟨rfl | he, hekey⟩
        · exact .inr rfl
        · exact .inl ⟨he, hekey⟩
  · -- another key, in whose history nothing is new
    next hkey => exact history_of_insert?_of_ne h hkey

/-! ### Queries -/

/-- The version that the query for the latest version of a key finds. -/
def latest (c : Collection) (key : Key) : Option Document :=
  (sortBy Document.field [newestFirst] (c.history key)).head?

/-- What is found of a key depends on its history. -/
theorem latest_congr (h : c.history key = c'.history key) : c.latest key = c'.latest key := by
  rw [latest, latest, h]

theorem mem_documents_of_latest (h : c.latest key = some d) : d ∈ c.documents ∧ d.key = key :=
  mem_history.1 (mem_sortBy.1 (List.mem_of_head? h))

/-- **An addition shows or it does not.** After it, what is found of a key is what was found before,
or it is the addition. -/
theorem latest_of_insert? (h : c.insert? d = some c') (key : Key) :
    c'.latest key = c.latest key ∨ (d.key = key ∧ c'.latest key = some d) := by
  -- the history that there was is the new one without the addition
  have hhistory : c.history key = (c'.history key).filter fun e => !d.sameVersion e := by
    refine history_eq ((c'.pairwise_history key).filter _) fun e => ?_
    rw [List.mem_filter, mem_history, mem_history, mem_of_insert?_eq_some h, Bool.not_eq_true',
      Bool.eq_false_iff, Ne, Document.sameVersion_iff]
    constructor
    · rintro ⟨⟨rfl | he, hkey⟩, hother⟩
      · exact absurd ⟨rfl, rfl⟩ hother
      · exact ⟨he, hkey⟩
    · rintro ⟨he, hkey⟩
      refine ⟨⟨.inr he, hkey⟩, fun hsame => ?_⟩
      exact not_mem_of_insert?_eq_some h he hsame.1.symm hsame.2.symm
  -- finding the newest of them is finding the newest but the addition, as the sort is stable
  have hlatest : c.latest key =
      (sortBy Document.field [newestFirst] (c'.history key)).find? fun e => !d.sameVersion e := by
    rw [latest, hhistory, ← filter_sortBy, List.head?_filter]
  cases hsorted : sortBy Document.field [newestFirst] (c'.history key) with
  | nil =>
    left
    rw [hlatest, latest, hsorted]
    rfl
  | cons e rest =>
    have hfound : c'.latest key = some e := by rw [latest, hsorted, List.head?_cons]
    obtain ⟨he, hkey⟩ := mem_documents_of_latest hfound
    -- either the addition comes first, or what comes first was found before
    by_cases hsame : d.sameVersion e = true
    · have hd : d ∈ c'.documents := (mem_of_insert?_eq_some h).2 (.inl rfl)
      obtain rfl := eq_of_sameVersion hd he hsame
      exact .inr ⟨hkey, hfound⟩
    · left
      rw [hfound, hlatest, hsorted, List.find?_cons_of_pos (by simpa using hsame)]

theorem find_latest (c : Collection) (key : Key) :
    c.find { condition := some key.predicate, sort := [newestFirst], limit := some 1 } =
      (c.latest key).toList := by
  have hfilter : (c.documents.filter fun d => (some key.predicate).all d.satisfies) =
      c.history key := by
    refine List.filter_congr fun d _ => ?_
    rw [Option.all_some, Document.satisfies_keyPredicate]
  rw [find, Query.select, hfilter, latest]
  simp only [List.drop_zero]
  cases sortBy Document.field [newestFirst] (c.history key) <;> rfl

/-- **Of the versions of a resource, the first in each context are those that the queries for the
latest versions of single keys find.** -/
theorem mem_firstBy_find (c : Collection) (resource : Resource) :
    d ∈ firstBy (fun d : Document => d.key.context)
        (c.find { condition := some resource.predicate, sort := [newestFirst] }) ↔
      d.key.resource = resource ∧ c.latest d.key = some d := by
  -- the versions of the resource, before they are sorted
  have hfind : c.find { condition := some resource.predicate, sort := [newestFirst] } =
      sortBy Document.field [newestFirst]
        (c.documents.filter fun d => decide (d.key.resource = resource)) := by
    rw [find, Query.select]
    simp only [List.drop_zero]
    congr 1
    refine List.filter_congr fun d _ => ?_
    rw [Option.all_some, Document.satisfies_resourcePredicate]
  -- what stands in one context is the history of one key
  have hcontext : (c.documents.filter fun e => decide (e.key.resource = resource)).filter
      (fun e => e.key.context == d.key.context) = c.history ⟨resource, d.key.context⟩ := by
    rw [List.filter_filter, history]
    refine List.filter_congr fun e _ => ?_
    rw [Bool.eq_iff_iff]
    obtain ⟨⟨r, x⟩, -⟩ := e
    simp [and_comm]
  -- as the sort is stable, that history is sorted in the same way among all versions
  have hfirst : (c.find { condition := some resource.predicate, sort := [newestFirst] }).find?
      (fun e => e.key.context == d.key.context) = c.latest ⟨resource, d.key.context⟩ := by
    rw [hfind, ← List.head?_filter, filter_sortBy, hcontext, latest]
  rw [mem_firstBy, hfirst]
  constructor
  · -- what is found under a key has that key
    intro hd
    have hkey := (mem_documents_of_latest hd).2
    exact ⟨by rw [hkey], by rw [hkey, hd]⟩
  · rintro ⟨rfl, hd⟩
    exact hd

/-- All versions of a collection can be told apart by a query. -/
def Exact (c : Collection) : Prop :=
  ∀ d ∈ c.documents, d.Exact

/-- The versions of one key can be told apart by a query. -/
def ExactAt (c : Collection) (key : Key) : Prop :=
  ∀ d ∈ c.history key, d.Exact

theorem Exact.exactAt (h : c.Exact) (key : Key) : c.ExactAt key :=
  fun d hd => h d (mem_history.1 hd).1

end Collection
end ConfigLedger
