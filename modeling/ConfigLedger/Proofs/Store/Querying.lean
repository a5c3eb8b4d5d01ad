import ConfigLedger.Proofs.Filter.Meaning
import ConfigLedger.Proofs.Store.Reading

/-!
# Querying any collection

A read asks for the latest version of one key, while a query sorts all versions of a resource and
keeps the first one in each context. Whatever the collection holds, the two agree: a query lists
exactly the records that are read of the keys of the resource and that its filter accepts, each
context once, and their number is what is counted, for every order and on every page
(`Store.query_lists`).

So a record that is listed is the newest version of its key exactly if a read would find that
version, which is if the history of the key is settled. Where versions are rounded to one number, a
query lists the lowest of them like a read does, also if the newest one is a tombstone
(`Store.query_superseded_tied`).
-/

namespace ConfigLedger

variable {c : Collection} {s : Setting} {resource : Resource} {filter : Option Filter}

/-- A filter that compiles becomes a predicate of documents that accepts the same values. -/
theorem exists_compiled (h : ∀ f ∈ filter, ∃ p, f.compile = .ok p) :
    ∃ p, compiled filter = .ok p ∧
      ∀ d : Document, p.all d.satisfies = filter.all (·.accepts d.value) := by
  cases filter with
  -- without a filter everything is accepted
  | none => exact ⟨none, rfl, fun _ => rfl⟩
  | some f =>
    -- a predicate that is compiled from a filter holds of the documents whose values it accepts
    obtain ⟨p, hp⟩ := h f rfl
    refine ⟨some p, ?_, fun d => ?_⟩
    · rw [compiled, hp]
      rfl
    · rw [Option.all_some, Option.all_some, Document.satisfies, Filter.holds_compile hp]

namespace Store

/-! ### Pages -/

variable {matching : List Document}

/-- Without bounds all matching documents are on the page. -/
theorem map_document_page (options : QueryOptions) (hlive : ∀ d ∈ matching, d.isTombstone = false) :
    (page options (0, none) matching).map Record.document =
      sortBy Document.field options.sortKeys matching := by
  rw [page]
  exact map_document_filterMap fun d hd => hlive d (mem_sortBy.1 hd)

/-- It has them in some order. -/
theorem perm_page (options : QueryOptions) (hlive : ∀ d ∈ matching, d.isTombstone = false) :
    ((page options (0, none) matching).map Record.document).Perm matching := by
  rw [map_document_page options hlive]
  exact sortBy_perm _ _

theorem nodup_page (options : QueryOptions) (hlive : ∀ d ∈ matching, d.isTombstone = false)
    (hnodup : (matching.map fun d => d.key.context).Nodup) :
    ((page options (0, none) matching).map fun r => r.key.context).Nodup := by
  have hcontexts := ((perm_page options hlive).map fun d => d.key.context).nodup_iff.2 hnodup
  rw [List.map_map] at hcontexts
  exact hcontexts

theorem mem_page {options : QueryOptions} {r : Record} :
    r ∈ page options (0, none) matching ↔ ∃ d ∈ matching, d.record? = some r := by
  simp [page, List.mem_filterMap]

/-! ### Lists -/

/-- The records are those that are read of a resource and that a filter accepts, each context
once. -/
structure Lists (s : Setting) (resource : Resource) (filter : Option Filter)
    (records : List Record) : Prop where
  nodup : (records.map fun r => r.key.context).Nodup
  mem_iff : ∀ r, r ∈ records ↔
    r.key.resource = resource ∧ (read r.key).run s = (.ok (some r), s) ∧
      filter.all (·.accepts r.value) = true

/-- **What is found of a resource** makes a list of what is read of its keys. -/
theorem lists_page (hs : s.medium.Shows c) {p : Option Predicate}
    (hp : ∀ d : Document, p.all d.satisfies = filter.all (·.accepts d.value))
    (options : QueryOptions) :
    Lists s resource filter (page options (0, none) (c.newestLive resource p)) := by
  have hlive : ∀ d ∈ c.newestLive resource p, d.isTombstone = false :=
    fun d hd => (Collection.mem_newestLive.1 hd).2.1
  constructor
  · -- no two documents are of one context
    exact nodup_page options hlive (c.nodup_newestLive resource p)
  · -- what is listed of a document is what is read of its key
    intro r
    rw [mem_page, hs.run_read_iff, Collection.shown_eq_some_iff]
    constructor
    · -- a listed record is the live value of its newest document, which the filter accepts
      rintro ⟨d, hd, hr⟩
      obtain ⟨hvalue, rfl⟩ := Document.record?_eq_some_iff.1 hr
      obtain ⟨⟨hresource, hlatest⟩, -, hfilter⟩ := Collection.mem_newestLive.1 hd
      rw [hp] at hfilter
      exact ⟨hresource, ⟨hlatest, hvalue⟩, hfilter⟩
    · -- what is read of a key comes from a document that is found
      rintro ⟨hresource, ⟨hlatest, hvalue⟩, hfilter⟩
      refine ⟨r.document, Collection.mem_newestLive.2 ⟨⟨hresource, hlatest⟩, hvalue, ?_⟩,
        Record.record?_document.2 hvalue⟩
      rw [hp]
      exact hfilter

/-- A record that is read is the newest version of its key exactly if the history is settled. -/
theorem newest_of_run_read (hs : s.medium.Shows c) {r : Record}
    (hr : (read r.key).run s = (.ok (some r), s)) :
    c.newest r.key = some r.document ↔ c.Settled r.key := by
  obtain ⟨hlatest, -⟩ := Collection.shown_eq_some_iff.1 (hs.run_read_iff.1 hr)
  rw [← Collection.latest_eq_newest_iff, hlatest, eq_comm]

/-- Where nothing in particular is asked for, everything is listed that is read of a resource. -/
theorem lists_all (hs : s.medium.Shows c) (resource : Resource) :
    Lists s resource none (page {} (0, none) (c.newestLive resource none)) :=
  lists_page hs (fun _ => rfl) {}

/-- **A query lists what is read and accepted**, and the count is that of the list, whatever the
order and the page. What is listed is the newest version where the history is settled, and only
there. -/
theorem query_lists (hs : s.medium.Shows c) (resource : Resource)
    (hfilter : ∀ f ∈ filter, ∃ p, f.compile = .ok p) :
    ∃ total, (count resource filter).run s = (.ok total, s) ∧
      (∀ sortBy : List SortBy, ∃ records,
        (query resource { filter, sortBy }).run s = (.ok ⟨records, total⟩, s) ∧
          records.length = total ∧ Lists s resource filter records ∧
          ∀ r ∈ records, c.newest r.key = some r.document ↔ c.Settled r.key) ∧
      ∀ (sortBy : List SortBy) (page : Page), (∃ bounds, page.bounds = .ok bounds) →
        ∃ records, (query resource { filter, page := some page, sortBy }).run s =
          (.ok ⟨records, total⟩, s) := by
  obtain ⟨p, hcompiled, hp⟩ := exists_compiled hfilter
  -- the total is the number of documents that are kept, before any page is cut
  refine ⟨(c.newestLive resource p).length, ?_, fun sortBy => ?_, fun sortBy page hpage => ?_⟩
  · -- a count answers just that number
    rw [hs.run_count, hcompiled]
    rfl
  · -- in each order all of them are listed
    let options : QueryOptions := { filter, sortBy }
    have hlists :
        Lists s resource filter (Store.page options (0, none) (c.newestLive resource p)) :=
      lists_page hs hp options
    refine ⟨Store.page options (0, none) (c.newestLive resource p), ?_, ?_, hlists, fun r hr => ?_⟩
    · rw [hs.run_query, hcompiled]
      rfl
    · -- sorting loses none
      rw [← List.length_map Record.document,
        map_document_page options fun d hd => (Collection.mem_newestLive.1 hd).2.1,
        (sortBy_perm _ _).length_eq]
    · exact newest_of_run_read hs ((hlists.mem_iff r).1 hr).2.1
  · -- with a page the list may be shorter, the total is the same
    obtain ⟨bounds, hbounds⟩ := hpage
    let options : QueryOptions := { filter, page := some page, sortBy }
    refine ⟨Store.page options bounds (c.newestLive resource p), ?_⟩
    rw [hs.run_query, hcompiled, Option.map_some, Option.getD_some, hbounds]
    rfl

theorem query_lists_levels :
    let d := Document.sample 1 (.struct [("level", .string "low")])
    let e := Document.sample 2 (.struct [("level", .string "high")])
    let c := Collection.pair d e rfl (by decide)
    let filter := some (Filter.relational "level" .equalTo (.string "high"))
    (Setting.idle c).medium.Shows c ∧ (∀ f ∈ filter, ∃ p, f.compile = .ok p) ∧
      ∃ r records, e.record? = some r ∧ r ∈ records ∧
        (query e.key.resource { filter }).run (Setting.idle c) =
          (.ok ⟨records, records.length⟩, Setting.idle c) := by
  intro d e c filter
  have hshows : (Setting.idle c).medium.Shows c := Medium.shows_memory c
  have hcompiles : ∀ f ∈ filter, ∃ p, f.compile = .ok p := by
    intro f hf
    rw [← Option.some.inj hf]
    exact ⟨_, rfl⟩
  -- the history is settled, so the second version is the one that is read
  have hlatest : c.latest e.key = some e := by
    rw [Collection.latest_eq_newest_iff.2 (Collection.settled_pair (d := d) (e := e) rfl _
      (by decide +kernel))]
    exact Collection.newest_pair (d := d) (e := e) rfl _
  let r : Record := ⟨e.key, e.version, e.value, e.author, e.created, e.updated⟩
  have hread : (read r.key).run (Setting.idle c) = (.ok (some r), Setting.idle c) :=
    hshows.run_read_iff.2 (Collection.shown_eq_some_iff.2 ⟨hlatest, rfl⟩)
  -- the list that a query without a page answers has what is read and accepted
  obtain ⟨total, -, hquery, -⟩ := query_lists hshows e.key.resource hcompiles
  obtain ⟨records, hrun, rfl, hlists, -⟩ := hquery []
  exact ⟨hshows, hcompiles, r, records, rfl, (hlists.mem_iff r).2 ⟨rfl, hread, by decide⟩, hrun⟩

theorem query_superseded_tied :
    let d := Document.sample 9007199254740992 (.string "first")
    let e := Document.sample 9007199254740993 .null
    let c := Collection.pair d e rfl (by decide)
    c.newest e.key = some e ∧ e.isTombstone = true ∧
      -- the two numbers are one number to the comparison, which keeps the first document
      ∃ r result, d.record? = some r ∧ r ∈ result.records ∧
        (query e.key.resource {}).run (Setting.idle c) = (.ok result, Setting.idle c) := by
  -- it lives, so it is among what the resource lists
  intro d e c
  have hlatest : c.latest d.key = some d :=
    Collection.latest_pair (d := d) (e := e) rfl _ Collection.ofUInt64_exactBound
  have hlisted : d ∈ c.newestLive e.key.resource none :=
    Collection.mem_newestLive.2 ⟨⟨rfl, hlatest⟩, rfl, rfl⟩
  refine ⟨Collection.newest_pair (d := d) (e := e) rfl _, rfl, _, _, rfl,
    mem_page.2 ⟨d, hlisted, rfl⟩, (Medium.shows_memory c).run_query e.key.resource {}⟩

end Store
end ConfigLedger
