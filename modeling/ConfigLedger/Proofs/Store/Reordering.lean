import ConfigLedger.Proofs.Objects.Decoding
import ConfigLedger.Proofs.Store.Querying

/-!
# Backends that order ties differently

A query asks for all versions of a resource, newest first, and versions of different keys often
agree in that. A backend may answer them in any order then (`Finds`). Does it show in the answer to
the query?

It does not, as long as the versions can be told apart (`Store.run_query_of_finds`). The
deduplication keeps the newest version of each context whatever stands in between
(`Collection.Exact.mem_firstBy_iff`), so the same records match. And the context is the last thing
that they are sorted by, so no two of them tie.
-/

namespace ConfigLedger

variable {α β σ : Type} {c : Collection} {serve : (r : Request) → σ → r.Answer × σ} {d e : Document}

/-! ### Sorted in one way or another -/

/-- Queries that sort are answered by the documents of a collection, in any order that is sorted as
they ask for. -/
def Finds (c : Collection) (serve : (r : Request) → σ → r.Answer × σ) : Prop :=
  ∀ (condition : Option Predicate) (sort : List SortKey) (st : σ), ∃ found : List Document,
    (serve (.find { condition, sort }) st).1 = some (.ok found) ∧
      found.Perm (c.find { condition, sort }) ∧
        found.Pairwise fun d e => (compareBy Document.field sort d e).isLE = true

/-- A backend that keeps the same documents may keep them in any order. -/
theorem finds_of_perm {documents : List Document} (hperm : documents.Perm c.documents)
    (hserve : ∀ q st, (serve (.find q) st).1 = some (.ok (q.select documents))) :
    Finds c serve := by
  intro condition sort st
  refine ⟨_, hserve _ st, ?_, ?_⟩
  · -- a selection filters and sorts, both of which keep the documents up to order
    rw [Collection.find, Query.select, Query.select]
    refine (sortBy_perm sort _).trans ((hperm.filter _).trans ?_)
    exact (sortBy_perm sort _).symm
  · rw [Query.select]
    exact pairwise_sortBy sort _

/-- Of two versions the falling sort puts the newer one first, if that can be told apart from the
other one. -/
theorem Document.version_le_of_newestFirst (he : e.Exact)
    (h : (compareBy field [newestFirst] d e).isLE = true) : e.version ≤ d.version := by
  rw [compareBy_newestFirst, Ordering.isLE_iff_ne_gt] at h
  have hrank := compare_le_iff_le.1 h
  rw [UInt64.le_iff_toNat_le]
  by_contra hlt
  exact absurd (Binary64.rank_ofUInt64_lt (Nat.lt_of_not_le hlt) he) (not_lt.2 hrank)

/-- The query for all versions of a resource. -/
def Resource.versionsQuery (resource : Resource) : Query :=
  { condition := some resource.predicate, sort := [newestFirst] }

namespace Collection

theorem mem_find_versions {resource : Resource} :
    d ∈ c.find resource.versionsQuery ↔ d ∈ c.documents ∧ d.key.resource = resource := by
  rw [find, Query.select]
  show d ∈ (sortBy Document.field [newestFirst] _).drop 0 ↔ _
  rw [List.drop_zero, mem_sortBy, List.mem_filter]
  show _ ∧ d.satisfies resource.predicate = true ↔ _
  rw [Document.satisfies_resourcePredicate, decide_eq_true_iff]

theorem pairwise_find_versions (c : Collection) (resource : Resource) :
    (c.find resource.versionsQuery).Pairwise fun d e =>
      (compareBy Document.field [newestFirst] d e).isLE = true := by
  rw [find, Query.select]
  exact pairwise_sortBy [newestFirst] _

/-- **What the deduplication keeps**, whatever the order: the newest version of each context. -/
theorem Exact.mem_firstBy_iff (hc : c.Exact) {resource : Resource} {found : List Document}
    (hperm : found.Perm (c.find resource.versionsQuery))
    (hsorted : found.Pairwise fun d e => (compareBy Document.field [newestFirst] d e).isLE = true) :
    d ∈ firstBy (fun d : Document => d.key.context) found ↔
      d ∈ c.find resource.versionsQuery ∧ ∀ e ∈ c.find resource.versionsQuery,
        e.key.context = d.key.context → e.version ≤ d.version := by
  -- what is kept in a context is put before everything else in it
  have hkept {f : Document} (hf : found.find? (fun e => e.key.context == d.key.context) = some f) :
      f ∈ found ∧ f.key.context = d.key.context ∧
        ∀ e ∈ found, e.key.context = d.key.context → e.version ≤ f.version := by
    -- what was found first has only documents of other contexts before it
    obtain ⟨hcontext, before, behind, rfl, hbefore⟩ := List.find?_eq_some_iff_append.1 hf
    refine ⟨List.mem_append_right _ List.mem_cons_self, by simpa using hcontext, ?_⟩
    intro e he hecontext
    have hstored := (mem_find_versions.1 (hperm.mem_iff.1 he)).1
    rcases List.mem_append.1 he with hin | hin
    · -- what comes before it is of another context
      have hother := hbefore e hin
      simp [hecontext] at hother
    · rcases List.mem_cons.1 hin with rfl | hbehind
      · exact UInt64.le_refl _
      · -- what comes behind it is sorted behind it, and exact versions tell by how much
        have hle := (List.pairwise_cons.1 (List.pairwise_append.1 hsorted).2.1).1 e hbehind
        exact Document.version_le_of_newestFirst (hc e hstored) hle
  rw [mem_firstBy]
  simp only [← hperm.mem_iff]
  constructor
  · -- what is kept is the first document of its own context
    intro hd
    obtain ⟨hmem, -, hnewest⟩ := hkept hd
    exact ⟨hmem, hnewest⟩
  · -- and in the context of a newest document something is kept
    rintro ⟨hmem, hnewest⟩
    cases hfound : found.find? (fun e => e.key.context == d.key.context) with
    | none =>
      have hnone := List.find?_eq_none.1 hfound d hmem
      simp at hnone
    | some f =>
      obtain ⟨hf, hcontext, hgreatest⟩ := hkept hfound
      -- both have the greatest version of one key, so they are the same
      have hversion : f.version = d.version :=
        UInt64.le_antisymm (hnewest f hf hcontext) (hgreatest d hmem rfl)
      obtain ⟨hfstored, hfresource⟩ := mem_find_versions.1 (hperm.mem_iff.1 hf)
      obtain ⟨hdstored, hdresource⟩ := mem_find_versions.1 (hperm.mem_iff.1 hmem)
      have hkey : f.key = d.key :=
        congrArg₂ Key.mk (hfresource.trans hdresource.symm) hcontext
      rw [eq_of_sameVersion hfstored hdstored (Document.sameVersion_iff.2 ⟨hkey, hversion⟩)]

end Collection

namespace Store

/-- The documents that a query keeps of the versions of a resource. -/
def keptOf (filter : Option Predicate) (found : List Document) : List Document :=
  (firstBy (fun d : Document => d.key.context) found).filter fun d =>
    !d.isTombstone && filter.all d.satisfies

theorem keptOf_find (c : Collection) (resource : Resource) (filter : Option Predicate) :
    keptOf filter (c.find resource.versionsQuery) = c.newestLive resource filter := rfl

theorem nodup_keptOf (filter : Option Predicate) (found : List Document) :
    ((keptOf filter found).map fun d => d.key.context).Nodup :=
  (nodup_map_firstBy _ _).sublist (List.filter_sublist.map _)

/-- **The same documents are kept** of the versions of a resource, whatever their order. -/
theorem keptOf_perm (hc : c.Exact) {resource : Resource} {found : List Document}
    (hperm : found.Perm (c.find resource.versionsQuery))
    (hsorted : found.Pairwise fun d e => (compareBy Document.field [newestFirst] d e).isLE = true)
    (filter : Option Predicate) :
    (keptOf filter found).Perm (c.newestLive resource filter) := by
  -- they have the same members, by the characterisation that knows no order
  have hsame : (firstBy (fun d : Document => d.key.context) found).Perm
      (firstBy (fun d : Document => d.key.context) (c.find resource.versionsQuery)) := by
    refine (List.perm_ext_iff_of_nodup (nodup_map_firstBy _ _).of_map
      (nodup_map_firstBy _ _).of_map).2 fun d => ?_
    rw [hc.mem_firstBy_iff hperm hsorted,
      hc.mem_firstBy_iff (List.Perm.refl _) (c.pairwise_find_versions resource)]
  exact hsame.filter _

/-- Records of one resource that are sorted to one place are the same. -/
theorem eq_of_compareBy_sortKeys {resource : Resource} {filter : Option Predicate}
    (options : QueryOptions) (hd : d ∈ c.newestLive resource filter)
    (he : e ∈ c.newestLive resource filter)
    (heq : compareBy Document.field options.sortKeys d e = .eq) : d = e := by
  -- both are the documents that are read of their keys
  obtain ⟨⟨hdresource, hdlatest⟩, -⟩ := Collection.mem_newestLive.1 hd
  obtain ⟨⟨heresource, helatest⟩, -⟩ := Collection.mem_newestLive.1 he
  rw [options.key_eq_of_compareBy (hdresource.trans heresource.symm) heq, helatest] at hdlatest
  exact (Option.some.inj hdlatest).symm

/-- **Every page is the same**, whatever the order of the versions that were found. -/
theorem page_keptOf (hc : c.Exact) {resource : Resource} {found : List Document}
    (hperm : found.Perm (c.find resource.versionsQuery))
    (hsorted : found.Pairwise fun d e => (compareBy Document.field [newestFirst] d e).isLE = true)
    (filter : Option Predicate) (options : QueryOptions) (bounds : Nat × Option Nat) :
    page options bounds (keptOf filter found) =
      page options bounds (c.newestLive resource filter) := by
  have hkept := keptOf_perm hc hperm hsorted filter
  -- sorting leaves no choice between the two, since no two records tie
  have hsort : sortBy Document.field options.sortKeys (keptOf filter found) =
      sortBy Document.field options.sortKeys (c.newestLive resource filter) := by
    apply sortBy_eq_of_perm hkept
    intro d hd e he heq
    exact eq_of_compareBy_sortKeys options (hkept.mem_iff.1 hd) (hkept.mem_iff.1 he) heq
  rw [page, page, hsort]

/-! ### Queries -/

/-- What a query answers that finds some versions of its resource. -/
def answerOf (options : QueryOptions) (found : List Document) : Except StoreError QueryResult := do
  let filter ← compiled options.filter
  let bounds ← (options.page.map Page.bounds).getD (.ok (0, none))
  return ⟨page options bounds (keptOf filter found), (keptOf filter found).length⟩

theorem answerOf_eq (hc : c.Exact) {resource : Resource} {found : List Document}
    (hperm : found.Perm (c.find resource.versionsQuery))
    (hsorted : found.Pairwise fun d e => (compareBy Document.field [newestFirst] d e).isLE = true)
    (options : QueryOptions) :
    answerOf options found = answerOf options (c.find resource.versionsQuery) := by
  unfold answerOf
  cases compiled options.filter with
  | error e => rfl
  | ok filter =>
    -- the total is the number of what is kept
    have hlength := (keptOf_perm hc hperm hsorted filter).length_eq
    cases (options.page.map Page.bounds).getD (.ok (0, none)) with
    | error e => rfl
    | ok bounds =>
      show Except.ok (QueryResult.mk _ _) = .ok (QueryResult.mk _ _)
      rw [page_keptOf hc hperm hsorted, hlength, keptOf_find]

theorem latestLive_eq (resource : Resource) (filter : Option Predicate) :
    latestLive resource filter = do
      let found ← Action.find resource.versionsQuery
      return keptOf filter found := rfl

/-- A query answers according to the versions that it finds. -/
theorem run_query_of_found {resource : Resource} {st : σ} {found : List Document}
    (hfound : (serve (.find resource.versionsQuery) st).1 = some (.ok found))
    (options : QueryOptions) :
    ((query resource options).steps.run serve st).1 = answerOf options found := by
  -- the backend is asked once, and everything else is computed from its answer
  have hfind : (Action.find resource.versionsQuery).steps.run serve st =
      (some (.ok found), (serve (.find resource.versionsQuery) st).2) := by
    show ((serve (.find resource.versionsQuery) st).1.map (Except.mapError StoreError.ofBackend),
      (serve (.find resource.versionsQuery) st).2) = _
    rw [hfound]
    rfl
  -- what is done once the filter and the bounds are known
  have hlisted (filter : Option Predicate) (bounds : Nat × Option Nat) :
      ((do
        let matching ← latestLive resource filter
        Action.record (.queryResults matching.length)
        return ⟨page options bounds matching, matching.length⟩ :
        Action QueryResult).steps.run serve st).1.getD (.error .deadlineExceeded) =
      .ok ⟨page options bounds (keptOf filter found), (keptOf filter found).length⟩ := by
    -- the records are those that are kept of what it answered
    have hlive : (latestLive resource filter).steps.run serve st =
        (some (.ok (keptOf filter found)), (serve (.find resource.versionsQuery) st).2) := by
      rw [latestLive_eq, Action.run_steps_bind, hfind]
      rfl
    rw [Action.run_steps_bind, hlive]
    rfl
  unfold query answerOf
  rw [Call.run_steps_bounded, Action.run_steps_bind, condition_eq]
  cases compiled options.filter with
  | error e => rfl
  | ok filter =>
    cases options.page with
    | none => exact hlisted filter (0, none)
    | some page =>
      rw [Option.map_some, Option.getD_some]
      dsimp only
      cases page.bounds with
      | error e => rfl
      | ok bounds => exact hlisted filter bounds

/-- **The answer to a query does not depend on the order** in which a backend puts versions that it
may put in any order. -/
theorem run_query_of_finds (hc : c.Exact) (hserve : Finds c serve) (resource : Resource)
    (options : QueryOptions) (st : σ) :
    ((query resource options).steps.run serve st).1 =
      answerOf options (c.find resource.versionsQuery) := by
  obtain ⟨found, hfound, hperm, hsorted⟩ := hserve (some resource.predicate) [newestFirst] st
  rw [run_query_of_found hfound]
  exact answerOf_eq hc hperm hsorted options

end Store
end ConfigLedger
