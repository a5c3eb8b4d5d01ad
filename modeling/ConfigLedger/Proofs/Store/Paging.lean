import ConfigLedger.Proofs.Store.Reordering

/-!
# Page after page

Who wants all records of a resource may ask for one page after the other. Does one get every record
then, and each one once?

On a store that nobody writes to, one does (`Store.queryPages_stable`). A page is a window of the
list that a query without pages answers (`Store.page_window`), and windows of one size lie side by
side (`flatMap_windows`). That holds also if the backend puts versions that tie in a different order
for each of the pages, since no answer shows that order.
-/

namespace ConfigLedger

variable {σ : Type} {c : Collection} {s : Setting}
  {serve : (r : Request) → σ → r.Answer × σ} {resource : Resource}

namespace QueryResult

/-- The part of an answer that is reached after `i` parts of a size. -/
def window (all : QueryResult) (size i : Nat) : QueryResult where
  records := (all.records.drop (i * size)).take size
  total := all.total

/-- **Windows of one size lie side by side.** Put one after the other they have the records of the
whole answer, as far as they reach. -/
theorem flatMap_windows (all : QueryResult) (size n : Nat) :
    ((List.range n).map (all.window size)).flatMap records = all.records.take (n * size) := by
  induction n with
  | zero => simp
  | succ n ih =>
    -- the last window begins where the others end
    rw [List.range_succ, List.map_append, List.flatMap_append, ih, Nat.succ_mul, List.take_add]
    show _ ++ ([all.window size n].flatMap records) = _
    rw [List.flatMap_singleton]
    rfl

end QueryResult

/-- The page that is reached after `i` pages of a size. -/
def Page.nth (size i : Nat) : Page where
  limit := some (.ofNat size)
  offset := .ofNat (i * size)

theorem Page.bounds_nth {size i : Nat} (hsize : size < 2 ^ 63) (hoffset : i * size < 2 ^ 63) :
    (nth size i).bounds = .ok (i * size, some size) := by
  -- below the limit a natural number is not taken for a negative one, and is read as it is
  have hnonneg {n : Nat} (hn : n < 2 ^ 63) : ¬ Int64.ofNat n < 0 := by
    rw [Int64.lt_iff_toInt_lt, Int64.toInt_ofNat_of_lt hn]
    exact Int.not_lt.2 (Int.natCast_nonneg n)
  have hread {n : Nat} (hn : n < 2 ^ 63) : (Int64.ofNat n).toInt.toNat = n := by
    rw [Int64.toInt_ofNat_of_lt hn, Int.toNat_natCast]
  rw [bounds, nth, if_neg (hnonneg hoffset), hread hoffset]
  dsimp only
  rw [if_neg (hnonneg hsize), hread hsize]
  rfl

namespace Store

/-- Queries a resource several times. -/
def queryEach (resource : Resource) : List QueryOptions → Call (List QueryResult)
  | [] => return []
  | options :: rest => do
    let result ← query resource options
    let results ← queryEach resource rest
    return result :: results

/-- The options of a query for a page after some pages of a size. -/
def nthOptions (filter : Option Filter) (sortBy : List SortBy) (size i : Nat) : QueryOptions :=
  { filter, page := some (.nth size i), sortBy }

/-- Queries the first `n` pages of a size. -/
def queryPages (resource : Resource) (filter : Option Filter) (sortBy : List SortBy)
    (size n : Nat) : Call (List QueryResult) :=
  queryEach resource ((List.range n).map (nthOptions filter sortBy size))

/-- If the answer to each query is known by its options alone, so are the answers to several. The
states in which it is known may be those that a query leads to again. -/
theorem run_queryEach {P : σ → Prop} {answer : QueryOptions → Except StoreError QueryResult}
    (hquery : ∀ options st, P st →
      ((query resource options).steps.run serve st).1 = answer options ∧
        P ((query resource options).steps.run serve st).2)
    (queries : List QueryOptions) {st : σ} (hst : P st) :
    ((queryEach resource queries).steps.run serve st).1 = queries.mapM answer := by
  -- by induction on the queries, in all states: each query starts where the one before it ended
  induction queries generalizing st with
  | nil => rfl
  | cons options rest ih =>
    rw [queryEach, Call.run_steps_bind, List.mapM_cons]
    obtain ⟨hanswer, hnext⟩ := hquery options st hst
    generalize (query resource options).steps.run serve st = outcome at hanswer hnext
    obtain ⟨result, st'⟩ := outcome
    obtain rfl : result = answer options := hanswer
    -- the first error ends the series
    cases answer options with
    | error e => rfl
    | ok result =>
      dsimp only
      rw [Call.run_steps_bind]
      have hrest := ih hnext
      -- what is left is asked in the state in which the first query ended
      generalize (queryEach resource rest).steps.run serve st' = outcome at hrest
      obtain ⟨results, st''⟩ := outcome
      obtain rfl : results = rest.mapM answer := hrest
      cases rest.mapM answer <;> rfl

/-- **A page is a window** of what is answered without pages. -/
theorem page_window (options : QueryOptions) {matching : List Document}
    (hlive : ∀ d ∈ matching, d.isTombstone = false) (start limit : Nat) :
    page options (start, some limit) matching =
      ((page options (0, none) matching).drop start).take limit := by
  -- what is listed lives, so that a document can be made of it and read again
  have hvalue : ∀ r ∈ page options (0, none) matching, r.value.isNull = false := by
    intro r hr
    obtain ⟨d, -, hd⟩ := mem_page.1 hr
    obtain ⟨hvalue, rfl⟩ := Document.record?_eq_some_iff.1 hd
    exact hvalue
  let all := page options (0, none) matching
  -- the window is cut out of the documents, which are those of the records without a window
  calc page options (start, some limit) matching
      = (((sortBy Document.field options.sortKeys matching).drop start).take limit).filterMap
          Document.record? := rfl
    _ = (((all.map Record.document).drop start).take limit).filterMap Document.record? := by
        rw [map_document_page options hlive]
    _ = (((all.drop start).take limit).map Record.document).filterMap Document.record? := by
        rw [List.map_take, List.map_drop]
    _ = (all.drop start).take limit :=
        filterMap_map_document fun r hr => hvalue r (List.mem_of_mem_drop (List.mem_of_mem_take hr))

theorem isTombstone_of_mem_keptOf {filter : Option Predicate} {found : List Document} {d : Document}
    (hd : d ∈ keptOf filter found) : d.isTombstone = false := by
  have hkept := (List.mem_filter.1 hd).2
  rw [Bool.and_eq_true, Bool.not_eq_true'] at hkept
  exact hkept.1

/-- What the answer to a query without pages consists of. -/
theorem answerOf_eq_ok {filter : Option Filter} {sortBy : List SortBy} {found : List Document}
    {all : QueryResult} (hall : answerOf { filter, sortBy } found = .ok all) :
    ∃ p, compiled filter = .ok p ∧
      all = ⟨page { filter, sortBy } (0, none) (keptOf p found), (keptOf p found).length⟩ := by
  unfold answerOf at hall
  -- no answer is given without a predicate, since a filter that does not compile is an error
  cases hcompiled : compiled filter with
  | error e =>
    dsimp only at hall
    rw [hcompiled] at hall
    cases hall
  | ok p =>
    dsimp only at hall
    rw [hcompiled] at hall
    exact ⟨p, rfl, (Except.ok.inj hall).symm⟩

/-- **The pages of what was found** are windows of the answer without pages. -/
theorem answerOf_nthOptions {filter : Option Filter} {sortBy : List SortBy} {size i : Nat}
    {found : List Document} {all : QueryResult}
    (hall : answerOf { filter, sortBy } found = .ok all) (hsize : size < 2 ^ 63)
    (hoffset : i * size < 2 ^ 63) :
    answerOf (nthOptions filter sortBy size i) found = .ok (all.window size i) := by
  obtain ⟨p, hcompiled, rfl⟩ := answerOf_eq_ok hall
  -- what is kept lives
  have hlive : ∀ d ∈ keptOf p found, d.isTombstone = false := fun d hd =>
    isTombstone_of_mem_keptOf hd
  unfold answerOf nthOptions
  dsimp only
  rw [hcompiled, Option.map_some, Option.getD_some, Page.bounds_nth hsize hoffset]
  show Except.ok (QueryResult.mk _ _) = .ok (QueryResult.mk _ _)
  rw [page_window _ hlive]
  rfl

/-- If the filter does not compile, no page is answered either. -/
theorem answerOf_nthOptions_error {filter : Option Filter} {sortBy : List SortBy} {size i : Nat}
    {found : List Document} {e : StoreError}
    (hall : answerOf { filter, sortBy } found = .error e) :
    answerOf (nthOptions filter sortBy size i) found = .error e := by
  unfold answerOf at hall ⊢
  unfold nthOptions
  dsimp only at hall ⊢
  -- both answers fail at the filter, before the page is looked at
  cases hcompiled : compiled filter with
  | error e' =>
    rw [hcompiled] at hall
    exact hall
  | ok p =>
    rw [hcompiled] at hall
    cases hall

/-- The answer to a query without pages counts its records, and has each context once. -/
theorem nodup_of_answerOf {filter : Option Filter} {sortBy : List SortBy} {found : List Document}
    {all : QueryResult} (hall : answerOf { filter, sortBy } found = .ok all) :
    all.records.length = all.total ∧ (all.records.map fun r => r.key.context).Nodup := by
  obtain ⟨p, -, rfl⟩ := answerOf_eq_ok hall
  have hlive : ∀ d ∈ keptOf p found, d.isTombstone = false := fun d hd =>
    isTombstone_of_mem_keptOf hd
  -- sorting and reading keep the number of documents
  constructor
  · show (page { filter, sortBy } (0, none) (keptOf p found)).length = (keptOf p found).length
    rw [← (perm_page { filter, sortBy } hlive).length_eq, List.length_map]
  · exact nodup_page { filter, sortBy } hlive (nodup_keptOf p found)

/-- The answers to a series of queries for the first pages. -/
theorem mapM_nthOptions {filter : Option Filter} {sortBy : List SortBy} {size n : Nat}
    {found : List Document} {all : QueryResult}
    (hall : answerOf { filter, sortBy } found = .ok all) (hsize : size < 2 ^ 63)
    (hoffsets : ∀ i < n, i * size < 2 ^ 63) :
    ((List.range n).map (nthOptions filter sortBy size)).mapM (answerOf · found) =
      .ok ((List.range n).map (all.window size)) := by
  induction n with
  | zero => rfl
  | succ n ih =>
    -- the pages before the last one are answered by induction
    have hbefore := ih fun i hi => hoffsets i (Nat.lt_succ_of_lt hi)
    have hlast := answerOf_nthOptions hall hsize (hoffsets n (Nat.lt_succ_self n))
    -- and a series ends with the answer to its last query
    rw [List.range_succ, List.map_append, List.map_append, List.mapM_append, hbefore]
    show (do
      let last ← [nthOptions filter sortBy size n].mapM (answerOf · found)
      return (List.range n).map (all.window size) ++ last) = _
    rw [List.mapM_cons, hlast]
    rfl

theorem mapM_nthOptions_error {filter : Option Filter} {sortBy : List SortBy} {size n : Nat}
    {found : List Document} {e : StoreError}
    (hall : answerOf { filter, sortBy } found = .error e) (hn : 0 < n) :
    ((List.range n).map (nthOptions filter sortBy size)).mapM (answerOf · found) = .error e := by
  obtain ⟨n, rfl⟩ := Nat.exists_eq_succ_of_ne_zero (Nat.ne_of_gt hn)
  -- the first page is not answered
  rw [List.range_succ_eq_map, List.map_cons, List.mapM_cons, answerOf_nthOptions_error hall]
  rfl

/-- On a store, every query answers according to the versions that it holds. -/
theorem run_query_of_shows (hs : s.medium.Shows c) (resource : Resource) (options : QueryOptions) :
    (query resource options).run s = (answerOf options (c.find resource.versionsQuery), s) :=
  hs.run_query resource options

/-- **Pages are stable.** Asked for one after the other they list the records that a query without
pages answers, in its order, as far as they reach, and each of them tells how many there are. A
backend that orders ties in its own way gives the same answers, with and without pages. -/
theorem queryPages_stable (hc : c.Exact) (hs : s.medium.Shows c) (hserve : Finds c serve)
    (resource : Resource) (filter : Option Filter) (sortBy : List SortBy) {size n : Nat}
    (hsize : size < 2 ^ 63) (hoffsets : ∀ i < n, i * size < 2 ^ 63) (st : σ) :
    (∀ options, ((query resource options).steps.run serve st).1 =
      ((query resource options).run s).1) ∧
    ((queryPages resource filter sortBy size n).steps.run serve st).1 =
      ((queryPages resource filter sortBy size n).run s).1 ∧
    match ((query resource { filter, sortBy }).run s).1 with
    | .error e => 0 < n → ((queryPages resource filter sortBy size n).run s).1 = .error e
    | .ok all => all.records.length = all.total ∧
        (all.records.map fun r => r.key.context).Nodup ∧
        ∃ pages, ((queryPages resource filter sortBy size n).run s).1 = .ok pages ∧
          pages.length = n ∧ (∀ page ∈ pages, page.total = all.total) ∧
          pages.flatMap QueryResult.records = all.records.take (n * size) ∧
          (all.total ≤ n * size → pages.flatMap QueryResult.records = all.records) := by
  let answer (options : QueryOptions) : Except StoreError QueryResult :=
    answerOf options (c.find resource.versionsQuery)
  have hstore (options : QueryOptions) : (query resource options).run s = (answer options, s) :=
    run_query_of_shows hs resource options
  have hother (options : QueryOptions) (st : σ) :
      ((query resource options).steps.run serve st).1 = answer options :=
    run_query_of_finds hc hserve resource options st
  -- on the store the state does not change, and elsewhere no answer depends on it
  have hpages : ((queryPages resource filter sortBy size n).run s).1 =
      ((List.range n).map (nthOptions filter sortBy size)).mapM answer := by
    apply run_queryEach (P := (· = s)) _ _ rfl
    rintro options _ rfl
    have hrun := hstore options
    exact ⟨congrArg Prod.fst hrun, congrArg Prod.snd hrun⟩
  have hotherPages : ((queryPages resource filter sortBy size n).steps.run serve st).1 =
      ((List.range n).map (nthOptions filter sortBy size)).mapM answer := by
    apply run_queryEach (P := fun _ => True) _ _ trivial
    intro options st _
    exact ⟨hother options st, trivial⟩
  refine ⟨fun options => ?_, hotherPages.trans hpages.symm, ?_⟩
  · -- every answer is that of what the resource has found, on either side
    rw [hother, hstore]
  rw [hstore]
  dsimp only
  rw [hpages]
  -- what is left is about the answer that is computed, whichever backend gave it
  cases hall : answer { filter, sortBy } with
  | error e => exact mapM_nthOptions_error hall
  | ok all =>
    obtain ⟨hlength, hnodup⟩ := nodup_of_answerOf hall
    have hrecords := all.flatMap_windows size n
    refine ⟨hlength, hnodup, _, mapM_nthOptions hall hsize hoffsets, by simp, ?_, hrecords, ?_⟩
    · -- a window has the total of what it is cut out of
      intro page hpage
      obtain ⟨i, -, rfl⟩ := List.mem_map.1 hpage
      rfl
    · -- if they reach to the end, nothing is left out
      intro hreach
      rw [hrecords]
      apply List.take_of_length_le
      rw [hlength]
      exact hreach

theorem queryPages_stable_reversed :
    let a := Document.sample 1 (.bool true)
    let b := { a with key := a.key.resource.key "b" }
    let c : Collection := ⟨[a, b], List.pairwise_pair.2 (.inl (by decide))⟩
    let s := Setting.idle c
    let serve : (r : Request) → Setting → r.Answer × Setting
      | .find q, s => (some (.ok (q.select [b, a])), s)
      | r, s => s.serve r
    c.Exact ∧ s.medium.Shows c ∧ Finds c serve ∧ 1 < 2 ^ 63 ∧ (∀ i < 2, i * 1 < 2 ^ 63) ∧
      ∃ all pages, ((query a.key.resource {}).run s).1 = .ok all ∧
        ((queryPages a.key.resource none [] 1 2).steps.run serve s).1 = .ok pages ∧
        pages.length = 2 ∧ pages.flatMap QueryResult.records = all.records := by
  intro a b c s serve
  -- both versions are number 1
  have hc : c.Exact := by
    have hone : (1 : UInt64).toNat < Binary64.exactBound := by decide
    exact List.forall_mem_cons.2 ⟨hone, List.forall_mem_singleton.2 hone⟩
  have hs : s.medium.Shows c := Medium.shows_memory c
  -- the other backend finds the two documents the other way round
  have hserve : Finds c serve := finds_of_perm (List.Perm.swap a b []) fun _ _ => rfl
  have hoffsets : ∀ i < 2, i * 1 < 2 ^ 63 := by decide
  have hquery : ((query a.key.resource {}).run s).1 =
      .ok ⟨page {} (0, none) (c.newestLive a.key.resource none),
        (c.newestLive a.key.resource none).length⟩ := by
    rw [run_query_of_shows hs]
    rfl
  -- two pages of one record are enough, since only two documents are stored
  have hfew : (c.newestLive a.key.resource none).length ≤ 2 * 1 := by
    have hstored : c.newestLive a.key.resource none ⊆ c.documents := fun d hd =>
      (Collection.mem_documents_of_latest (Collection.mem_newestLive.1 hd).1.2).1
    exact (((c.nodup_newestLive a.key.resource none).of_map _).subperm hstored).length_le
  obtain ⟨-, hpages, hstable⟩ :=
    queryPages_stable hc hs hserve a.key.resource none [] (by decide : 1 < 2 ^ 63) hoffsets s
  rw [hquery] at hstable
  obtain ⟨-, -, pages, hrun, hlength, -, -, hrecords⟩ := hstable
  exact ⟨hc, hs, hserve, by decide, hoffsets, _, pages, hquery, hpages.trans hrun, hlength,
    hrecords hfew⟩

end Store
end ConfigLedger
