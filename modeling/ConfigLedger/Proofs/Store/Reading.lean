import ConfigLedger.Proofs.Backend.Ties
import ConfigLedger.Proofs.Store.Ledger

/-!
# Reading from any collection

Whatever a collection holds, an operation that reads is a function of it, as long as the medium
answers queries from that collection (`Medium.Shows`). What is read of a key is the record of the
version that the query for its latest version finds (`run_live`), and what is read of a resource
are the versions that these queries would find for all keys of it (`mem_newestLive`).
-/

namespace ConfigLedger

variable {c : Collection} {s : Setting} {key : Key} {d : Document}

/-- Documents of one resource that agree in all that a page is sorted by are of one key. -/
theorem QueryOptions.key_eq_of_compareBy (options : QueryOptions) {e : Document}
    (hresource : d.key.resource = e.key.resource)
    (heq : compareBy Document.field options.sortKeys d e = .eq) : d.key = e.key := by
  rw [sortKeys, compareBy_append, Ordering.then_eq_eq] at heq
  -- the context is the last sort key
  obtain ⟨-, hlast⟩ := heq
  rw [compareBy_cons, compareLex, compareBy_nil, Ordering.then_eq] at hlast
  exact congrArg₂ Key.mk hresource (Std.LawfulEqOrd.eq_of_compare hlast)

namespace Collection

/-- The record that is read of a key. -/
def shown (c : Collection) (key : Key) : Option Record :=
  (c.latest key).bind Document.record?

theorem shown_congr {c' : Collection} (h : c.history key = c'.history key) :
    c.shown key = c'.shown key := by
  rw [shown, shown, latest_congr h]

theorem shown_eq_some_iff {r : Record} :
    c.shown key = some r ↔ c.latest key = some r.document ∧ r.value.isNull = false := by
  rw [shown, Option.bind_eq_some_iff]
  constructor
  · rintro ⟨d, hd, hr⟩
    obtain ⟨hlive, rfl⟩ := Document.record?_eq_some_iff.1 hr
    exact ⟨hd, hlive⟩
  · rintro ⟨hd, hlive⟩
    exact ⟨r.document, hd, Record.record?_document.2 hlive⟩

theorem shown_empty (key : Key) : Collection.empty.shown key = none := by
  rw [shown, latest_of_newest_eq_none rfl]
  rfl

theorem key_of_shown {r : Record} (h : c.shown key = some r) : r.key = key :=
  (mem_documents_of_latest (shown_eq_some_iff.1 h).1).2

/-- After an addition a key shows what it showed before, or it shows the addition. -/
theorem shown_of_insert? {c' : Collection} (h : c.insert? d = some c') (key : Key) :
    c'.shown key = c.shown key ∨ (d.key = key ∧ c'.shown key = d.record?) := by
  rcases latest_of_insert? h key with hsame | ⟨hkey, hadded⟩
  · left
    rw [shown, shown, hsame]
  · right
    rw [shown, hadded, Option.bind_some]
    exact ⟨hkey, rfl⟩

/-- What is read of a resource: the live ones among the latest versions of its keys. -/
def newestLive (c : Collection) (resource : Resource) (filter : Option Predicate) :
    List Document :=
  (firstBy (fun d : Document => d.key.context)
    (c.find { condition := some resource.predicate, sort := [newestFirst] })).filter fun d =>
      !d.isTombstone && filter.all d.satisfies

theorem mem_newestLive {resource : Resource} {filter : Option Predicate} :
    d ∈ c.newestLive resource filter ↔
      (d.key.resource = resource ∧ c.latest d.key = some d) ∧
        d.isTombstone = false ∧ filter.all d.satisfies = true := by
  rw [newestLive, List.mem_filter, c.mem_firstBy_find, Bool.and_eq_true, Bool.not_eq_true']

theorem nodup_newestLive (c : Collection) (resource : Resource) (filter : Option Predicate) :
    ((c.newestLive resource filter).map fun d => d.key.context).Nodup :=
  (nodup_map_firstBy _ _).sublist (List.filter_sublist.map _)

end Collection

/-- Queries are answered from a collection. -/
def Medium.Shows (c : Collection) (m : Medium) : Prop :=
  ∀ q, m.find q = some (.ok (c.find q))

/-- To compile a filter takes no request. -/
theorem Store.condition_eq (filter : Option Filter) :
    condition filter = Action.ofExcept (compiled filter) := by
  cases filter with
  | none => rfl
  | some f =>
    rw [condition, compiled]
    cases f.compile.mapError StoreError.ofFilter <;> rfl

@[simp] theorem Store.run_condition (filter : Option Filter) :
    (condition filter).run s = (some (compiled filter), s) := by
  rw [condition_eq, Action.run_ofExcept]

namespace Medium

theorem shows_memory (c : Collection) : (memory c none).Shows c :=
  fun _ => rfl

theorem shows_file (f : Snapshot) (failures : List (Option Failure)) :
    (file f failures).Shows f.collection :=
  fun _ => rfl

namespace Shows

theorem run_find (hs : s.medium.Shows c) (q : Query) :
    (Action.find q).run s = (some (.ok (c.find q)), s) := by
  rw [Action.run_find, hs]
  rfl

theorem run_latest (hs : s.medium.Shows c) (key : Key) :
    (Store.latest key).run s = (some (.ok (c.latest key)), s) := by
  rw [Store.latest, Action.run_bind, hs.run_find, c.find_latest, Action.andThen_ok,
    Action.run_pure, Option.head?_toList]

theorem run_live (hs : s.medium.Shows c) (key : Key) :
    (Store.live key).run s = (some (.ok (c.shown key)), s) := by
  rw [Store.live, Action.run_bind, hs.run_latest, Action.andThen_ok, Action.run_pure,
    Collection.shown]

theorem run_latestLive (hs : s.medium.Shows c) (resource : Resource)
    (filter : Option Predicate) :
    (Store.latestLive resource filter).run s =
      (some (.ok (c.newestLive resource filter)), s) := by
  rw [Store.latestLive, Action.run_bind, hs.run_find, Action.andThen_ok, Action.run_pure]
  rfl

/-- What is to be written is computed from the version that is found. -/
theorem run_prepareWrite (hs : s.medium.Shows c) (author : Author) (key : Key) (value : Value) :
    (Store.prepareWrite author key value).run s =
      (some (.ok (.ofWrite author key value (c.latest key) (s.readings 0))), s.tick) := by
  rw [Store.prepareWrite_eq, Action.run_bind, hs.run_latest, Action.andThen_ok, Action.run_bind,
    Action.run_now, Action.andThen_ok, Action.run_pure]

theorem run_prepareDelete (hs : s.medium.Shows c) (author : Author) (key : Key) :
    (Store.prepareDelete author key).run s =
      match c.shown key with
      | none => (some (.ok none), s)
      | some r => (some (.ok (some (.ofDelete author key r (s.readings 0)))), s.tick) := by
  rw [Store.prepareDelete_eq, Action.run_bind, hs.run_live, Action.andThen_ok]
  cases c.shown key with
  | none => rfl
  | some r => rw [Action.run_bind, Action.run_now, Action.andThen_ok, Action.run_pure]

theorem run_prepareWriting (hs : s.medium.Shows c) (author : Author) (key : Key) (value : Value) :
    (Store.prepareWriting author key value).run s =
      match Store.checkWritable key value with
      | .error e => (some (.ok (.answered (.error e))), s)
      | .ok _ =>
        (some (.ok (.pending (.ofWrite author key value (c.latest key) (s.readings 0)))),
          s.tick) := by
  rw [Store.prepareWriting, Action.run_bind, Action.run_attempt, Action.run_bind,
    Action.run_ofExcept]
  cases Store.checkWritable key value with
  -- an element that must not be written is answered without a look at the clock
  | error e => rfl
  | ok _ =>
    rw [Action.andThen_ok, Action.run_bind, hs.run_prepareWrite]
    rfl

/-- A key that came before is not looked up. -/
theorem run_prepareDeletion (hs : s.medium.Shows c) (author : Author) (seen : List Key)
    (key : Key) :
    (Store.prepareDeletion author seen key).run s =
      if key ∈ seen then (some (.ok (.answered (.ok none))), s)
      else match c.shown key with
        | none => (some (.ok (.answered (.ok none))), s)
        | some r => (some (.ok (.pending (.ofDelete author key r (s.readings 0)))), s.tick) := by
  rw [Store.prepareDeletion]
  by_cases hmem : key ∈ seen
  · rw [if_pos hmem, if_pos hmem]
    -- a clock is read only for a deletion that stores something
    rfl
  · rw [if_neg hmem, if_neg hmem, Action.run_bind, Action.run_attempt, Action.run_bind,
      hs.run_prepareDelete]
    cases c.shown key <;> rfl

/-- **A read answers the record that is shown.** -/
theorem run_read (hs : s.medium.Shows c) (key : Key) :
    (Store.read key).run s = (.ok (c.shown key), s) := by
  rw [Store.read, Call.run_bounded, hs.run_live]
  rfl

theorem run_read_iff (hs : s.medium.Shows c) {found : Option Record} :
    (Store.read key).run s = (.ok found, s) ↔ c.shown key = found := by
  rw [hs.run_read, Prod.mk.injEq, Except.ok.injEq, and_iff_left rfl]

theorem run_readAll (hs : s.medium.Shows c) (records : Entries Key Record) (keys : List Key) :
    (Store.readAll records keys).run s =
      (some (.ok (keys.foldl (fun records key =>
        ((c.shown key).map (records.put key)).getD records) records)), s) := by
  induction keys generalizing records with
  | nil => rfl
  | cons key keys ih =>
    rw [Store.readAll, Action.run_bind, hs.run_live, Action.andThen_ok, List.foldl_cons]
    cases c.shown key <;> exact ih _

theorem run_readMany (hs : s.medium.Shows c) (keys : List Key) :
    (Store.readMany keys).run s =
      (.ok (keys.foldl (fun records key =>
        ((c.shown key).map (records.put key)).getD records) .empty), s) := by
  rw [Store.readMany, Call.run_bounded, hs.run_readAll]
  rfl

/-- **A query** answers a page of what is read of a resource. How many records match is counted
before the page is cut. -/
theorem run_query (hs : s.medium.Shows c) (resource : Resource) (options : QueryOptions) :
    (Store.query resource options).run s =
      (do
        let filter ← compiled options.filter
        let bounds ← (options.page.map Page.bounds).getD (.ok (0, none))
        return ⟨Store.page options bounds (c.newestLive resource filter),
          (c.newestLive resource filter).length⟩, s) := by
  rw [Store.query, Call.run_bounded, Action.run_bind, Store.run_condition]
  cases compiled options.filter with
  -- a filter that does not compile is answered before anything is looked for
  | error e => rfl
  | ok filter =>
    rw [Action.andThen_ok]
    -- what is done once the bounds are known
    have hfind (bounds : Nat × Option Nat) :
        (do
          let matching ← Store.latestLive resource filter
          Action.record (.queryResults matching.length)
          return ⟨Store.page options bounds matching, matching.length⟩ :
          Action QueryResult).run s =
        (some (.ok ⟨Store.page options bounds (c.newestLive resource filter),
          (c.newestLive resource filter).length⟩), s) := by
      rw [Action.run_bind, hs.run_latestLive, Action.andThen_ok, Action.run_bind,
        Action.run_record, Action.andThen_ok, Action.run_pure]
    cases hpage : options.page with
    | none =>
      -- without pages the bounds are those of everything
      dsimp only
      rw [Action.run_bind, Action.run_pure, Action.andThen_ok, hfind]
      rfl
    | some page =>
      dsimp only
      rw [Action.run_bind, Action.run_ofExcept]
      cases hbounds : page.bounds with
      | error e =>
        -- bounds that do not exist are an error, which is answered before anything is looked for
        -- too
        rw [Action.andThen_error, Option.map_some, Option.getD_some, hbounds]
        rfl
      | ok bounds =>
        rw [Action.andThen_ok, hfind, Option.map_some, Option.getD_some, hbounds]
        rfl

theorem run_count (hs : s.medium.Shows c) (resource : Resource) (filter : Option Filter) :
    (Store.count resource filter).run s =
      (do return (c.newestLive resource (← compiled filter)).length, s) := by
  rw [Store.count, Call.run_bounded, Action.run_bind, Store.run_condition]
  cases compiled filter with
  | error e => rfl
  | ok filter =>
    rw [Action.andThen_ok, Action.run_bind, hs.run_latestLive, Action.andThen_ok,
      Action.run_pure]
    rfl

end Shows
end Medium

/-! ### Samples -/

/-- A version of the default instance of a resource. -/
def Document.sample (version : UInt64) (value : Value) : Document :=
  ⟨Resource.defaultKey ⟨"rules", "alerting", "tenant-1"⟩, version, ⟨"ada", "ada@example.com"⟩,
    value, 1000, 1000⟩

/-- A store in memory that nobody works on. -/
def Setting.idle (c : Collection) : Setting :=
  ⟨.memory c none, fun _ => 2000, {}, ⟨1, []⟩⟩

end ConfigLedger
