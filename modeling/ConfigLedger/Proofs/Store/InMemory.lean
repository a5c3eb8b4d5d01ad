import ConfigLedger.Proofs.Store.Reading

/-!
# The store over a collection in memory

In a setting whose medium is a collection in memory, the parts of an operation are functions of
that collection and of the next reading of the clock. Where versions can be told apart, what is
read of a key is its newest version (`Collection.Exact.shown_eq`), what is read of a resource are
the newest versions of its keys (`Collection.Exact.mem_newestLive`), and a commit is an addition to
the collection (`run_commitConditional`, `run_commitAll`).
-/

namespace ConfigLedger

variable {c c' : Collection} {s : Setting} {key : Key} {d : Document}

/-! ### Growth -/

/-- Whatever is asked of a collection in memory, nothing is taken away from it. -/
theorem Setting.serve_memory (hs : s.medium = .memory c none) (r : Request) :
    ∃ c', (s.serve r).2.medium = .memory c' none ∧ c.documents ⊆ c'.documents := by
  -- only additions change the collection
  have hsame : ∃ c', s.medium = .memory c' none ∧ c.documents ⊆ c'.documents :=
    ⟨c, hs, List.Subset.refl _⟩
  cases r with
  | insert d =>
    refine ⟨(Memory.insert c d).2, ?_, ?_⟩
    · rw [serve, hs]
      rfl
    · rw [Memory.insert]
      cases hinsert : c.insert? d with
      | none => exact List.Subset.refl _
      | some c' => exact Collection.subset_insert? hinsert
  | insertIf d condition =>
    refine ⟨(Memory.insertIf c d condition).2, ?_, ?_⟩
    · rw [serve, hs]
      rfl
    · rw [Memory.insertIf]
      cases hinsert : c.insertIf? d condition with
      | none => exact List.Subset.refl _
      | some c' =>
        exact Collection.subset_insert? (Collection.insertIf?_eq_some condition hinsert).2
  | insertAll documents =>
    refine ⟨(c.insertAll documents).2, ?_, c.subset_insertAll documents⟩
    rw [serve, hs]
    rfl
  | lockKey key =>
    rw [Action.serve_lockKey_medium]
    exact hsame
  | lockTenant tenant =>
    rw [Action.serve_lockTenant_medium]
    exact hsame
  | _ => exact hsame

/-- **A collection in memory only grows**, whatever procedure runs. -/
theorem Procedure.run_memory {α : Type} (p : Procedure α) (hs : s.medium = .memory c none) :
    ∃ c', (p.run Setting.serve s).2.medium = .memory c' none ∧ c.documents ⊆ c'.documents := by
  induction p generalizing s c with
  | done a => exact ⟨c, hs, List.Subset.refl _⟩
  | ask r next ih =>
    obtain ⟨c₁, hs₁, hsub₁⟩ := Setting.serve_memory hs r
    obtain ⟨c₂, hs₂, hsub₂⟩ := ih _ hs₁
    exact ⟨c₂, hs₂, List.Subset.trans hsub₁ hsub₂⟩

/-! ### Reading -/

theorem Collection.Exact.shown_eq (h : c.Exact) (key : Key) :
    c.shown key = (c.newest key).bind Document.record? := by
  rw [shown, h.latest_eq]

theorem Collection.Exact.mem_newestLive (h : c.Exact) {resource : Resource}
    {filter : Option Predicate} :
    d ∈ c.newestLive resource filter ↔
      (d.key.resource = resource ∧ c.newest d.key = some d) ∧
        d.isTombstone = false ∧ filter.all d.satisfies = true := by
  rw [Collection.mem_newestLive, h.latest_eq]

namespace Store

theorem shows (hs : s.medium = .memory c none) : s.medium.Shows c :=
  hs ▸ Medium.shows_memory c

/-! ### Writing -/

theorem run_prepareWrite (hs : s.medium = .memory c none) (hc : c.Exact) (author : Author)
    (value : Value) :
    (prepareWrite author key value).run s =
      (some (.ok (.ofWrite author key value (c.newest key) (s.readings 0))), s.tick) := by
  rw [(shows hs).run_prepareWrite, hc.latest_eq]

theorem run_prepareDelete (hs : s.medium = .memory c none) (hc : c.Exact) (author : Author)
    (key : Key) :
    (prepareDelete author key).run s =
      match (c.newest key).bind Document.record? with
      | none => (some (.ok none), s)
      | some r => (some (.ok (some (.ofDelete author key r (s.readings 0)))), s.tick) := by
  have hrun := (shows hs).run_prepareDelete author key
  rw [hc.shown_eq] at hrun
  exact hrun

theorem run_insert (hs : s.medium = .memory c none) (hinsert : c.insert? d = some c') :
    (Action.insert d).run s = (some (.ok ()), { s with medium := .memory c' none }) := by
  rw [Action.run_insert, hs]
  simp only [Medium.insert, Faulty.insert, Faulty.insertError?, Faulty.raced, Memory.insert,
    hinsert]
  rfl

theorem run_insertIf (hs : s.medium = .memory c none) (condition : Predicate) :
    (Action.insertIf d condition).run s =
      (some (.ok (c.insertIf? d condition).isSome),
        { s with medium := .memory ((c.insertIf? d condition).getD c) none }) := by
  rw [Action.run_insertIf, hs]
  simp only [Medium.insertIf, Faulty.insertIf, Faulty.insertError?, Faulty.raced, Memory.insertIf]
  cases c.insertIf? d condition <;> rfl

theorem run_insertAll (hs : s.medium = .memory c none) (documents : List Document) :
    (Action.insertAll documents).run s =
      (some (.ok (Memory.outcomes documents (c.insertAll documents).1)),
        { s with medium := .memory (c.insertAll documents).2 none }) := by
  rw [Action.run_insertAll, hs]
  rfl

@[simp] theorem run_recordConflicts (outcomes : List (Except BackendError Unit)) :
    (recordConflicts outcomes).run s = (some (.ok ()), s) := by
  induction outcomes with
  | nil => rfl
  | cons outcome rest ih =>
    rcases outcome with e | _
    · cases e with
      | duplicateVersion _ _ =>
        rw [recordConflicts, Action.run_bind, Action.run_record, Action.andThen_ok, ih]
      | _ => exact ih
    · exact ih

theorem run_commitAll {α : Type} (hs : s.medium = .memory c none)
    (finish : Pending → Except StoreError α) (prepared : List (Key × Prepared α)) :
    (commitAll finish prepared).run s =
      let documents := prepared.filterMap (·.2.document?)
      (some (.ok (settle finish prepared (Memory.outcomes documents (c.insertAll documents).1))),
        { s with medium := .memory (c.insertAll documents).2 none }) := by
  rw [commitAll, Action.run_bind, run_insertAll hs, Action.andThen_ok, Action.run_bind,
    run_recordConflicts, Action.andThen_ok, Action.run_pure]

/-- The version below a pending one that meets a precondition is the newest one, if it does. -/
theorem length_filter_condition_ofWrite (hexact : c.ExactAt key) {author : Author}
    {value : Value} {now : UInt64} {r : Record} (hr : (c.newest key).bind Document.record? = some r)
    (precondition : Predicate) :
    (c.documents.filter
      (·.satisfies ((Pending.ofWrite author key value (c.newest key) now).condition
        precondition))).length = 1 ↔ r.satisfies precondition = true := by
  -- the live record is the newest version, and what is pending follows it
  obtain ⟨e, hnewest, hrecord⟩ := Option.bind_eq_some_iff.1 hr
  obtain ⟨-, rfl⟩ := Document.record?_eq_some_iff.1 hrecord
  obtain ⟨hmem, hkey⟩ := Collection.mem_documents_of_newest hnewest
  have hversion : nextVersion (c.newest key) = r.document.version + 1 := by
    rw [hnewest]
    rfl
  exact Pending.length_filter_condition (p := .ofWrite author key value (c.newest key) now)
    hexact hmem hkey hversion

theorem run_commitConditional_none {p : Pending} (hp : p.previous = none)
    (precondition : Predicate) :
    (commitConditional p precondition).run s =
      (some (.error (.conflict ("precondition failed for " ++ p.document.key.label))), s) := by
  rw [commitConditional, hp]
  rfl

theorem run_commitConditional_some {p : Pending} {r : Record} (hp : p.previous = some r)
    (precondition : Predicate) :
    (commitConditional p precondition).run s =
      Action.andThen ((Action.insertIf p.document (p.condition precondition)).run s) fun met s =>
        if met then (some (.ok ()), s)
        else
          (some (.error (.conflict ("precondition failed for " ++ p.document.key.label))), s) := by
  rw [commitConditional, hp]
  refine (Action.run_bind _ _).trans (congrArg _ ?_)
  funext met s
  cases met <;> rfl

/-- **A conditional commit adds the version exactly if the one below lives and meets the
precondition.** -/
theorem run_commitConditional (hs : s.medium = .memory c none) (hexact : c.ExactAt key)
    {author : Author} {value : Value} {now : UInt64} (precondition : Predicate) :
    (commitConditional (.ofWrite author key value (c.newest key) now) precondition).run s =
      if ((c.newest key).bind Document.record?).any (·.satisfies precondition) then
        (Action.insert (Pending.ofWrite author key value (c.newest key) now).document).run s
      else (some (.error (.conflict ("precondition failed for " ++ key.label))), s) := by
  -- the pending version is free
  obtain ⟨c', hinsert⟩ := hexact.insert?_next
    (d := (Pending.ofWrite author key value (c.newest key) now).document) rfl rfl
  cases hr : (c.newest key).bind Document.record? with
  | none => exact run_commitConditional_none hr precondition
  | some r =>
    rw [run_commitConditional_some hr, run_insertIf hs, Action.andThen_ok, Collection.insertIf?,
      Option.any_some]
    -- one document meets the condition if the live record does, and else none
    by_cases hmet : r.satisfies precondition = true
    · rw [if_pos hmet, if_pos ((length_filter_condition_ofWrite hexact hr precondition).2 hmet),
        hinsert, run_insert hs hinsert]
      rfl
    · rw [if_neg hmet,
        if_neg (mt (length_filter_condition_ofWrite hexact hr precondition).1 hmet),
        Option.getD_none, ← hs]
      rfl

/-- A commit adds the version unless there is a precondition that is not met. -/
theorem run_commit (hs : s.medium = .memory c none) (hexact : c.ExactAt key) {p : Pending}
    {author : Author} {value : Value} {now : UInt64}
    (hp : p = .ofWrite author key value (c.newest key) now) (precondition : Option Predicate) :
    (commit p precondition).run s =
      if precondition.all fun q => p.previous.any (·.satisfies q) then
        (Action.insert p.document).run s
      else (some (.error (.conflict ("precondition failed for " ++ key.label))), s) := by
  subst hp
  cases precondition with
  | none => rfl
  | some q => exact run_commitConditional hs hexact q

/-- **What a write does under the monitor of its key.** The version behind the newest one is free,
so it is stored unless there is a precondition that is not met. -/
theorem run_writeLocked (hs : s.medium = .memory c none) (hexact : c.ExactAt key) {p : Pending}
    {author : Author} {value : Value}
    (hp : p = .ofWrite author key value (c.newest key) (s.readings 0))
    (precondition : Option Predicate) :
    ∃ c', c.insert? p.document = some c' ∧
      (writeLocked author key value precondition).run s =
        if precondition.all fun q => p.previous.any (·.satisfies q) then
          (some p.written, { s.tick with medium := .memory c' none })
        else (some (.error (.conflict ("precondition failed for " ++ key.label))), s.tick) := by
  -- the version that is pending is the one behind the newest, which is free
  have hkey : p.document.key = key := by rw [hp]; rfl
  have hversion : p.document.version = nextVersion (c.newest key) := by rw [hp]; rfl
  obtain ⟨c', hinsert⟩ := hexact.insert?_next hkey hversion
  -- preparing reads the clock once
  have hprepare : (prepareWrite author key value).run s = (some (.ok p), s.tick) := by
    rw [(shows hs).run_prepareWrite, hexact.latest_eq, hp]
  refine ⟨c', hinsert, ?_⟩
  rw [writeLocked, Action.run_bind, hprepare, Action.andThen_ok, Action.run_bind,
    run_commit (s := s.tick) hs hexact hp, run_insert (s := s.tick) hs hinsert]
  split <;> rfl

end Store

end ConfigLedger
