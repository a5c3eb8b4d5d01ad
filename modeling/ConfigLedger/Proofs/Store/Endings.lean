import ConfigLedger.Proofs.Backend.Rollback
import ConfigLedger.Proofs.Store.Drafts

/-!
# How operations end

An operation that runs alone over a medium that may fail to save ends with an outcome and with a
collection. `Action.Ends c P a` says that these two fit each other as `P` asks for, whenever the
action starts on a medium that holds `c`: in memory or in a snapshot file, whichever saves fail and
whichever locks are held. An action that is cut off ends with the error that its cut-off becomes.

There is one rule for each request and one for each combinator. An addition has two endings. Either
it is done as in memory, or it is answered an error and the medium still holds what it held, since
additions that were not saved are taken back (`Snapshot.refines_turn`). A save that fails is an
error of the medium, so no failure is an internal one (`StoreError.isInternal`). What an operation
of the store adds, and when, follows from these rules: `Store.ends_write`, `Store.ends_delete`,
`Store.ends_bulkWrite` and `Store.ends_bulkDelete`.
-/

namespace ConfigLedger

variable {α β : Type} {c c' : Collection} {m : Medium} {s : Setting} {key : Key}

/-! ### Internal errors -/

/-- The error says that something went wrong inside the store. -/
def StoreError.isInternal : StoreError → Bool
  | internal _ => true
  | _ => false

theorem StoreError.OfArgument.isInternal_eq_false {e : StoreError} (h : e.OfArgument) :
    e.isInternal = false := by
  obtain ⟨detail, rfl⟩ := h
  rfl

/-- A collection that stayed as it was fits any error that is not internal. -/
def MayFail (P : Except StoreError α → Collection → Prop) (c : Collection) : Prop :=
  ∀ e : StoreError, e.isInternal = false → P (.error e) c

/-! ### Media that may fail to save -/

namespace Medium

/-- The medium holds a collection, in memory or in a snapshot file. The next saves of the file may
fail. -/
inductive Holds : Collection → Medium → Prop
  | memory (c : Collection) : Holds c (.memory c none)
  | file (f : Snapshot) (failures : List (Option Failure)) : Holds f.collection (.file f failures)

/-- An addition to a medium that held a collection was done as in memory, or it was answered an
error of the medium and added nothing. -/
def Follows (c : Collection) (done : Except BackendError α × Medium)
    (memory : Except BackendError α × Collection) : Prop :=
  (done.1 = memory.1 ∧ done.2.Holds memory.2) ∨
    ∃ reason, done.1 = .error (.io reason) ∧ done.2.Holds c

/-- A call to a snapshot is done as in memory, unless the file cannot be written. -/
theorem follows_file (f : Snapshot) (call : BackendCall) (failure : Option Failure)
    (failures : List (Option Failure)) :
    Follows f.collection
      ((call.onSnapshot f failure).1, .file (call.onSnapshot f failure).2 failures)
      (call.onMemory f.collection) := by
  obtain ⟨hidle, hsaved, hfailed⟩ := f.refines_turn call failure
  -- what the file medium holds is the collection of the snapshot after the call
  have hholds {c : Collection} (hc : (f.turn call failure).after.collection = c) :
      (Medium.file (f.turn call failure).after failures).Holds c := hc ▸ .file _ failures
  -- a call that writes ends as in memory or as before, depending on the save
  by_cases hwrites : (f.turn call failure).Writes
  · cases hsave : (f.turn call failure).save.1 with
    | none =>
      obtain ⟨hanswer, hafter, -⟩ := hsaved hwrites hsave
      exact .inl ⟨hanswer, hholds (by rw [hafter]; rfl)⟩
    | some reason =>
      obtain ⟨hanswer, hafter⟩ := hfailed hwrites reason hsave
      exact .inr ⟨_, hanswer, hholds (by rw [hafter]; rfl)⟩
  · -- an idle call answers as in memory and leaves the documents
    obtain ⟨hanswer, hafter⟩ := hidle hwrites
    have hsame : (call.onMemory f.collection).2 = f.collection := not_not.1 hwrites
    refine .inl ⟨hanswer, hholds ?_⟩
    rw [hafter, hsame]
    rfl

namespace Holds

theorem shows (h : m.Holds c) : m.Shows c := by
  cases h with
  | memory c => exact shows_memory c
  | file f failures => exact shows_file f failures

theorem documents_eq (h : m.Holds c) : m.documents = c.documents := by
  cases h <;> rfl

theorem insert (h : m.Holds c) (d : Document) : Follows c (m.insert d) (Memory.insert c d) := by
  cases h with
  | memory c => exact .inl ⟨rfl, .memory _⟩
  | file f failures => exact follows_file f (.insert d) _ _

theorem insertIf (h : m.Holds c) (d : Document) (condition : Predicate) :
    Follows c (m.insertIf d condition)
      (.ok (Memory.insertIf c d condition).1, (Memory.insertIf c d condition).2) := by
  cases h with
  | memory c => exact .inl ⟨rfl, .memory _⟩
  | file f failures => exact follows_file f (.insertIf d condition) _ _

theorem insertAll (h : m.Holds c) (documents : List Document) :
    Follows c (m.insertAll documents)
      (.ok (Memory.insertAll c documents).1, (Memory.insertAll c documents).2) := by
  cases h with
  | memory c => exact .inl ⟨rfl, .memory _⟩
  | file f failures => exact follows_file f (.insertAll documents) _ _

end Holds
end Medium

/-! ### Actions -/

namespace Action

/-- Started on a medium that holds a collection, the action ends with an outcome and a collection
that fit each other. A cut-off counts as the error that it becomes. -/
def Ends (c : Collection) (P : Except StoreError α → Collection → Prop) (a : Action α) : Prop :=
  ∀ s : Setting, s.medium.Holds c → ∃ c', (a.run s).2.medium.Holds c' ∧
    P ((a.run s).1.getD (.error .deadlineExceeded)) c'

/-- What is to be of an action, so that going on with its result ends well. -/
def Before (f : α → Action β) (P : Except StoreError β → Collection → Prop) :
    Except StoreError α → Collection → Prop
  | .ok x, c => (f x).Ends c P
  | .error e, c => P (.error e) c

variable {P : Except StoreError α → Collection → Prop} {Q : Except StoreError β → Collection → Prop}
  {a : Action α}

/-- An action that leaves the medium alone. -/
theorem ends_of_run (h : ∀ s : Setting, s.medium.Holds c →
    ∃ outcome s', a.run s = (some outcome, s') ∧ s'.medium = s.medium ∧ P outcome c) :
    a.Ends c P := by
  intro s hs
  obtain ⟨outcome, s', hrun, hmedium, hP⟩ := h s hs
  rw [hrun, hmedium]
  exact ⟨c, hs, hP⟩

/-- **Sequencing.** -/
theorem ends_bind {f : α → Action β} (h : a.Ends c (Before f Q)) : (a >>= f).Ends c Q := by
  intro s hs
  obtain ⟨c', hc', hnext⟩ := h s hs
  rw [run_bind]
  obtain ⟨outcome, s', hrun⟩ : ∃ outcome s', a.run s = (outcome, s') := ⟨_, _, rfl⟩
  rw [hrun] at hc' hnext ⊢
  -- cut off, failed, or going on from the setting that was reached
  rcases outcome with _ | (e | x)
  · exact ⟨c', hc', hnext⟩
  · exact ⟨c', hc', hnext⟩
  · exact hnext s' hc'

theorem ends_pure {x : α} (h : P (.ok x) c) : (pure x : Action α).Ends c P :=
  ends_of_run fun s _ => ⟨.ok x, s, rfl, rfl, h⟩

theorem ends_throw {e : StoreError} (h : P (.error e) c) : (throw e : Action α).Ends c P :=
  ends_of_run fun s _ => ⟨.error e, s, rfl, rfl, h⟩

theorem ends_ofExcept {outcome : Except StoreError α} (h : P outcome c) :
    (ofExcept outcome).Ends c P :=
  ends_of_run fun s _ => ⟨outcome, s, rfl, rfl, h⟩

theorem ends_record {m : Measurement} {P : Except StoreError Unit → Collection → Prop}
    (h : P (.ok ()) c) : (record m).Ends c P :=
  ends_of_run fun s _ => ⟨.ok (), s, rfl, rfl, h⟩

/-! ### Additions -/

/-- An addition that follows what is done in memory. -/
theorem ends_of_follows {done : Setting → Except BackendError α × Medium}
    {memory : Except BackendError α × Collection}
    (hrun : ∀ s : Setting, a.run s =
      (some ((done s).1.mapError StoreError.ofBackend), { s with medium := (done s).2 }))
    (hfollows : ∀ s : Setting, s.medium.Holds c → Medium.Follows c (done s) memory)
    (hdone : P (memory.1.mapError StoreError.ofBackend) memory.2) (hfailed : MayFail P c) :
    a.Ends c P := by
  intro s hs
  rw [hrun, Option.getD_some]
  -- done as in memory, or failed with the documents as before
  rcases hfollows s hs with ⟨hanswer, hholds⟩ | ⟨e, hanswer, hholds⟩
  · refine ⟨memory.2, hholds, ?_⟩
    rw [hanswer]
    exact hdone
  · refine ⟨c, hholds, ?_⟩
    rw [hanswer]
    exact hfailed _ rfl

/-- **A document is added**, or the addition fails. -/
theorem ends_insert {d : Document} {P : Except StoreError Unit → Collection → Prop}
    (hadded : ∀ c', c.insert? d = some c' → P (.ok ()) c') (hfailed : MayFail P c) :
    (insert d).Ends c P := by
  refine ends_of_follows (fun _ => run_insert d) (fun _ hs => hs.insert d) ?_ hfailed
  rw [Memory.insert]
  cases hinsert : c.insert? d with
  | none => exact hfailed _ rfl
  | some c' => exact hadded c' hinsert

/-- A document is added under a condition, or not, or the addition fails. -/
theorem ends_insertIf {d : Document} {condition : Predicate}
    {P : Except StoreError Bool → Collection → Prop}
    (hadded : ∀ c', c.insert? d = some c' → P (.ok true) c') (hrefused : P (.ok false) c)
    (hfailed : MayFail P c) : (insertIf d condition).Ends c P := by
  refine ends_of_follows (fun _ => run_insertIf d condition) (fun _ hs => hs.insertIf d condition)
    ?_ hfailed
  rw [Memory.insertIf]
  cases hinsert : c.insertIf? d condition with
  | none => exact hrefused
  | some c' => exact hadded c' (Collection.insertIf?_eq_some condition hinsert).2

/-- Documents are added each on its own, or the addition fails as a whole. -/
theorem ends_insertAll {documents : List Document}
    {P : Except StoreError (List (Except BackendError Unit)) → Collection → Prop}
    (hadded : P (.ok (Memory.insertAll c documents).1) (Memory.insertAll c documents).2)
    (hfailed : MayFail P c) : (insertAll documents).Ends c P :=
  ends_of_follows (fun _ => run_insertAll documents) (fun _ hs => hs.insertAll documents) hadded
    hfailed

/-! ### Monitors -/

/-- **Under a monitor** an action ends as it does without, or it is cut off before it starts. -/
theorem ends_holding (h : a.Ends c P) (hcut : MayFail P c) (key : Key) :
    (holding key a).Ends c P := by
  intro s hs
  obtain ⟨s', hmedium, hcutoff | hgranted⟩ := run_holding_cases s key
  · rw [hcutoff]
    exact ⟨c, hmedium.symm ▸ hs, hcut _ rfl⟩
  · rw [hgranted]
    exact h s' (hmedium.symm ▸ hs)

theorem ends_holdingAll (h : a.Ends c P) (hcut : MayFail P c) (keys : List Key) :
    (holdingAll keys a).Ends c P := by
  induction keys with
  | nil => exact h
  | cons key rest ih => exact ends_holding ih hcut key

end Action

/-! ### Calls -/

namespace Call

/-- Started on a medium that holds a collection, the call ends with an outcome and a collection that
fit each other. -/
def Ends (c : Collection) (P : Except StoreError α → Collection → Prop) (call : Call α) : Prop :=
  ∀ s : Setting, s.medium.Holds c → ∃ c', (call.run s).2.medium.Holds c' ∧ P (call.run s).1 c'

/-- What is to be of a call, so that going on with its result ends well. -/
def Before (f : α → Call β) (P : Except StoreError β → Collection → Prop) :
    Except StoreError α → Collection → Prop
  | .ok x, c => (f x).Ends c P
  | .error e, c => P (.error e) c

variable {P : Except StoreError α → Collection → Prop} {Q : Except StoreError β → Collection → Prop}
  {call : Call α}

/-- A call that leaves the medium alone. -/
theorem ends_of_run (h : ∀ s : Setting, s.medium.Holds c →
    ∃ outcome s', call.run s = (outcome, s') ∧ s'.medium = s.medium ∧ P outcome c) :
    call.Ends c P := by
  intro s hs
  obtain ⟨outcome, s', hrun, hmedium, hP⟩ := h s hs
  rw [hrun, hmedium]
  exact ⟨c, hs, hP⟩

/-- **Sequencing.** -/
theorem ends_bind {f : α → Call β} (h : call.Ends c (Before f Q)) : (call >>= f).Ends c Q := by
  intro s hs
  obtain ⟨c', hc', hnext⟩ := h s hs
  rw [run_bind]
  obtain ⟨outcome, s', hrun⟩ : ∃ outcome s', call.run s = (outcome, s') := ⟨_, _, rfl⟩
  rw [hrun] at hc' hnext ⊢
  cases outcome with
  | error e => exact ⟨c', hc', hnext⟩
  | ok x => exact hnext s' hc'

theorem ends_record {m : Measurement} {P : Except StoreError Unit → Collection → Prop}
    (h : P (.ok ()) c) : (record m).Ends c P :=
  ends_of_run fun s _ => ⟨.ok (), s, rfl, rfl, h⟩

theorem ends_throw {e : StoreError} (h : P (.error e) c) : (throw e : Call α).Ends c P :=
  ends_of_run fun s _ => ⟨.error e, s, rfl, rfl, h⟩

/-- A call under a deadline ends as its action does. -/
theorem ends_bounded {a : Action α} (h : a.Ends c P) (operation : Operation) :
    (bounded operation a).Ends c P := by
  intro s hs
  rw [run_bounded]
  exact h s hs

end Call

/-! ### Operations of the store -/

theorem Pending.previous_of_written {p : Pending} {w : Written} (h : p.written = .ok w) :
    w.previous = p.previous := by
  rw [written] at h
  split at h
  · cases h
    rfl
  · cases h

namespace Store

/-- A commit adds its document, or it fails and adds nothing. -/
theorem ends_commit {p : Pending} {precondition : Option Predicate}
    {P : Except StoreError Unit → Collection → Prop}
    (hadded : ∀ c', c.insert? p.document = some c' → P (.ok ()) c')
    (hfailed : MayFail P c) : (commit p precondition).Ends c P := by
  -- without a precondition the document is inserted, and with one it may be refused
  cases precondition with
  | none => exact Action.ends_insert hadded hfailed
  | some q =>
    rw [commit, commitConditional]
    -- a version that is not added is a conflict, which is counted and then thrown
    have hrefused : (do
        Action.record .writeConflict
        throw (.conflict ("precondition failed for " ++ p.document.key.label)) :
        Action Unit).Ends c P :=
      Action.ends_bind (Action.ends_record (Action.ends_throw (hfailed _ rfl)))
    cases p.previous with
    | none => exact hrefused
    | some r =>
      apply Action.ends_bind
      apply Action.ends_insertIf
      · intro c' hinsert
        exact Action.ends_pure (hadded c' hinsert)
      · exact hrefused
      · exact hfailed

/-- A write is computed from the version that is found. -/
theorem ends_prepareWrite {author : Author} {value : Value}
    {P : Except StoreError Pending → Collection → Prop}
    (h : ∀ now, P (.ok (.ofWrite author key value (c.latest key) now)) c) :
    (prepareWrite author key value).Ends c P :=
  Action.ends_of_run fun s hs =>
    ⟨_, s.tick, hs.shows.run_prepareWrite author key value, rfl, h (s.readings 0)⟩

/-- A deletion is computed from the record that is shown, if there is one. -/
theorem ends_prepareDelete {author : Author}
    {P : Except StoreError (Option Pending) → Collection → Prop}
    (hnone : c.shown key = none → P (.ok none) c)
    (hsome : ∀ r now, c.shown key = some r → P (.ok (some (.ofDelete author key r now))) c) :
    (prepareDelete author key).Ends c P := by
  refine Action.ends_of_run fun s hs => ?_
  have hrun := hs.shows.run_prepareDelete author key
  -- whether there is a record decides what is prepared
  cases hr : c.shown key with
  | none =>
    rw [hr] at hrun
    exact ⟨_, s, hrun, rfl, hnone hr⟩
  | some r =>
    rw [hr] at hrun
    exact ⟨_, s.tick, hrun, rfl, hsome r _ hr⟩

/-- **A write** adds the version behind the one that is found and answers it, or it fails and adds
nothing. -/
theorem ends_write {author : Author} {value : Value} {filter : Option Filter}
    {P : Except StoreError Written → Collection → Prop}
    (hadded : ∀ now w c', value.isNull = false →
      let p := Pending.ofWrite author key value (c.latest key) now
      c.insert? p.document = some c' → w.record.document = p.document → w.previous = c.shown key →
        P (.ok w) c')
    (hfailed : MayFail P c) : (write author key value filter).Ends c P := by
  rw [write_eq]
  apply Call.ends_bounded
  apply Action.ends_bind
  apply Action.ends_ofExcept
  -- what may fail comes in turn: the value, the filter, the monitor, the commit
  cases hcheck : checkWritable key value with
  | error e => exact hfailed e (ofArgument_of_checkWritable hcheck).isInternal_eq_false
  | ok x =>
    apply Action.ends_bind
    rw [condition_eq]
    apply Action.ends_ofExcept
    cases hfilter : compiled filter with
    | error e => exact hfailed e (ofArgument_of_compiled hfilter).isInternal_eq_false
    | ok precondition =>
      apply Action.ends_holding _ hfailed
      apply Action.ends_bind
      apply ends_prepareWrite
      intro now
      apply Action.ends_bind
      apply ends_commit _ hfailed
      intro c' hinsert
      -- a value that is not null is answered with its record
      have hvalue := isNull_of_checkWritable hcheck
      obtain ⟨w, hwritten, hdocument⟩ :=
        Pending.written_ofWrite hvalue author key (c.latest key) now
      apply Action.ends_ofExcept
      rw [hwritten]
      exact hadded now w c' hvalue hinsert hdocument (Pending.previous_of_written hwritten)

/-- **A deletion** adds a tombstone behind the version that is shown and answers the record of that,
or there is nothing to delete, or it fails and adds nothing. -/
theorem ends_delete {author : Author} {P : Except StoreError (Option Record) → Collection → Prop}
    (hnone : c.shown key = none → P (.ok none) c)
    (hdeleted : ∀ r now c', c.shown key = some r →
      c.insert? (Pending.ofDelete author key r now).document = some c' → P (.ok (some r)) c')
    (hfailed : MayFail P c) : (delete author key).Ends c P := by
  rw [delete_eq]
  apply Call.ends_bounded
  -- a monitor that is denied, or a key without a record, and nothing is added
  apply Action.ends_holding _ hfailed
  apply Action.ends_bind
  apply ends_prepareDelete
  · intro hr
    exact Action.ends_pure (hnone hr)
  · intro r now hr
    apply Action.ends_bind
    apply Action.ends_insert _ hfailed
    intro c' hinsert
    exact Action.ends_pure (hdeleted r now c' hr hinsert)

/-! ### Operations on many keys -/

section

variable {finish : Pending → Except StoreError α}
  {P : Except StoreError (Answers α) → Collection → Prop}

theorem ends_recordConflicts {outcomes : List (Except BackendError Unit)}
    {P : Except StoreError Unit → Collection → Prop} (h : P (.ok ()) c) :
    (recordConflicts outcomes).Ends c P :=
  Action.ends_of_run fun s _ => ⟨.ok (), s, run_recordConflicts outcomes, rfl, h⟩

/-- **What is prepared** is committed element by element, or the batch fails as a whole. -/
theorem ends_commitAll {prepared : List (Key × Prepared α)}
    (hdone : P (.ok (commitEach finish c prepared).1) (commitEach finish c prepared).2)
    (hfailed : MayFail P c) : (commitAll finish prepared).Ends c P := by
  rw [settle_insertAll] at hdone
  unfold commitAll
  apply Action.ends_bind
  apply Action.ends_insertAll _ hfailed
  apply Action.ends_bind
  apply ends_recordConflicts
  exact Action.ends_pure hdone

/-- **A batch** is refused where it is empty. Otherwise it is prepared from a collection and
committed to it, or it fails and adds nothing. -/
theorem ends_batch {empty : Bool} {reason : String} {m : Measurement} {operation : Operation}
    {keys : List Key} {prepare : Action (List (Key × Prepared α))} {drafts : List (Key × Draft α)}
    (hprepare : ∀ s : Setting, s.medium.Shows c → ∃ n,
      prepare.run s = (some (.ok (Draft.fill drafts s.readings)), s.later n))
    (hdone : ∀ readings,
      let done := commitEach finish c (Draft.fill drafts readings)
      P (.ok done.1) done.2)
    (hfailed : MayFail P c) :
    (do if empty then throw (.invalidArgument reason)
        Call.record m
        bounded operation (Action.holdingAll keys do commitAll finish (← prepare)) :
        Call (Answers α)).Ends c P := by
  cases empty with
  | true => exact Call.ends_bind (Call.ends_throw (hfailed _ rfl))
  | false =>
    refine Call.ends_bind (Call.ends_record ?_)
    apply Call.ends_bounded
    apply Action.ends_holdingAll _ hfailed
    apply Action.ends_bind
    refine Action.ends_of_run fun s hs => ?_
    -- the drafts are made from the collection that they are committed to
    obtain ⟨n, hrun⟩ := hprepare s hs.shows
    exact ⟨_, _, hrun, rfl, ends_commitAll (hdone s.readings) hfailed⟩

end

/-- **A bulk write** commits its drafts one after the other, or it fails and adds nothing. -/
theorem ends_bulkWrite {author : Author} {values : Entries Key Value}
    {P : Except StoreError (Answers Written) → Collection → Prop}
    (hdone : ∀ readings,
      let done := commitEach Pending.written c
        (Draft.fill (draftWrites author c values.toList) readings)
      P (.ok done.1) done.2)
    (hfailed : MayFail P c) : (bulkWrite author values).Ends c P := by
  rw [bulkWrite]
  exact ends_batch (fun _ hs => ⟨_, run_prepareWrites hs author values.toList⟩) hdone hfailed

/-- **A bulk deletion** commits its drafts one after the other, or it fails and adds nothing. -/
theorem ends_bulkDelete {author : Author} {keys : List Key}
    {P : Except StoreError (Answers (Option Record)) → Collection → Prop}
    (hdone : ∀ readings,
      let done := commitEach (fun p => .ok p.previous) c
        (Draft.fill (draftDeletes author c [] keys) readings)
      P (.ok done.1) done.2)
    (hfailed : MayFail P c) : (bulkDelete author keys).Ends c P := by
  rw [bulkDelete]
  exact ends_batch (fun _ hs => ⟨_, run_prepareDeletes hs author [] keys⟩) hdone hfailed

end Store
end ConfigLedger
