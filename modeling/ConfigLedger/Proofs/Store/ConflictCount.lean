import ConfigLedger.Proofs.Store.Tallying

/-!
# Which conflicts are counted

A version that is taken reaches the caller as a conflict on four ways: from a condition that is not
met, from an addition without a condition, from the tombstone of a deletion, and from an element of
a bulk operation. Two of them count it: the condition, and the element.

So in any surroundings that can count, the count grows by the conflicts that are answered to writes
with a precondition and to elements of bulk operations, over any run of calls. It grows by all
conflicts exactly if no write without a precondition and no deletion is answered one
(`StoreCall.meter_runAllIn`).
-/

namespace ConfigLedger

variable {α : Type}

/-- How many elements are answered a conflict. -/
def Answers.conflicts (answers : Answers α) : Nat :=
  answers.countP fun answer => Conflict answer.2

theorem Answers.conflicts_cons (answer : Key × Except StoreError α) (answers : Answers α) :
    Answers.conflicts (answer :: answers) =
      answers.conflicts + if Conflict answer.2 then 1 else 0 := by
  simp only [conflicts, List.countP_cons, decide_eq_true_eq]

/-! ### Parts of operations -/

namespace Store

open ConfigLedger.Action

theorem calm_latest (key : Key) : (latest key).Calm fun _ => True :=
  calm_bind (calm_find _) fun _ _ => calm_pure trivial

theorem calm_live (key : Key) : (live key).Calm fun _ => True :=
  calm_bind (calm_latest key) fun _ _ => calm_pure trivial

theorem calm_latestLive (resource : Resource) (filter : Option Predicate) :
    (latestLive resource filter).Calm fun _ => True :=
  calm_bind (calm_find _) fun _ _ => calm_pure trivial

theorem calm_checkWritable (key : Key) (value : Value) :
    (ofExcept (checkWritable key value)).Calm fun _ => True := by
  refine calm_ofExcept ?_ fun _ _ => trivial
  cases h : checkWritable key value with
  | error e => exact (ofArgument_of_checkWritable h).not_conflict
  | ok x => exact not_conflict_ok x

/-- A filter becomes a predicate, and none becomes none. -/
theorem calm_condition (filter : Option Filter) :
    (condition filter).Calm fun precondition => precondition.isSome = filter.isSome := by
  rw [condition_eq]
  refine calm_ofExcept ?_ fun precondition h => ?_
  · -- a filter that does not compile is an error of the argument
    cases h : compiled filter with
    | error e => exact (ofArgument_of_compiled h).not_conflict
    | ok x => exact not_conflict_ok x
  · cases filter with
    | none =>
      obtain rfl : none = precondition := Except.ok.inj h
      rfl
    | some f =>
      rw [compiled] at h
      cases hf : f.compile with
      | error e =>
        rw [hf] at h
        cases h
      | ok p =>
        rw [hf] at h
        obtain rfl : some p = precondition := Except.ok.inj h
        rfl

theorem calm_prepareWrite (author : Author) (key : Key) (value : Value) :
    (prepareWrite author key value).Calm fun _ => True := by
  rw [prepareWrite_eq]
  exact calm_bind (calm_latest key) fun _ _ => calm_bind calm_now fun _ _ => calm_pure trivial

theorem calm_prepareDelete (author : Author) (key : Key) :
    (prepareDelete author key).Calm fun _ => True := by
  rw [prepareDelete_eq]
  refine calm_bind (calm_live key) fun previous _ => ?_
  cases previous with
  | none => exact calm_pure trivial
  | some r => exact calm_bind calm_now fun _ _ => calm_pure trivial

theorem calm_written (p : Pending) : (ofExcept p.written).Calm fun _ => True :=
  calm_ofExcept p.not_conflict_written fun _ _ => trivial

/-- **A condition that is not met** is counted as it is answered. -/
theorem counts_commitConditional (p : Pending) (precondition : Predicate) :
    (commitConditional p precondition).Counts 1 fun _ => 0 := by
  -- whether the condition is met decides both the count and the answer
  have hrefused (met : Bool) : Action.Counts 1 (fun _ => 0) (unless met do
      Action.record .writeConflict
      throw (.conflict ("precondition failed for " ++ p.document.key.label))) := by
    cases met with
    | true => exact (calm_pure (R := fun _ => True) trivial).counts
    | false =>
      intro _ _
      exact (tally_of_conflict ⟨_, rfl⟩).symm
  rw [commitConditional]
  cases p.previous with
  | none => exact (calm_pure (R := fun _ => True) trivial).counts_bind fun met _ => hrefused met
  | some r => exact (calm_insertIf _ _).counts_bind fun met _ => hrefused met

/-- A version that is committed without a precondition is refused without being counted. -/
theorem counts_commit (p : Pending) (precondition : Option Predicate) :
    (commit p precondition).Counts (if precondition.isSome then 1 else 0) fun _ => 0 := by
  cases precondition with
  | none => exact counts_insert p.document
  | some precondition => exact counts_commitConditional p precondition

/-! ### Operations on single keys -/

theorem counts_write (author : Author) (key : Key) (value : Value) (filter : Option Filter) :
    (write author key value filter).Counts (if filter.isSome then 1 else 0) fun _ => 0 := by
  rw [write_eq]
  refine Action.Counts.bounded _ ((calm_checkWritable key value).counts_bind fun _ _ => ?_)
  refine (calm_condition filter).counts_bind fun precondition hsome => counts_holding key ?_
  rw [← hsome, writeLocked]
  refine (calm_prepareWrite author key value).counts_bind fun p _ => ?_
  exact counts_bind (counts_commit p precondition) fun _ => (calm_written p).counts

theorem counts_delete (author : Author) (key : Key) :
    (delete author key).Counts 0 fun _ => 0 := by
  rw [delete_eq]
  refine Action.Counts.bounded _ (counts_holding key ?_)
  rw [deleteLocked]
  refine (calm_prepareDelete author key).counts_bind fun pending _ => ?_
  cases pending with
  | none => exact (calm_pure (R := fun _ => True) trivial).counts
  | some p =>
    exact counts_bind (counts_insert _) fun _ => (calm_pure (R := fun _ => True) trivial).counts

/-! ### Bulk operations -/

/-- An element is not answered a conflict before anything is stored. -/
def Undisputed (element : Prepared α) : Prop :=
  ∀ answer, element = .answered answer → ¬ Conflict answer

/-- None of the elements is. -/
def AllUndisputed (prepared : List (Key × Prepared α)) : Prop :=
  ∀ x ∈ prepared, Undisputed x.2

/-- What an attempt has prepared. -/
theorem undisputed_ofOutcome {outcome : Except StoreError (Prepared α)}
    (h : Peaceful Undisputed (some outcome)) : Undisputed (Prepared.ofOutcome outcome) := by
  cases outcome with
  | error e =>
    rintro _ ⟨⟩
    exact mt conflict_error_iff.1 h
  | ok element => exact h

theorem calm_prepareWriting (author : Author) (key : Key) (value : Value) :
    (prepareWriting author key value).Calm Undisputed := by
  rw [prepareWriting]
  refine calm_bind (calm_attempt (calm_bind (calm_checkWritable key value) fun _ _ =>
    calm_bind (calm_prepareWrite author key value) fun p _ => calm_pure ?_))
    fun outcome houtcome => calm_pure (undisputed_ofOutcome houtcome)
  rintro answer ⟨⟩

theorem calm_prepareDeletion (author : Author) (seen : List Key) (key : Key) :
    (prepareDeletion author seen key).Calm Undisputed := by
  -- the element has its answer already, and that is no conflict
  have hanswered :
      (pure (.answered (.ok none)) : Action (Prepared (Option Record))).Calm Undisputed := by
    refine calm_pure ?_
    rintro answer ⟨⟩
    exact not_conflict_ok none
  rw [prepareDeletion]
  split
  · exact hanswered
  · refine calm_bind (calm_attempt (calm_bind (calm_prepareDelete author key) fun pending _ => ?_))
      fun outcome houtcome => calm_pure (undisputed_ofOutcome houtcome)
    cases pending with
    | none => exact hanswered
    | some p =>
      refine calm_pure ?_
      rintro answer ⟨⟩

theorem calm_prepareWrites (author : Author) (values : List (Key × Value)) :
    (prepareWrites author values).Calm AllUndisputed := by
  induction values with
  | nil => exact calm_pure (List.forall_mem_nil _)
  | cons entry rest ih =>
    obtain ⟨key, value⟩ := entry
    rw [prepareWrites_cons]
    refine calm_bind (calm_prepareWriting author key value) fun element helement => ?_
    exact calm_bind ih fun prepared hprepared =>
      calm_pure (List.forall_mem_cons.2 ⟨helement, hprepared⟩)

theorem calm_prepareDeletes (author : Author) (seen keys : List Key) :
    (prepareDeletes author seen keys).Calm AllUndisputed := by
  induction keys generalizing seen with
  | nil => exact calm_pure (List.forall_mem_nil _)
  | cons key rest ih =>
    rw [prepareDeletes_cons]
    refine calm_bind (calm_prepareDeletion author seen key) fun element helement => ?_
    exact calm_bind (ih _) fun prepared hprepared =>
      calm_pure (List.forall_mem_cons.2 ⟨helement, hprepared⟩)

/-- How many documents were refused because their version is taken. -/
def takenCount (outcomes : List (Except BackendError Unit)) : Nat :=
  outcomes.countP fun outcome => Conflict (outcome.mapError StoreError.ofBackend)

theorem takenCount_cons (outcome : Except BackendError Unit)
    (outcomes : List (Except BackendError Unit)) :
    takenCount (outcome :: outcomes) = takenCount outcomes +
      if Conflict (outcome.mapError StoreError.ofBackend) then 1 else 0 := by
  simp only [takenCount, List.countP_cons, decide_eq_true_eq]

/-- Each of them is counted, which neither fails nor waits. -/
theorem tallies_recordConflicts (outcomes : List (Except BackendError Unit)) :
    (recordConflicts outcomes).steps.Tallies fun outcome n =>
      outcome = some (.ok ()) ∧ n = takenCount outcomes := by
  induction outcomes with
  | nil => exact ⟨rfl, rfl⟩
  | cons outcome rest ih =>
    -- an outcome that is no conflict is passed over without counting
    have hcalm (hrecord : recordConflicts (outcome :: rest) = recordConflicts rest)
        (hnot : ¬ Conflict (outcome.mapError StoreError.ofBackend)) :
        (recordConflicts (outcome :: rest)).steps.Tallies fun ended n =>
          ended = some (.ok ()) ∧ n = takenCount (outcome :: rest) := by
      rw [hrecord, takenCount_cons, if_neg hnot]
      exact ih
    cases outcome with
    | ok x => exact hcalm rfl (not_conflict_ok x)
    | error e =>
      cases e with
      | duplicateVersion key version =>
        -- a version that is taken is counted once
        have hconflict : Conflict ((.error (.duplicateVersion key version) :
            Except BackendError Unit).mapError StoreError.ofBackend) := ⟨_, rfl⟩
        rw [takenCount_cons, if_pos hconflict]
        intro _ _
        refine Procedure.Tallies.imp (fun ended n h => ⟨h.1, ?_⟩) ih
        rw [h.2, Nat.add_comm]
        rfl
      | _ =>
        refine hcalm rfl fun hconflict => ?_
        obtain ⟨_, _, heq⟩ := conflict_ofBackend_iff.1 hconflict
        cases heq

/-- **Each document that is refused is the conflict of one element**, if the elements have no others
of their own. -/
theorem conflicts_settle {finish : Pending → Except StoreError α}
    (hfinish : ∀ p, ¬ Conflict (finish p)) {prepared : List (Key × Prepared α)}
    (hprepared : AllUndisputed prepared) (outcomes : List (Except BackendError Unit)) :
    Answers.conflicts (settle finish prepared outcomes) =
      takenCount (outcomes.take (prepared.filterMap (·.2.document?)).length) := by
  -- elements and outcomes are gone through together, as `settle` does
  fun_induction settle finish prepared outcomes with
  | case1 outcomes => rfl
  | case2 key answer rest outcomes ih =>
    -- an element that was answered takes no outcome
    obtain ⟨hanswer, hrest⟩ := List.forall_mem_cons.1 hprepared
    rw [Answers.conflicts_cons, if_neg (hanswer answer rfl), ih hrest]
    rfl
  | case3 key p rest outcomes ih =>
    -- the version was stored
    obtain ⟨-, hrest⟩ := List.forall_mem_cons.1 hprepared
    rw [Answers.conflicts_cons, if_neg (hfinish p), ih hrest]
    rfl
  | case4 key p rest e outcomes ih =>
    -- it was refused, which is a conflict if the version was taken
    obtain ⟨-, hrest⟩ := List.forall_mem_cons.1 hprepared
    rw [Answers.conflicts_cons, ih hrest]
    change _ = takenCount (.error e :: outcomes.take (rest.filterMap (·.2.document?)).length)
    rw [takenCount_cons]
    congr 1
    exact if_congr conflict_error_iff rfl rfl
  | case5 key p rest ih =>
    obtain ⟨-, hrest⟩ := List.forall_mem_cons.1 hprepared
    -- an outcome that is missing is no conflict
    have hmissing : ¬ Conflict (.error (.internal "backend returned fewer results than documents") :
        Except StoreError α) := by
      rintro ⟨detail, h⟩
      cases h
    rw [Answers.conflicts_cons, ih hrest, if_neg hmissing, List.take_nil, List.take_nil]
    rfl

theorem counts_commitAll {finish : Pending → Except StoreError α}
    (hfinish : ∀ p, ¬ Conflict (finish p)) {prepared : List (Key × Prepared α)}
    (hprepared : AllUndisputed prepared) (k : Nat) :
    (commitAll finish prepared).Counts k Answers.conflicts := by
  rw [commitAll]
  refine (calm_insertAll _).counts_bind fun outcomes _ => ?_
  rw [Action.Counts, steps_bind, Procedure.tallies_bind]
  refine Procedure.Tallies.imp (fun outcome n h => ?_) (tallies_recordConflicts _)
  obtain ⟨rfl, rfl⟩ := h
  exact (conflicts_settle hfinish hprepared outcomes).symm

/-- **A batch counts the conflicts among its answers**, if preparing it leads to none. -/
theorem counts_batch {empty : Bool} {reason : String} {m : Measurement} {operation : Operation}
    {keys : List Key} {finish : Pending → Except StoreError α}
    {prepare : Action (List (Key × Prepared α))} (hm : (Request.record m).tally = 0)
    (hfinish : ∀ p, ¬ Conflict (finish p)) (hprepare : prepare.Calm AllUndisputed) :
    (do if empty then throw (.invalidArgument reason)
        Call.record m
        bounded operation (Action.holdingAll keys do commitAll finish (← prepare)) :
        Call (Answers α)).Counts 1 Answers.conflicts := by
  have hbody : (bounded operation (Action.holdingAll keys do
      commitAll finish (← prepare))).Counts 1 Answers.conflicts :=
    Action.Counts.bounded _ (counts_holdingAll _ (hprepare.counts_bind
      fun _ hprepared => counts_commitAll hfinish hprepared 1))
  cases empty with
  -- an empty batch is no conflict
  | true => exact Call.counts_throw (by rintro ⟨detail, h⟩; cases h)
  | false => exact Call.counts_record_bind hm hbody

theorem counts_bulkWrite (author : Author) (values : Entries Key Value) :
    (bulkWrite author values).Counts 1 Answers.conflicts := by
  rw [bulkWrite]
  exact counts_batch rfl Pending.not_conflict_written (calm_prepareWrites author _)

theorem counts_bulkDelete (author : Author) (keys : List Key) :
    (bulkDelete author keys).Counts 1 Answers.conflicts := by
  rw [bulkDelete]
  exact counts_batch rfl (fun p => not_conflict_ok p.previous) (calm_prepareDeletes author [] keys)

/-! ### Reading -/

theorem calm_readAll (records : Entries Key Record) (keys : List Key) :
    (readAll records keys).Calm fun _ => True := by
  induction keys generalizing records with
  | nil => exact calm_pure trivial
  | cons key rest ih =>
    refine calm_bind (calm_live key) fun found _ => ?_
    cases found with
    | none => exact ih records
    | some r => exact ih (records.put key r)

theorem calm_bounds (page : Page) : (ofExcept page.bounds).Calm fun _ => True := by
  refine calm_ofExcept ?_ fun _ _ => trivial
  cases h : page.bounds with
  | error e => exact (Page.ofArgument_of_bounds h).not_conflict
  | ok x => exact not_conflict_ok x

theorem counts_query (resource : Resource) (options : QueryOptions) (k : Nat) :
    (query resource options).Counts k fun _ => 0 := by
  refine Action.Counts.bounded _ (Calm.counts (R := fun _ => True) ?_)
  refine calm_bind (calm_condition options.filter) fun filter _ => ?_
  -- the bounds of the page have no part in it
  have hrest (bounds : Nat × Option Nat) : Action.Calm (fun _ => True) (do
      let matching ← latestLive resource filter
      Action.record (.queryResults matching.length)
      return (⟨page options bounds matching, matching.length⟩ : QueryResult)) :=
    calm_bind (calm_latestLive resource filter) fun _ _ =>
      calm_bind (calm_record rfl) fun _ _ => calm_pure trivial
  cases options.page with
  | none => exact calm_bind (calm_pure trivial) fun bounds (_ : True) => hrest bounds
  | some page => exact calm_bind (calm_bounds page) fun bounds _ => hrest bounds

theorem counts_count (resource : Resource) (filter : Option Filter) (k : Nat) :
    (count resource filter).Counts k fun _ => 0 := by
  refine Action.Counts.bounded _ (Calm.counts (R := fun _ => True) ?_)
  refine calm_bind (calm_condition filter) fun filter _ => ?_
  exact calm_bind (calm_latestLive resource filter) fun _ _ => calm_pure trivial

end Store

/-! ### Hosts -/

theorem error_of_map {ε β : Type} {f : α → β} {x : Except ε α} {e : ε}
    (h : x.map f = .error e) : x = .error e := by
  cases x with
  | error e' => exact congrArg _ (Except.error.inj h)
  | ok a => cases h

/-- A file that cannot be saved is an error of the medium. -/
theorem Snapshot.not_taken_of_persist {s : Snapshot} {added : List Document}
    {failure : Option Failure} {e : BackendError} (h : (s.persist added failure).1 = .error e) :
    ¬ e.Taken := by
  rw [persist] at h
  split at h
  · cases h
  · obtain rfl := Except.error.inj h
    rintro ⟨_, _, heq⟩
    cases heq

theorem Faulty.not_taken_of_insertError? {fault : Option Fault} {e : BackendError}
    (h : insertError? fault = some e) : ¬ e.Taken := by
  rcases fault with _ | fault
  · cases h
  cases fault with
  | unavailableInsert | encode =>
    obtain rfl := Option.some.inj h
    rintro ⟨_, _, heq⟩
    cases heq
  | _ => cases h

namespace Medium

variable {m : Medium} {e : BackendError}

theorem not_taken_of_find {q : Query} (h : m.find q = some (.error e)) : ¬ e.Taken := by
  cases m with
  | memory c fault =>
    rcases fault with _ | fault
    · cases h
    cases fault with
    | unavailableFind =>
      obtain rfl := Except.error.inj (Option.some.inj h)
      rintro ⟨_, _, heq⟩
      cases heq
    | _ => cases h
  | file s failures => cases h

theorem not_taken_of_insertIf {d : Document} {condition : Predicate}
    (h : (m.insertIf d condition).1 = .error e) : ¬ e.Taken := by
  -- a fault is never that a version is taken
  cases m with
  | memory c fault =>
    change (Faulty.insertIf fault c d condition).1 = .error e at h
    rw [Faulty.insertIf] at h
    split at h
    · rename_i e' he
      obtain rfl : e' = e := Except.error.inj h
      exact Faulty.not_taken_of_insertError? he
    · cases h
  | file s failures =>
    -- a file can fail to be saved, and then the reason is not a version
    change (s.insertIf d condition (failures.headD none)).1 = .error e at h
    rw [Snapshot.insertIf] at h
    split at h
    · cases h
    · exact Snapshot.not_taken_of_persist (error_of_map h)

theorem not_taken_of_insertAll {documents : List Document}
    (h : (m.insertAll documents).1 = .error e) : ¬ e.Taken := by
  cases m with
  | memory c fault =>
    change (Faulty.insertAll fault c documents).1 = .error e at h
    rw [Faulty.insertAll] at h
    split at h
    · rename_i e' he
      obtain rfl : e' = e := Except.error.inj h
      exact Faulty.not_taken_of_insertError? he
    · cases h
  | file s failures =>
    change (s.insertAll documents (failures.headD none)).1 = .error e at h
    rw [Snapshot.insertAll] at h
    dsimp only at h
    split at h
    · exact Snapshot.not_taken_of_persist (error_of_map h)
    · cases h

end Medium

/-- The number of conflicts that a host has measured. -/
def Host.conflictMeter (host : Host) : Nat :=
  host.measured.count .writeConflict

/-- **Hosts are metered**, whatever keeps the documents and however it fails. -/
theorem Host.metered : Metered Host.serve Host.conflictMeter where
  permits r host := by
    cases r with
    | find q => exact fun e he => Medium.not_taken_of_find he
    | insertIf d condition =>
      exact fun e he => Medium.not_taken_of_insertIf (Option.some.inj he)
    | insertAll documents => exact fun e he => Medium.not_taken_of_insertAll (Option.some.inj he)
    | _ => trivial
  counts r host := by
    cases r with
    | record m => cases m <;> simp [serve, conflictMeter, Request.tally]
    | lockKey key =>
      rw [serve]
      split <;> rfl
    | lockTenant tenant =>
      rw [serve]
      split <;> rfl
    | _ => rfl

/-! ### Calls -/

namespace StoreCall

/-- How many conflicts a result reports, which are those of its elements. -/
def reported : (call : StoreCall) → call.Answer → Nat
  | bulkWrite .., answers => Answers.conflicts answers
  | bulkDelete .., answers => Answers.conflicts answers
  | _, _ => 0

/-- How many conflicts a call is answered: one of its own, or those of its elements. -/
def conflicts (call : StoreCall) (outcome : Except StoreError call.Answer) : Nat :=
  tally 1 call.reported (some outcome)

/-- The conflicts that the call is answered are counted: it is no deletion, and no write without a
precondition. -/
def Counting : StoreCall → Prop
  | write _ _ _ precondition => precondition.isSome
  | delete .. => False
  | _ => True

instance decidableCounting : (call : StoreCall) → Decidable call.Counting
  | write _ _ _ precondition => inferInstanceAs (Decidable (precondition.isSome = true))
  | delete .. => inferInstanceAs (Decidable False)
  | bulkWrite .. | bulkDelete .. | read .. | readMany .. | query .. | count .. =>
    inferInstanceAs (Decidable True)

/-- **What a call counts**, whatever its surroundings answer and whoever acts in between. -/
theorem tallies_call (call : StoreCall) : call.call.steps.Tallies fun outcome n =>
    n = if call.Counting then call.conflicts outcome else 0 := by
  -- how much is counted for a conflict is all that differs
  have hcounts {k : Nat} (h : call.call.Counts k call.reported)
      (hk : ∀ outcome, tally k call.reported (some outcome) =
        if call.Counting then call.conflicts outcome else 0) :
      call.call.steps.Tallies fun outcome n =>
        n = if call.Counting then call.conflicts outcome else 0 :=
    Procedure.Tallies.imp (fun outcome n hn => hn.trans (hk outcome)) h
  -- each call by its own rule; only the preconditions and the batches count
  cases call with
  | write author key value precondition =>
    refine hcounts (Store.counts_write author key value precondition) fun outcome => ?_
    cases precondition with
    | none => exact tally_zero (some outcome)
    | some f => rfl
  | delete author key => exact hcounts (Store.counts_delete author key) fun _ => tally_zero _
  | bulkWrite author values => exact hcounts (Store.counts_bulkWrite author values) fun _ => rfl
  | bulkDelete author keys => exact hcounts (Store.counts_bulkDelete author keys) fun _ => rfl
  | read key => exact hcounts (Action.Counts.bounded _ (Store.calm_live key).counts) fun _ => rfl
  | readMany keys =>
    exact hcounts (Action.Counts.bounded _ (Store.calm_readAll .empty keys).counts) fun _ => rfl
  | query resource options => exact hcounts (Store.counts_query resource options 1) fun _ => rfl
  | count resource filter => exact hcounts (Store.counts_count resource filter 1) fun _ => rfl

section

variable {σ : Type} (serve : (r : Request) → σ → r.Answer × σ)

/-- Makes calls one after the other in any surroundings. -/
def runAllIn : List StoreCall → σ → List Answered × σ
  | [], s => ([], s)
  | call :: rest, s =>
    let (outcome, s) := call.call.steps.run serve s
    let (outcomes, s) := runAllIn rest s
    (⟨call, outcome⟩ :: outcomes, s)

/-- How many conflicts some calls are answered, those of their elements included. -/
def totalConflicts (answered : List Answered) : Nat :=
  (answered.map fun a => a.1.conflicts a.2).sum

variable {serve} {meter : σ → Nat}

theorem totalConflicts_filter (answered : List Answered) :
    totalConflicts answered = totalConflicts (answered.filter fun a => a.1.Counting) +
      totalConflicts (answered.filter fun a => ¬ a.1.Counting) := by
  have hperm := List.filter_append_perm (fun a : Answered => decide a.1.Counting) answered
  simp only [totalConflicts, ← (hperm.map fun a => a.1.conflicts a.2).sum_nat, List.map_append,
    List.sum_append_nat, decide_not]

/-- The meter grows by the conflicts of the calls that count them. -/
theorem meter_runAllIn_eq (hm : Metered serve meter) (calls : List StoreCall) (s : σ) :
    meter (runAllIn serve calls s).2 = meter s +
      totalConflicts ((runAllIn serve calls s).1.filter fun a => a.1.Counting) := by
  induction calls generalizing s with
  | nil => rfl
  | cons call rest ih =>
    obtain ⟨n, hn, rfl⟩ := (tallies_call call).run hm s
    rw [runAllIn, ih, hn, List.filter_cons]
    by_cases h : call.Counting
    · simp only [h, decide_true, if_true, totalConflicts, List.map_cons, List.sum_cons]
      omega
    · simp only [h, decide_false, Bool.false_eq_true, if_false, Nat.add_zero]

/-- **The conflicts that are counted** over a run of calls are those of the calls that count them.
These are all conflicts that are answered exactly if no write without a precondition and no deletion
is answered one. -/
theorem meter_runAllIn (hm : Metered serve meter) (calls : List StoreCall) (s : σ) :
    let run := runAllIn serve calls s
    meter run.2 = meter s + totalConflicts (run.1.filter fun a => a.1.Counting) ∧
      (meter run.2 = meter s + totalConflicts run.1 ↔
        ∀ a ∈ run.1, ¬ a.1.Counting → a.1.conflicts a.2 = 0) := by
  intro run
  -- counted is what the calls that count were answered
  have hmeter := meter_runAllIn_eq hm calls s
  refine ⟨hmeter, ?_⟩
  -- what is not counted are the conflicts of the other calls
  have hrest : (∀ a ∈ run.1, ¬ a.1.Counting → a.1.conflicts a.2 = 0) ↔
      totalConflicts (run.1.filter fun a => ¬ a.1.Counting) = 0 := by
    rw [totalConflicts, List.sum_eq_zero_iff_forall_eq_nat, List.forall_mem_map]
    simp only [List.mem_filter, decide_eq_true_eq, and_imp]
  have hsplit := totalConflicts_filter run.1
  rw [hrest]
  change meter run.2 = meter s + totalConflicts (run.1.filter _) at hmeter
  omega

end

/-- A host on which a rival stores each version just before it is stored. -/
def racedHost : Host :=
  { medium := .memory .empty (some .race), clock := ⟨1000, 10⟩, tenants := ⟨1, []⟩ }

/-- A condition that is not met and an element whose version is taken are counted, one each. -/
theorem meter_runAllIn_met :
    let author : Author := ⟨"ada", "ada@example.com"⟩
    let key : Key := ⟨⟨"rules", "alerting", "tenant-1"⟩, "a"⟩
    -- a condition that nothing meets, and an element whose version is taken
    let calls : List StoreCall :=
      [write author key (.string "on") (some (.relational "level" .equalTo (.string "high"))),
        bulkWrite author ⟨[(key, .string "on")], by decide⟩]
    let run := runAllIn Host.serve calls racedHost
    Metered Host.serve Host.conflictMeter ∧ totalConflicts run.1 = 2 ∧
      run.2.conflictMeter = racedHost.conflictMeter + totalConflicts run.1 := by
  intro author key calls run
  -- the write has a precondition and the batch counts anyway, so no other conflict is answered
  have hcounting : ∀ a ∈ run.1, ¬ a.1.Counting → a.1.conflicts a.2 = 0 := by
    decide +kernel
  exact ⟨Host.metered, by decide +kernel,
    (meter_runAllIn Host.metered calls racedHost).2.2 hcounting⟩

/-- A write without a precondition and a deletion are answered a conflict each, and none is
counted. -/
theorem not_meter_runAllIn_raced :
    let author : Author := ⟨"ada", "ada@example.com"⟩
    let key : Key := ⟨⟨"rules", "alerting", "tenant-1"⟩, "a"⟩
    let run := runAllIn Host.serve
      [write author key (.string "on") none, delete author key] racedHost
    totalConflicts run.1 = 2 ∧ run.2.conflictMeter = racedHost.conflictMeter := by
  decide +kernel

end StoreCall

end ConfigLedger
