import ConfigLedger.Proofs.Locks.KeyMonitors
import ConfigLedger.Proofs.Store.GuardedActions
import ConfigLedger.Proofs.Store.Preconditions
import ConfigLedger.Proofs.Store.SecureCalls

/-!
# The operations of the store under monitors

When does a call answer that there is a conflict? `StoreCall.Excused` says that it has to be a write
with a precondition, and that it saw, while it held the monitor of its key, that the newest version
does not meet the precondition. Every call is guarded, and it ends excused
(`StoreCall.guarded_worker`).

The proofs follow the operations. What is prepared under the monitors of the keys is the next
version of each (`Arranged`), so nothing that is committed is refused because of its version.
-/

namespace ConfigLedger

variable {α : Type} {c c' : Collection} {held : List Key} {log : List Sighting} {key : Key}

/-! ### Conflicts -/

/-- The outcome is a conflict. -/
def Conflict (outcome : Except StoreError α) : Prop :=
  ∃ detail, outcome = .error (.conflict detail)

/-- The outcome of a bulk operation, or that of one of its elements, is a conflict. -/
def BulkConflict (outcome : Except StoreError (Answers α)) : Prop :=
  Conflict outcome ∨ ∃ answers, outcome = .ok answers ∧ ∃ answer ∈ answers, Conflict answer.2

/-- The query for the latest version of a key. -/
def Key.latestQuery (key : Key) : Query :=
  { condition := some key.predicate, sort := [newestFirst], limit := some 1 }

namespace StoreCall

/-- A call, or one of its elements, answers that there is a conflict. -/
def Conflicts : (call : StoreCall) → Except StoreError call.Answer → Prop
  | write .. | delete .. | read .. | readMany .. | query .. | count .. => Conflict
  | bulkWrite .. | bulkDelete .. => BulkConflict

/-- A conflict is answered only to a write with a precondition, which saw while it held the monitor
of its key that the newest version does not meet the precondition. -/
def Excused (call : StoreCall) (outcome : Except StoreError call.Answer)
    (sightings : List Sighting) : Prop :=
  call.Conflicts outcome → ∃ author key value f, call = write author key value (some f) ∧
    ∃ seen, sightings = [seen] ∧ seen.query = key.latestQuery ∧ key ∈ seen.held ∧
      ¬ seen.collection.Meets key f

end StoreCall

theorem not_conflict_ok (a : α) : ¬ Conflict (.ok a : Except StoreError α) := by
  rintro ⟨detail, h⟩
  cases h

theorem Pending.not_conflict_written (p : Pending) : ¬ Conflict p.written := by
  rintro ⟨detail, h⟩
  rw [written] at h
  split at h <;> cases h

theorem StoreError.OfArgument.not_conflict {e : StoreError} (h : e.OfArgument) :
    ¬ Conflict (.error e : Except StoreError α) := by
  rintro ⟨detail, hconflict⟩
  obtain ⟨detail', rfl⟩ := h
  cases hconflict

/-! ### Parts of operations -/

namespace Store

theorem guarded_latest {Q : Aim (Option (Except StoreError (Option Document)))}
    (h : ∀ c', c.Kept held c' →
      Q (some (.ok (c'.newest key))) held (log ++ [⟨key.latestQuery, held, c'⟩]) c') :
    (latest key).Guarded Q held log c := by
  refine .bind (Action.guarded_find ?_)
  intro c' hkept
  rw [c'.find_latest, hkept.exact.latest_eq]
  change Q (some (.ok (c'.newest key).toList.head?)) held _ c'
  rw [Option.head?_toList]
  exact h c' hkept

theorem guarded_live {Q : Aim (Option (Except StoreError (Option Record)))}
    (h : ∀ c', c.Kept held c' → Q (some (.ok ((c'.newest key).bind Document.record?))) held
      (log ++ [⟨key.latestQuery, held, c'⟩]) c') :
    (live key).Guarded Q held log c :=
  .bind (guarded_latest h)

theorem guarded_condition {Q : Aim (Option (Except StoreError (Option Predicate)))}
    {filter : Option Filter} (h : Q (some (compiled filter)) held log c) :
    (condition filter).Guarded Q held log c := by
  rw [condition_eq]
  exact h

theorem guarded_prepareWrite {Q : Aim (Option (Except StoreError Pending))} (hkey : key ∈ held)
    (author : Author) (value : Value)
    (h : ∀ seen c' p, c.Kept held c' → p.Next held c' → p.document.key = key →
      p.previous = (seen.newest key).bind Document.record? →
      Q (some (.ok p)) held (log ++ [⟨key.latestQuery, held, seen⟩]) c') :
    (prepareWrite author key value).Guarded Q held log c := by
  rw [prepareWrite_eq]
  refine .bind (guarded_latest ?_)
  intro c₁ hkept₁
  refine Action.Guarded.bind (Action.guarded_now ?_)
  intro c₂ time hkept₂
  -- the version remains the next one while the clock is read
  have hnext : (Pending.ofWrite author key value (c₁.newest key) time).Next held c₂ :=
    (Pending.next_ofWrite hkey author value time).kept hkept₂
  exact h c₁ c₂ _ (hkept₁.trans hkept₂) hnext rfl rfl

theorem guarded_prepareDelete {Q : Aim (Option (Except StoreError (Option Pending)))}
    (hkey : key ∈ held) (author : Author)
    (hnone : ∀ log' c', c.Kept held c' → Q (some (.ok none)) held log' c')
    (hsome : ∀ log' c' p, c.Kept held c' → p.Next held c' → p.document.key = key →
      Q (some (.ok (some p))) held log' c') :
    (prepareDelete author key).Guarded Q held log c := by
  rw [prepareDelete_eq]
  refine .bind (guarded_live ?_)
  intro c₁ hkept₁
  -- without a record there is nothing to prepare
  cases hr : (c₁.newest key).bind Document.record? with
  | none => exact hnone _ c₁ hkept₁
  | some r =>
    refine Action.Guarded.bind (Action.guarded_now ?_)
    intro c₂ time hkept₂
    have hnext : (Pending.ofDelete author key r time).Next held c₂ :=
      (Pending.next_ofDelete hkey hr author time).kept hkept₂
    exact hsome _ c₂ _ (hkept₁.trans hkept₂) hnext rfl

end Store

/-! ### Operations on single keys -/

/-- Among others, the call guards the keys whose monitors it holds and achieves something. -/
def Call.Guarded (R : Except StoreError α → List Sighting → Prop) (call : Call α)
    (held : List Key) (log : List Sighting) (c : Collection) : Prop :=
  call.steps.elementwise.Guarded (.ofResult R) held log c

/-- The outcome is no conflict. -/
def quiet (α : Type) : Except StoreError α → List Sighting → Prop :=
  fun outcome _ => ¬ Conflict outcome

/-- What is to be achieved of an outcome, where a cut-off is an error. -/
def beforeDeadline (R : Except StoreError α → List Sighting → Prop) :
    Option (Except StoreError α) → List Sighting → Prop :=
  fun outcome => R (outcome.getD (.error .deadlineExceeded))

theorem guarded_bounded {R : Except StoreError α → List Sighting → Prop} {operation : Operation}
    {a : Action α} (h : a.Guarded (.ofResult (beforeDeadline R)) held log c) :
    (bounded operation a).Guarded R held log c := by
  change (a.steps.bind fun outcome => .ask (.record _) fun _ => .ask (.record _) fun _ =>
    .done (outcome.getD (.error .deadlineExceeded))).elementwise.Guarded _ held log c
  rw [Procedure.elementwise_bind, Procedure.guarded_bind]
  refine Procedure.Guarded.imp ?_ h
  intro outcome held log c houtcome
  -- what is left is to record the duration and the outcome
  refine Procedure.guarded_ask rfl (fun _ => rfl) ?_
  intro c' _ _ _
  refine Procedure.guarded_ask rfl (fun _ => rfl) ?_
  intro c'' _ _ _
  simp only [Request.sightings, List.append_nil]
  exact houtcome

namespace Store

theorem guarded_write (author : Author) (key : Key) (value : Value) (filter : Option Filter) :
    (write author key value filter).Guarded
      (StoreCall.Excused (.write author key value filter)) [] [] c := by
  rw [write_eq]
  -- what is no conflict needs no excuse
  have hquiet {outcome : Except StoreError Written} (h : ¬ Conflict outcome)
      (log : List Sighting) : StoreCall.Excused (.write author key value filter) outcome log :=
    fun hconflict => absurd hconflict h
  refine guarded_bounded (.bind ?_)
  change Action.proceed _ _ (some (checkWritable key value)) [] [] c
  cases hcheck : checkWritable key value with
  | error e => exact hquiet (ofArgument_of_checkWritable hcheck).not_conflict []
  | ok _ =>
    refine Action.Guarded.bind (guarded_condition ?_)
    cases hfilter : compiled filter with
    | error e => exact hquiet (ofArgument_of_compiled hfilter).not_conflict []
    | ok precondition =>
      refine Action.guarded_holding ?_
      intro c₁ _
      -- under the monitor: look up the version, read the clock, commit
      refine .bind (guarded_prepareWrite List.mem_cons_self author value ?_)
      intro seen c₂ p _ hnext hkey hprevious
      refine Action.Guarded.bind (Action.guarded_commit hnext precondition ?_ ?_)
      · exact fun _ => hquiet p.not_conflict_written _
      · -- a precondition that was not met was not met by what was seen
        intro c₃ q e hq hunmet _
        -- without a filter there is no precondition to be refused for
        cases filter with
        | none =>
          rw [hq] at hfilter
          cases hfilter
        | some f =>
          obtain ⟨q', hcompile, hq'⟩ := compile_of_compiled hfilter rfl
          obtain rfl : q = q' := Option.some.inj (hq.symm.trans hq')
          refine ⟨author, key, value, f, rfl, _, rfl, rfl, List.mem_cons_self, ?_⟩
          rw [Collection.meets_iff hcompile, ← hprevious, hunmet]
          exact Bool.false_ne_true

theorem guarded_delete (author : Author) (key : Key) :
    (delete author key).Guarded (quiet _) [] [] c := by
  rw [delete_eq]
  refine guarded_bounded (Action.guarded_holding ?_)
  intro c₁ _
  refine .bind (guarded_prepareDelete List.mem_cons_self author ?_ ?_)
  · exact fun _ _ _ => not_conflict_ok _
  · intro log c₂ p _ hnext _
    exact Action.Guarded.bind (Procedure.guarded_insert hnext fun _ _ _ _ _ => not_conflict_ok _)

end Store

/-! ### Bulk operations -/

/-- A prepared element that is answered without a conflict, whether it is answered already or once
the next version of its key is stored. -/
def Prepared.Fit (finish : Pending → Except StoreError α) (held : List Key) (c : Collection)
    (key : Key) : Prepared α → Prop
  | answered answer => ¬ Conflict answer
  | pending p => p.Next held c ∧ p.document.key = key ∧ ¬ Conflict (finish p)

theorem Prepared.Fit.kept {finish : Pending → Except StoreError α} {x : Prepared α}
    (h : x.Fit finish held c key) (hkept : c.Kept held c') : x.Fit finish held c' key := by
  cases x with
  | answered answer => exact h
  | pending p => exact ⟨h.1.kept hkept, h.2⟩

/-- Prepared elements that are fit, at most one of them pending for each key. -/
structure Arranged (finish : Pending → Except StoreError α) (held : List Key) (c : Collection)
    (prepared : List (Key × Prepared α)) : Prop where
  fit : ∀ x ∈ prepared, x.2.Fit finish held c x.1
  apart : (prepared.filterMap (·.2.pending?)).Pairwise fun p q => p.document.key ≠ q.document.key

namespace Arranged

variable {finish : Pending → Except StoreError α} {prepared : List (Key × Prepared α)}

theorem nil : Arranged finish held c [] :=
  ⟨by simp, .nil⟩

theorem cons {x : Prepared α} (hx : x.Fit finish held c key) (h : Arranged finish held c prepared)
    (hne : x.pending?.isSome → ∀ p ∈ prepared.filterMap (·.2.pending?), p.document.key ≠ key) :
    Arranged finish held c ((key, x) :: prepared) := by
  refine ⟨List.forall_mem_cons.2 ⟨hx, h.fit⟩, ?_⟩
  cases x with
  | answered answer => exact h.apart
  | pending p =>
    refine List.pairwise_cons.2 ⟨fun q hq => ?_, h.apart⟩
    rw [hx.2.1]
    exact (hne rfl q hq).symm

theorem next (h : Arranged finish held c prepared) :
    ∀ p ∈ prepared.filterMap (·.2.pending?), p.Next held c := by
  intro p hp
  obtain ⟨⟨key, answer | q⟩, hx, hq⟩ := List.mem_filterMap.1 hp
  · cases hq
  · cases hq
    exact (h.fit _ hx).1

/-- Once all versions are stored, no element is answered with a conflict. -/
theorem not_conflict_settle (hfit : ∀ x ∈ prepared, x.2.Fit finish held c x.1) :
    ∀ answer ∈ Store.settle finish prepared
      ((prepared.filterMap (·.2.pending?)).map fun _ => .ok ()), ¬ Conflict answer.2 := by
  induction prepared with
  | nil => simp [Store.settle]
  | cons x rest ih =>
    obtain ⟨hx, hrest⟩ := List.forall_mem_cons.1 hfit
    obtain ⟨key, answer | p⟩ := x
    · exact List.forall_mem_cons.2 ⟨hx, ih hrest⟩
    · exact List.forall_mem_cons.2 ⟨hx.2.2, ih hrest⟩

end Arranged

namespace Store

/-- Neither a bulk operation nor one of its elements is answered with a conflict. -/
def quietBulk (α : Type) : Except StoreError (Answers α) → List Sighting → Prop :=
  fun outcome _ => ¬ BulkConflict outcome

theorem not_bulkConflict_ok {answers : Answers α} (h : ∀ answer ∈ answers, ¬ Conflict answer.2) :
    ¬ BulkConflict (.ok answers) := by
  rintro (⟨detail, hconflict⟩ | ⟨answers', hanswers, answer, hmem, hconflict⟩)
  · cases hconflict
  · cases hanswers
    exact h answer hmem hconflict

theorem recordConflicts_ok (ps : List Pending) :
    recordConflicts (ps.map fun _ => .ok ()) = pure () := by
  induction ps with
  | nil => rfl
  | cons p ps ih => exact ih

theorem guarded_commitAll {finish : Pending → Except StoreError α}
    {prepared : List (Key × Prepared α)} (h : Arranged finish held c prepared) :
    (commitAll finish prepared).Guarded (.ofResult (beforeDeadline (quietBulk α))) held log c := by
  rw [commitAll, documents_eq_map]
  refine .bind (Action.guarded_insertAll h.next h.apart ?_)
  intro c₁
  -- every document was stored, so no outcome is missing and none is a conflict
  have htake : ((prepared.filterMap (·.2.pending?)).map fun _ =>
      (.ok () : Except BackendError Unit)).take
        ((prepared.filterMap (·.2.pending?)).map Pending.document).length =
      (prepared.filterMap (·.2.pending?)).map fun _ => .ok () :=
    List.take_of_length_le (by simp)
  change Action.Guarded _ (do recordConflicts _; return _) held log c₁
  rw [htake, recordConflicts_ok]
  exact not_bulkConflict_ok (Arranged.not_conflict_settle h.fit)

theorem guarded_prepareWriting {Q : Aim (Option (Except StoreError (Prepared Written)))}
    (hexact : c.Exact) (hkey : key ∈ held) (author : Author) (value : Value)
    (h : ∀ log' c' x, c.Kept held c' → x.Fit Pending.written held c' key →
      Q (some (.ok x)) held log' c') :
    (prepareWriting author key value).Guarded Q held log c := by
  refine .bind (Action.guarded_attempt (.bind ?_))
  change Action.proceed _ _ (some (checkWritable key value)) held log c
  -- a value that is refused is an answer that is no conflict
  cases hcheck : checkWritable key value with
  | error e =>
    exact h log c (.answered (.error e)) (.refl hexact)
      (ofArgument_of_checkWritable hcheck).not_conflict
  | ok _ =>
    refine Action.Guarded.bind (guarded_prepareWrite hkey author value ?_)
    intro seen c₁ p hkept hnext hpkey _
    exact h _ c₁ (.pending p) hkept ⟨hnext, hpkey, p.not_conflict_written⟩

/-- **A batch** ends without a conflict, if what it prepares is arranged while all keys are held. -/
theorem guarded_batch {empty : Bool} {reason : String} {m : Measurement} {operation : Operation}
    {keys : List Key} {finish : Pending → Except StoreError α}
    {prepare : Action (List (Key × Prepared α))}
    (hprepare : ∀ c' held log Q, c'.Exact → (∀ key ∈ keys, key ∈ held) →
      (∀ log' c'' prepared, Arranged finish held c'' prepared →
        Q (some (.ok prepared)) held log' c'') → prepare.Guarded Q held log c') :
    (do if empty then throw (.invalidArgument reason)
        Call.record m
        bounded operation (Action.holdingAll (lockOrder keys) do commitAll finish (← prepare)) :
        Call (Answers α)).Guarded (quietBulk _) [] [] c := by
  cases empty with
  | true =>
    -- an empty batch is refused, which is no conflict
    rintro (⟨detail, h⟩ | ⟨answers, h, -⟩) <;> cases h
  | false =>
    refine Procedure.guarded_ask rfl (fun _ => rfl) ?_
    intro c₁ _ hkept₁ _
    refine guarded_bounded (Action.guarded_holdingAll hkept₁.exact ?_)
    intro c₂ hexact₂
    -- in the end all keys of the batch are held
    have hheld : ∀ key ∈ keys, key ∈ (lockOrder keys).reverse ++ [] := by simp
    refine .bind (hprepare c₂ _ _ _ hexact₂ hheld ?_)
    exact fun log c₃ prepared harranged => guarded_commitAll harranged

theorem guarded_prepareWrites {Q : Aim (Option (Except StoreError (List (Key × Prepared Written))))}
    (hexact : c.Exact) (author : Author) (elements : List (Key × Value))
    (hkeys : (elements.map Prod.fst).Nodup) (hheld : ∀ e ∈ elements, e.1 ∈ held)
    (h : ∀ log' c' prepared, c.Kept held c' → Arranged Pending.written held c' prepared →
      (∀ p ∈ prepared.filterMap (·.2.pending?), p.document.key ∈ elements.map Prod.fst) →
      Q (some (.ok prepared)) held log' c') :
    (prepareWrites author elements).Guarded Q held log c := by
  induction elements generalizing Q log c with
  | nil => exact h log c [] (.refl hexact) .nil (by simp)
  | cons e rest ih =>
    obtain ⟨key, value⟩ := e
    obtain ⟨hkey, hkeys⟩ := List.nodup_cons.1 hkeys
    obtain ⟨hheldKey, hheld⟩ := List.forall_mem_cons.1 hheld
    rw [prepareWrites_cons]
    refine .bind (guarded_prepareWriting hexact hheldKey author value ?_)
    intro log₁ c₁ x hkept₁ hx
    refine Action.Guarded.bind (ih hkept₁.exact hkeys hheld ?_)
    -- others keep the held keys as they are, so what was prepared first stays the next version
    intro log₂ c₂ prepared hkept₂ harranged hamong
    have hx₂ : x.Fit Pending.written held c₂ key := hx.kept hkept₂
    refine h log₂ c₂ ((key, x) :: prepared) (hkept₁.trans hkept₂) (harranged.cons hx₂ ?_) ?_
    -- the other elements are for other keys
    · exact fun _ p hp heq => hkey (heq ▸ hamong p hp)
    · cases x with
      | answered answer => exact fun p hp => List.mem_cons_of_mem _ (hamong p hp)
      | pending q =>
        refine List.forall_mem_cons.2 ⟨?_, fun p hp => List.mem_cons_of_mem _ (hamong p hp)⟩
        rw [hx₂.2.1]
        exact List.mem_cons_self

theorem guarded_bulkWrite (author : Author) (values : Entries Key Value) :
    (bulkWrite author values).Guarded (quietBulk _) [] [] c := by
  rw [bulkWrite]
  -- each key is prepared once
  refine guarded_batch fun c' held log Q hexact hheld h => ?_
  refine guarded_prepareWrites hexact author _ values.distinct (fun e he => ?_) ?_
  · exact hheld e.1 (List.mem_map.2 ⟨e, he, rfl⟩)
  · exact fun log' c'' prepared _ harranged _ => h log' c'' prepared harranged

theorem guarded_prepareDeletion
    {Q : Aim (Option (Except StoreError (Prepared (Option Record))))} (hexact : c.Exact)
    (hkey : key ∈ held) (author : Author) (seen : List Key)
    (h : ∀ log' c' x, c.Kept held c' → x.Fit (fun p => .ok p.previous) held c' key →
      (x.pending?.isSome → key ∉ seen) → Q (some (.ok x)) held log' c') :
    (prepareDeletion author seen key).Guarded Q held log c := by
  rw [prepareDeletion]
  -- a key that was seen has its answer, and a pending element is for a key that was not
  split
  · refine h log c (.answered (.ok none)) (.refl hexact) (not_conflict_ok _) ?_
    intro hpending
    cases hpending
  · next hmem =>
    refine .bind (Action.guarded_attempt (.bind (guarded_prepareDelete hkey author ?_ ?_)))
    · intro log₁ c₁ hkept
      exact h log₁ c₁ (.answered (.ok none)) hkept (not_conflict_ok _) fun _ => hmem
    · intro log₁ c₁ p hkept hnext hpkey
      exact h log₁ c₁ (.pending p) hkept ⟨hnext, hpkey, not_conflict_ok _⟩ fun _ => hmem

theorem guarded_prepareDeletes
    {Q : Aim (Option (Except StoreError (List (Key × Prepared (Option Record)))))}
    (hexact : c.Exact) (author : Author) (seen keys : List Key) (hheld : ∀ key ∈ keys, key ∈ held)
    (h : ∀ log' c' prepared, c.Kept held c' →
      Arranged (fun p => .ok p.previous) held c' prepared →
      (∀ p ∈ prepared.filterMap (·.2.pending?), p.document.key ∉ seen) →
      Q (some (.ok prepared)) held log' c') :
    (prepareDeletes author seen keys).Guarded Q held log c := by
  induction keys generalizing Q log c seen with
  | nil => exact h log c [] (.refl hexact) .nil (by simp)
  | cons key rest ih =>
    obtain ⟨hheldKey, hheld⟩ := List.forall_mem_cons.1 hheld
    rw [prepareDeletes_cons]
    refine .bind (guarded_prepareDeletion hexact hheldKey author seen ?_)
    intro log₁ c₁ x hkept₁ hx hfirst
    refine Action.Guarded.bind (ih hkept₁.exact (key :: seen) hheld ?_)
    intro log₂ c₂ prepared hkept₂ harranged hamong
    have hx₂ : x.Fit (fun p => .ok p.previous) held c₂ key := hx.kept hkept₂
    refine h log₂ c₂ ((key, x) :: prepared) (hkept₁.trans hkept₂) (harranged.cons hx₂ ?_) ?_
    -- from now on the key counts as one that came before
    · exact fun _ p hp heq => hamong p hp (heq ▸ List.mem_cons_self)
    · have hrest : ∀ p ∈ prepared.filterMap (·.2.pending?), p.document.key ∉ seen :=
        fun p hp hmem => hamong p hp (List.mem_cons_of_mem _ hmem)
      cases x with
      | answered answer => exact hrest
      | pending q =>
        refine List.forall_mem_cons.2 ⟨?_, hrest⟩
        rw [hx₂.2.1]
        exact hfirst rfl

theorem guarded_bulkDelete (author : Author) (keys : List Key) :
    (bulkDelete author keys).Guarded (quietBulk _) [] [] c := by
  rw [bulkDelete]
  -- the keys may repeat, but only their first places are pending
  refine guarded_batch fun c' held log Q hexact hheld h => ?_
  exact guarded_prepareDeletes hexact author [] keys hheld
    fun log' c'' prepared _ harranged _ => h log' c'' prepared harranged

/-! ### Reading -/

theorem guarded_read (key : Key) : (read key).Guarded (quiet _) [] [] c :=
  guarded_bounded (guarded_live fun _ _ => not_conflict_ok _)

theorem guarded_readAll (records : Entries Key Record) (keys : List Key) :
    (readAll records keys).Guarded (.ofResult (beforeDeadline (quiet _))) [] log c := by
  induction keys generalizing log c records with
  | nil => exact not_conflict_ok _
  | cons key rest ih =>
    refine .bind (guarded_live ?_)
    intro c₁ _
    cases (c₁.newest key).bind Document.record? with
    | none => exact ih records
    | some r => exact ih (records.put key r)

theorem guarded_latestLive {Q : Aim (Option (Except StoreError (List Document)))}
    {resource : Resource} {filter : Option Predicate}
    (h : ∀ log' c' matching, Q (some (.ok matching)) held log' c') :
    (latestLive resource filter).Guarded Q held log c :=
  .bind (Action.guarded_find fun c' _ => h _ c' _)

theorem guarded_query (resource : Resource) (options : QueryOptions) :
    (query resource options).Guarded (quiet _) [] [] c := by
  refine guarded_bounded (.bind (guarded_condition ?_))
  -- the query fails with its filter or its bounds, or it reads
  cases hfilter : compiled options.filter with
  | error e => exact (ofArgument_of_compiled hfilter).not_conflict
  | ok filter =>
    have hfind (bounds : Nat × Option Nat) (c : Collection) :
        (do
          let matching ← latestLive resource filter
          Action.record (.queryResults matching.length)
          return ⟨page options bounds matching, matching.length⟩ :
          Action QueryResult).Guarded (.ofResult (beforeDeadline (quiet _))) [] [] c :=
      .bind (guarded_latestLive fun _ _ _ =>
        Action.Guarded.bind (Action.guarded_record fun _ _ => not_conflict_ok _))
    change Action.Guarded _ _ [] [] c
    cases hpage : options.page with
    | none => exact hfind _ c
    | some page =>
      refine .bind ?_
      change Action.proceed _ _ (some page.bounds) [] [] c
      cases hbounds : page.bounds with
      | error e => exact (Page.ofArgument_of_bounds hbounds).not_conflict
      | ok bounds => exact hfind bounds c

theorem guarded_count (resource : Resource) (filter : Option Filter) :
    (count resource filter).Guarded (quiet _) [] [] c := by
  refine guarded_bounded (.bind (guarded_condition ?_))
  cases hfilter : compiled filter with
  | error e => exact (ofArgument_of_compiled hfilter).not_conflict
  | ok filter => exact Action.Guarded.bind (guarded_latestLive fun _ _ _ => not_conflict_ok _)

end Store

/-! ### Calls -/

/-- A call that achieves something achieves what follows from it. -/
theorem Call.Guarded.imp {R S : Except StoreError α → List Sighting → Prop} {call : Call α}
    (h : call.Guarded R held log c) (hRS : ∀ outcome log, R outcome log → S outcome log) :
    call.Guarded S held log c :=
  Procedure.Guarded.imp (fun outcome _ log _ => hRS outcome log) h

/-- **Every call is guarded**, and it ends excused. -/
theorem StoreCall.guarded_worker {M : Type} (call : StoreCall) (c : Collection) :
    (call.worker : Worker M).Guarded StoreCall.Excused c := by
  -- all but conditional writes end without a conflict
  change call.call.Guarded call.Excused [] [] c
  cases call with
  | write author key value filter => exact Store.guarded_write author key value filter
  | delete author key => exact (Store.guarded_delete author key).imp fun _ _ h hc => absurd hc h
  | bulkWrite author values =>
    exact (Store.guarded_bulkWrite author values).imp fun _ _ h hc => absurd hc h
  | bulkDelete author keys =>
    exact (Store.guarded_bulkDelete author keys).imp fun _ _ h hc => absurd hc h
  | read key => exact (Store.guarded_read key).imp fun _ _ h hc => absurd hc h
  | readMany keys =>
    exact (guarded_bounded (Store.guarded_readAll .empty keys)).imp fun _ _ h hc => absurd hc h
  | query resource options =>
    exact (Store.guarded_query resource options).imp fun _ _ h hc => absurd hc h
  | count resource filter =>
    exact (Store.guarded_count resource filter).imp fun _ _ h hc => absurd hc h

end ConfigLedger
