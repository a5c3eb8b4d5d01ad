import ConfigLedger.Proofs.Store.Accounts
import ConfigLedger.Proofs.Store.VersionArithmetic

/-!
# What the store takes for granted

In three places the store relies on something that it established earlier, and does not check it
again. A write that was committed has a record, since null values were refused before anything was
prepared. A batch is answered one outcome for each of its documents, so that the outcomes can be
dealt out to the elements that were prepared. And the versions that it computes exist, since they
are neighbours of versions that were found.

If one of the first two failed, an internal error would be answered. None is, neither by a call nor
by an element of a bulk operation, whatever the collection holds and whichever saves of the file
fail. And the elements get their own answers. Both follow from what may become of an element before
it is stored (`Prepared.Fair`). As for the third, no arithmetic is asked for a version that does not
exist, as long as the versions in the collection have room above them (`StoreCall.coherent_run`).
-/

namespace ConfigLedger

variable {α : Type} {c : Collection} {s : Setting} {key : Key}

/-! ### Answers of bulk operations -/

/-- The errors of the elements. -/
def Answers.errors (answers : Answers α) : List StoreError :=
  answers.filterMap fun answer => match answer.2 with
    | .ok _ => none
    | .error e => some e

theorem Answers.mem_errors {answers : Answers α} {e : StoreError} :
    e ∈ answers.errors ↔ ∃ key, (key, .error e) ∈ answers := by
  unfold errors
  rw [List.mem_filterMap]
  constructor
  · -- only errors are kept by the filter
    rintro ⟨⟨key, outcome⟩, hmem, he⟩
    cases outcome with
    | ok a => cases he
    | error e' =>
      obtain rfl : e' = e := Option.some.inj he
      exact ⟨key, hmem⟩
  · rintro ⟨key, hmem⟩
    exact ⟨_, hmem, rfl⟩

/-- The record that was written is that of a key, and has its value. -/
def Written.RightFor (elements : List (Key × Value)) (key : Key) (w : Written) : Prop :=
  w.record.key = key ∧ (key, w.record.value) ∈ elements

/-- The record that was deleted, if there was one, is that of a key. -/
def Record.RightFor (key : Key) (deleted : Option Record) : Prop :=
  ∀ r, deleted = some r → r.key = key

/-- Every key is answered once, in the order of the keys, and a result is right for its key. -/
def Answers.AlignWith (keys : List Key) (right : Key → α → Prop) (answers : Answers α) : Prop :=
  answers.map Prod.fst = keys ∧ ∀ key a, (key, .ok a) ∈ answers → right key a

namespace StoreCall

/-- The errors that an answer reports, which are those of its elements. -/
def reportedErrors : (call : StoreCall) → call.Answer → List StoreError
  | bulkWrite .., answers => Answers.errors answers
  | bulkDelete .., answers => Answers.errors answers
  | _, _ => []

/-- The errors that a call is answered: its own, or those of its elements. -/
def errors (call : StoreCall) : Except StoreError call.Answer → List StoreError
  | .error e => [e]
  | .ok answer => call.reportedErrors answer

/-- A bulk operation is answered element by element. -/
def Aligned : (call : StoreCall) → call.Answer → Prop
  | bulkWrite _ values, answers =>
    Answers.AlignWith values.keys (Written.RightFor values.toList) answers
  | bulkDelete _ keys, answers => Answers.AlignWith keys Record.RightFor answers
  | _, _ => True

end StoreCall

/-! ### Fair answers -/

section

variable {finish : Pending → Except StoreError α} {right : Key → α → Prop}

/-- The outcome is no internal error, and a result is right. -/
def FairOutcome (right : α → Prop) : Except StoreError α → Prop
  | .ok a => right a
  | .error e => e.isInternal = false

/-- The answer to an element is fair, given at once or as soon as the element is stored. -/
def Prepared.Fair (finish : Pending → Except StoreError α) (right : α → Prop) : Prepared α → Prop
  | .answered answer => FairOutcome right answer
  | .pending p => FairOutcome right (finish p)

/-- When an element is committed, its version may be taken, which is no internal error. -/
theorem Prepared.fair_commit {element : Prepared α} {right : α → Prop}
    (h : element.Fair finish right) (c : Collection) :
    FairOutcome right (element.commit finish c).1 := by
  cases element with
  | answered answer => exact h
  | pending p =>
    rw [Prepared.commit, Memory.insert]
    cases c.insert? p.document with
    | none => rfl
    | some c' => exact h

/-- **A batch** whose elements are fair is answered so, element by element. -/
theorem Store.fair_commitEach {prepared : List (Key × Prepared α)}
    (h : ∀ e ∈ prepared, e.2.Fair finish (right e.1)) (c : Collection) :
    ∀ answer ∈ (commitEach finish c prepared).1, FairOutcome (right answer.1) answer.2 := by
  -- the rest is committed to what the first element leaves, so the induction is for every `c`
  induction prepared generalizing c with
  | nil => exact fun answer hanswer => absurd hanswer List.not_mem_nil
  | cons e rest ih =>
    obtain ⟨key, element⟩ := e
    obtain ⟨hfirst, hrest⟩ := List.forall_mem_cons.1 h
    rw [commitEach, List.forall_mem_cons]
    exact ⟨Prepared.fair_commit hfirst c, ih hrest _⟩

/-- So drafts that are committed are answered in their order, and report no internal error. -/
theorem Store.fair_fill {drafts : List (Key × Draft α)} {readings : Nat → UInt64}
    (h : ∀ e ∈ Draft.fill drafts readings, e.2.Fair finish (right e.1)) (c : Collection) :
    let answers := (commitEach finish c (Draft.fill drafts readings)).1
    (∀ e ∈ answers.errors, e.isInternal = false) ∧
      answers.AlignWith (drafts.map Prod.fst) right := by
  intro answers
  have hfair := fair_commitEach h c
  -- every draft has one answer, in its place
  have hkeys : answers.map Prod.fst = drafts.map Prod.fst := by
    rw [map_fst_commitEach, Draft.map_fst_fill]
  refine ⟨fun e he => ?_, hkeys, fun key a hmem => ?_⟩
  · obtain ⟨key, hmem⟩ := Answers.mem_errors.1 he
    exact hfair _ hmem
  · exact hfair _ hmem

end

/-! ### Calls -/

/-- The call is answered no internal error, and neither are its elements, which get their own
answers. -/
def StoreCall.Fair (call : StoreCall) (outcome : Except StoreError call.Answer) (_ : Collection) :
    Prop :=
  (∀ e ∈ call.errors outcome, e.isInternal = false) ∧
    ∀ answer, outcome = .ok answer → call.Aligned answer

theorem StoreCall.mayFail_fair (call : StoreCall) : MayFail call.Fair c := by
  intro e he
  refine ⟨List.forall_mem_singleton.2 he, fun answer hanswer => ?_⟩
  cases hanswer

namespace Store

theorem fair_bulkWrite (author : Author) (values : Entries Key Value) :
    (bulkWrite author values).Ends c (StoreCall.bulkWrite author values).Fair := by
  apply ends_bulkWrite _ (StoreCall.mayFail_fair (.bulkWrite author values))
  intro readings done
  -- each element is refused with an error of the argument, or it will answer a record of its own
  have hprepared : ∀ e ∈ Draft.fill (draftWrites author c values.toList) readings,
      e.2.Fair Pending.written (Written.RightFor values.toList e.1) := by
    apply forall_mem_fill_draftWrites author
      (Q := fun key element => element.Fair Pending.written (Written.RightFor values.toList key))
    · intro key e hrefused
      exact hrefused.isInternal_eq_false
    · intro key value now hmem hvalue
      -- what was let through is not null, so it has a record
      obtain ⟨w, hwritten, hw⟩ := Pending.written_ofWrite hvalue author key (c.latest key) now
      have hkey : w.record.key = key := congrArg Document.key hw
      have hstored : w.record.value = value := congrArg Document.value hw
      rw [Prepared.Fair, hwritten]
      exact ⟨hkey, hstored ▸ hmem⟩
  -- what is prepared fairly is committed fairly
  obtain ⟨herrors, haligned⟩ := fair_fill hprepared c
  rw [map_fst_draftWrites] at haligned
  refine ⟨herrors, fun answers hanswers => ?_⟩
  obtain rfl : done.1 = answers := Except.ok.inj hanswers
  exact haligned

theorem fair_bulkDelete (author : Author) (keys : List Key) :
    (bulkDelete author keys).Ends c (StoreCall.bulkDelete author keys).Fair := by
  apply ends_bulkDelete _ (StoreCall.mayFail_fair (.bulkDelete author keys))
  intro readings done
  have hprepared : ∀ e ∈ Draft.fill (draftDeletes author c [] keys) readings,
      e.2.Fair (fun p => .ok p.previous) (Record.RightFor e.1) := by
    apply forall_mem_fill_draftDeletes author
      (Q := fun key element => element.Fair (fun p => .ok p.previous) (Record.RightFor key))
    · -- a key without a record reports none
      intro key r hr
      cases hr
    · -- the record of the answer is the one that was shown under this key
      intro key r now hshown r' hr
      obtain rfl : r = r' := Option.some.inj hr
      exact Collection.key_of_shown hshown
  obtain ⟨herrors, haligned⟩ := fair_fill hprepared c
  rw [map_fst_draftDeletes] at haligned
  refine ⟨herrors, fun answers hanswers => ?_⟩
  obtain rfl : done.1 = answers := Except.ok.inj hanswers
  exact haligned

end Store

namespace StoreCall

/-- A result without elements is fair. -/
theorem fair_ok (call : StoreCall) {a : call.Answer} (hreported : call.reportedErrors a = [])
    (haligned : call.Aligned a) (c : Collection) : call.Fair (.ok a) c := by
  refine ⟨fun e he => ?_, fun answer hanswer => ?_⟩
  · rw [errors, hreported] at he
    cases he
  · cases hanswer
    exact haligned

/-- What only reads is answered without elements, and it fails for its arguments, if it fails. -/
theorem fair_of_unchanged {call : StoreCall} {outcome : Except StoreError call.Answer}
    (hrun : ∀ s : Setting, s.medium.Holds c → call.call.run s = (outcome, s))
    (hfailed : ∀ e, outcome = .error e → e.OfArgument)
    (hanswered : ∀ a, call.reportedErrors a = [] ∧ call.Aligned a) :
    call.call.Ends c call.Fair := by
  refine Call.ends_of_run fun s hs => ⟨outcome, s, hrun s hs, rfl, ?_⟩
  cases outcome with
  | error e => exact mayFail_fair call e (hfailed e rfl).isInternal_eq_false
  | ok a => exact fair_ok call (hanswered a).1 (hanswered a).2 c

theorem fair_query (resource : Resource) (options : QueryOptions) :
    (query resource options).call.Ends c (query resource options).Fair := by
  refine fair_of_unchanged (fun s hs => hs.shows.run_query resource options) ?_
    fun _ => ⟨rfl, trivial⟩
  intro e he
  refine ofArgument_of_bind (fun _ => ofArgument_of_compiled) (fun filter e he => ?_) he
  -- the query fails with the filter or with the bounds, which both blame the argument
  refine ofArgument_of_bind (fun e he => ?_) (fun bounds e he => ?_) he
  · cases hpage : options.page with
    | none =>
      rw [hpage] at he
      cases he
    | some page =>
      rw [hpage] at he
      exact Page.ofArgument_of_bounds he
  · cases he

theorem fair_count (resource : Resource) (filter : Option Filter) :
    (count resource filter).call.Ends c (count resource filter).Fair := by
  refine fair_of_unchanged (fun s hs => hs.shows.run_count resource filter) ?_
    fun _ => ⟨rfl, trivial⟩
  intro e he
  refine ofArgument_of_bind (fun _ => ofArgument_of_compiled) (fun q e he => ?_) he
  cases he

/-- **Every call is answered fairly**, whatever the collection holds. -/
theorem fair_call (call : StoreCall) : call.call.Ends c call.Fair := by
  cases call with
  | write author key value filter =>
    -- a write that stores its version answers its record, and all other ends are errors
    apply Store.ends_write _ (mayFail_fair (.write author key value filter))
    intro _ _ c' _ _ _ _ _
    exact fair_ok (.write author key value filter) rfl trivial c'
  | delete author key =>
    apply Store.ends_delete
    · intro _
      exact fair_ok (.delete author key) rfl trivial c
    · intro _ _ c' _ _
      exact fair_ok (.delete author key) rfl trivial c'
    · exact mayFail_fair (.delete author key)
  | bulkWrite author values => exact Store.fair_bulkWrite author values
  | bulkDelete author keys => exact Store.fair_bulkDelete author keys
  | read key =>
    -- a key is read without errors, and without keys to align
    refine fair_of_unchanged (fun s hs => hs.shows.run_read key) ?_ fun _ => ⟨rfl, trivial⟩
    intro e he
    cases he
  | readMany keys =>
    refine fair_of_unchanged (fun s hs => hs.shows.run_readMany keys) ?_ fun _ => ⟨rfl, trivial⟩
    intro e he
    cases he
  | query resource options => exact fair_query resource options
  | count resource filter => exact fair_count resource filter

/-- **What the store takes for granted.** The operations are those over words, and they run the same
over any arithmetic, so none is asked for a version above the last one or below the first. No
internal error is answered, neither by the call nor by one of its elements. And a bulk operation
that is done answers its elements one by one. -/
theorem coherent_run (hs : s.medium.Holds c)
    (hbound : ∀ d ∈ c.documents, d.version.toNat + 1 < 2 ^ 64) (call : StoreCall) :
    (VersionArithmetic.words.call call = call.call ∧
      ∀ A : VersionArithmetic, (A.call call).run s = call.call.run s) ∧
      (∀ e ∈ call.errors (call.call.run s).1, e.isInternal = false) ∧
      ∀ answer, (call.call.run s).1 = .ok answer → call.Aligned answer := by
  have harithmetic (A : VersionArithmetic) : (A.call call).run s = call.call.run s :=
    A.agrees_call hs.shows hbound call
  obtain ⟨c', -, hfair⟩ := fair_call call s hs
  exact ⟨⟨VersionArithmetic.call_words call, harithmetic⟩, hfair⟩

theorem coherent_run_repeated :
    let d := Document.sample 9007199254740991 (.string "last")
    let c : Collection := { documents := [d] }
    let s := Setting.idle c
    let call : StoreCall := .bulkDelete d.author [d.key, d.key.resource.key "a", d.key]
    s.medium.Holds c ∧ (∀ e ∈ c.documents, e.version.toNat + 1 < 2 ^ 64) ∧
      (VersionArithmetic.checked.call call).run s = call.call.run s ∧
      (∀ e ∈ call.errors (call.call.run s).1, e.isInternal = false) ∧
      ∃ answer, (call.call.run s).1 = .ok answer ∧ call.Aligned answer := by
  intro d c s call
  have hs : s.medium.Holds c := .memory c
  have hbound : ∀ e ∈ c.documents, e.version.toNat + 1 < 2 ^ 64 :=
    List.forall_mem_singleton.2 (by decide)
  obtain ⟨⟨-, harithmetic⟩, herrors, haligned⟩ := coherent_run hs hbound call
  -- there is something to delete, and nobody holds the keys
  obtain ⟨answer, hanswer⟩ : ∃ answer, (call.call.run s).1 = .ok answer :=
    ⟨_, congrArg Prod.fst (Store.run_bulkDelete_drafts (s := s) (c := c) rfl rfl d.author
      [d.key, d.key.resource.key "a", d.key])⟩
  exact ⟨hs, hbound, harithmetic .checked, herrors, answer, hanswer, haligned answer hanswer⟩

end StoreCall
end ConfigLedger
