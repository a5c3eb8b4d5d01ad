import ConfigLedger.Command.Execution
import ConfigLedger.Proofs.Store.Calls
import ConfigLedger.Proofs.Store.Pending

/-!
# What operations may add

`Procedure.Adds V Q p` says that every value which the procedure `p` may ask to add has the
property `V`, and its result the property `Q`, whatever the surroundings answer. So the procedure
keeps what such additions keep (`Procedure.Adds.run`).

The operations of the store add the values they are given and tombstones, which are null
(`StoreCall.addsOnly`), and a command adds the value of its text (`Command.addsOnly_execute`).
-/

namespace ConfigLedger

variable {α β ε : Type} {V : Value → Prop}

/-- The documents that a request may add. -/
def Request.additions : Request → List Document
  | insert d => [d]
  | insertIf d _ => [d]
  | insertAll documents => documents
  | _ => []

namespace Procedure

/-- Whatever is answered, the values to be added have one property and the result another. -/
def Adds (V : Value → Prop) (Q : α → Prop) : Procedure α → Prop
  | done a => Q a
  | ask r next => (∀ d ∈ r.additions, V d.value) ∧ ∀ answer, (next answer).Adds V Q

theorem Adds.imp {Q R : α → Prop} (hQR : ∀ a, Q a → R a) {p : Procedure α} (h : p.Adds V Q) :
    p.Adds V R := by
  induction p with
  | done a => exact hQR a h
  | ask r next ih => exact ⟨h.1, fun answer => ih answer (h.2 answer)⟩

/-- **Sequencing.** -/
theorem adds_bind {Q : β → Prop} {p : Procedure α} {f : α → Procedure β} :
    (p.bind f).Adds V Q ↔ p.Adds V fun a => (f a).Adds V Q := by
  induction p with
  | done a => exact Iff.rfl
  | ask r next ih => exact and_congr_right fun _ => forall_congr' ih

/-- Every answer along a run has a property. -/
def Along {σ : Type} (serve : (r : Request) → σ → r.Answer × σ)
    (P : (r : Request) → r.Answer → Prop) : Procedure α → σ → Prop
  | done _, _ => True
  | ask r next, s => P r (serve r s).1 ∧ (next (serve r s).1).Along serve P (serve r s).2

section

variable {σ : Type} {serve : (r : Request) → σ → r.Answer × σ} (Inv : σ → Prop)
  {P : (r : Request) → r.Answer → Prop} {p : Procedure α} {s : σ}

/-- **Additions in any surroundings.** What single requests keep as long as they are answered well
is kept by a procedure that is answered well. -/
theorem Adds.run {Q : α → Prop} (h : p.Adds V Q)
    (hserve : ∀ r s, (∀ d ∈ r.additions, V d.value) → P r (serve r s).1 → Inv s →
      Inv (serve r s).2)
    (halong : p.Along serve P s) (hs : Inv s) : Inv (p.run serve s).2 := by
  induction p generalizing s with
  | done a => exact hs
  | ask r next ih => exact ih _ (h.2 _) halong.2 (hserve r s h.1 halong.1 hs)

/-- Surroundings that answer well in a state that they keep answer well along every run. -/
theorem along_of_inv (hserve : ∀ r s, Inv s → P r (serve r s).1 ∧ Inv (serve r s).2) (hs : Inv s) :
    p.Along serve P s ∧ Inv (p.run serve s).2 := by
  induction p generalizing s with
  | done a => exact ⟨trivial, hs⟩
  | ask r next ih =>
    obtain ⟨hanswer, hnext⟩ := hserve r s hs
    obtain ⟨halong, hend⟩ := ih (serve r s).1 hnext
    exact ⟨⟨hanswer, halong⟩, hend⟩

end

end Procedure

/-! ### Actions -/

namespace Action

/-- Whatever is answered, the values to be added have one property and the result, if there is one,
another. -/
def Adds (V : Value → Prop) (Q : α → Prop) (a : Action α) : Prop :=
  a.steps.Adds V fun outcome => ∀ r, outcome = some (.ok r) → Q r

variable {Q : α → Prop} {a : Action α}

theorem Adds.imp {R : α → Prop} (hQR : ∀ r, Q r → R r) (h : a.Adds V Q) : a.Adds V R :=
  Procedure.Adds.imp (fun _ houtcome r hr => hQR r (houtcome r hr)) h

theorem adds_pure {r : α} (h : Q r) : (pure r : Action α).Adds V Q := by
  rintro _ ⟨⟩
  exact h

theorem adds_throw (e : StoreError) : (throw e : Action α).Adds V Q := by
  rintro _ ⟨⟩

theorem adds_ofExcept {outcome : Except StoreError α} (h : ∀ r, outcome = .ok r → Q r) :
    (ofExcept outcome).Adds V Q := by
  rintro r hr
  exact h r (Option.some.inj hr)

theorem adds_bind {R : β → Prop} {f : α → Action β} (ha : a.Adds V Q)
    (hf : ∀ r, Q r → (f r).Adds V R) : (a >>= f).Adds V R := by
  rw [Adds, steps_bind, Procedure.adds_bind]
  refine Procedure.Adds.imp (fun outcome houtcome => ?_) ha
  rcases outcome with _ | (e | r)
  · rintro _ ⟨⟩
  · rintro _ ⟨⟩
  · exact hf r (houtcome r rfl)

theorem adds_attempt (h : a.Adds V Q) :
    a.attempt.Adds V fun outcome => ∀ r, outcome = .ok r → Q r := by
  refine Procedure.adds_bind.2 (Procedure.Adds.imp (fun outcome houtcome => ?_) h)
  intro attempted hattempted r hr
  obtain ⟨result, hresult, heq⟩ := Option.map_eq_some_iff.1 hattempted
  obtain rfl := Except.ok.inj heq
  exact houtcome r (by rw [hresult, hr])

/-! ### Requests -/

theorem adds_find (q : Query) : (find q).Adds V fun _ => True :=
  ⟨by simp [Request.additions], fun _ _ _ => trivial⟩

theorem adds_insert {d : Document} (h : V d.value) : (insert d).Adds V fun _ => True :=
  ⟨by simpa [Request.additions] using h, fun _ _ _ => trivial⟩

theorem adds_insertIf {d : Document} (h : V d.value) (condition : Predicate) :
    (insertIf d condition).Adds V fun _ => True :=
  ⟨by simpa [Request.additions] using h, fun _ _ _ => trivial⟩

theorem adds_insertAll {documents : List Document} (h : ∀ d ∈ documents, V d.value) :
    (insertAll documents).Adds V fun _ => True :=
  ⟨h, fun _ _ _ => trivial⟩

theorem adds_now : now.Adds V fun _ => True :=
  ⟨by simp [Request.additions], fun _ _ _ => trivial⟩

theorem adds_record (m : Measurement) : (record m).Adds V fun _ => True :=
  ⟨by simp [Request.additions], fun _ _ _ => trivial⟩

theorem adds_holding (key : Key) (h : a.Adds V Q) : (holding key a).Adds V Q := by
  refine ⟨by simp [Request.additions], fun granted => ?_⟩
  cases granted with
  | true =>
    change Procedure.Adds V _ (a.steps.bind _)
    refine Procedure.adds_bind.2 (Procedure.Adds.imp (fun outcome houtcome => ?_) h)
    exact ⟨by simp [Request.additions], fun _ => houtcome⟩
  | false => exact fun _ h => nomatch h

theorem adds_holdingAll (keys : List Key) (h : a.Adds V Q) : (holdingAll keys a).Adds V Q := by
  induction keys with
  | nil => exact h
  | cons key keys ih => exact adds_holding key ih

end Action

/-! ### Operations that may fail -/

/-- Whatever is answered, the values to be added have a property. -/
def AddsOnly (V : Value → Prop) (x : ExceptT ε Procedure α) : Prop :=
  Procedure.Adds V (fun _ => True) (ExceptT.run x)

theorem addsOnly_pure (a : α) : AddsOnly V (pure a : ExceptT ε Procedure α) :=
  trivial

theorem addsOnly_throw (e : ε) : AddsOnly V (throw e : ExceptT ε Procedure α) :=
  trivial

theorem addsOnly_bind {x : ExceptT ε Procedure α} {f : α → ExceptT ε Procedure β}
    (hx : AddsOnly V x) (hf : ∀ a, AddsOnly V (f a)) : AddsOnly V (x >>= f) := by
  refine Procedure.adds_bind.2 (Procedure.Adds.imp (fun outcome _ => ?_) hx)
  cases outcome with
  | error e => trivial
  | ok a => exact hf a

theorem addsOnly_record (m : Measurement) : AddsOnly V (Call.record m) :=
  ⟨by simp [Request.additions], fun _ => trivial⟩

theorem addsOnly_bounded {Q : α → Prop} (operation : Operation) {a : Action α} (h : a.Adds V Q) :
    AddsOnly V (bounded operation a) := by
  refine Procedure.adds_bind.2 (Procedure.Adds.imp (fun outcome _ => ?_) h)
  exact ⟨by simp [Request.additions], fun _ => ⟨by simp [Request.additions], fun _ => trivial⟩⟩

/-! ### Operations of the store -/

namespace Store

open ConfigLedger.Action

theorem adds_latest (key : Key) : (latest key).Adds V fun _ => True :=
  adds_bind (adds_find _) fun _ _ => adds_pure trivial

theorem adds_live (key : Key) : (live key).Adds V fun _ => True :=
  adds_bind (adds_latest key) fun _ _ => adds_pure trivial

theorem adds_latestLive (resource : Resource) (filter : Option Predicate) :
    (latestLive resource filter).Adds V fun _ => True :=
  adds_bind (adds_find _) fun _ _ => adds_pure trivial

theorem adds_condition (filter : Option Filter) : (condition filter).Adds V fun _ => True := by
  cases filter with
  | none => exact adds_pure trivial
  | some f => exact adds_bind (adds_ofExcept fun _ _ => trivial) fun _ _ => adds_pure trivial

/-- A write prepares the value that it was given. -/
theorem adds_prepareWrite (author : Author) (key : Key) {value : Value} (h : V value) :
    (prepareWrite author key value).Adds V fun p => V p.document.value :=
  adds_bind (adds_latest key) fun _ _ => adds_bind adds_now fun _ _ => adds_pure h

/-- A deletion prepares a tombstone. -/
theorem adds_prepareDelete (author : Author) (key : Key) (h : V .null) :
    (prepareDelete author key).Adds V fun o => ∀ p, o = some p → V p.document.value := by
  refine adds_bind (adds_live key) fun previous _ => ?_
  cases previous with
  | none => exact adds_pure fun _ h => nomatch h
  | some r =>
    refine adds_bind adds_now fun now _ => adds_pure fun p hp => ?_
    obtain rfl := Option.some.inj hp
    exact h

theorem adds_commitConditional {p : Pending} (h : V p.document.value) (precondition : Predicate) :
    (commitConditional p precondition).Adds V fun _ => True := by
  have hrefused (met : Bool) : Action.Adds V (fun _ => True) (unless met do
      Action.record .writeConflict
      throw (.conflict ("precondition failed for " ++ p.document.key.label))) := by
    cases met with
    | true => exact adds_pure trivial
    | false => exact adds_bind (adds_record _) fun _ _ => adds_throw _
  rw [commitConditional]
  cases p.previous with
  | none => exact adds_bind (adds_pure trivial) fun met (_ : True) => hrefused met
  | some r => exact adds_bind (adds_insertIf h _) fun met _ => hrefused met

theorem addsOnly_write (author : Author) (key : Key) {value : Value} (h : V value)
    (precondition : Option Filter) : AddsOnly V (write author key value precondition) := by
  refine addsOnly_bounded (Q := fun _ => True) _ ?_
  refine adds_bind (adds_ofExcept fun _ _ => trivial) fun _ (_ : True) => ?_
  refine adds_bind (adds_condition precondition) fun precondition _ => ?_
  refine adds_holding key (adds_bind (adds_prepareWrite author key h) fun p hp => ?_)
  have hwritten : Action.Adds V (fun _ => True) (Action.ofExcept p.written) :=
    adds_ofExcept fun _ _ => trivial
  cases precondition with
  | none => exact adds_bind (adds_insert hp) fun _ _ => hwritten
  | some precondition =>
    exact adds_bind (adds_commitConditional hp precondition) fun _ _ => hwritten

theorem addsOnly_delete (author : Author) (key : Key) (h : V .null) :
    AddsOnly V (delete author key) := by
  refine addsOnly_bounded (Q := fun _ => True) _ (adds_holding key ?_)
  refine adds_bind (adds_prepareDelete author key h) fun o ho => ?_
  cases o with
  | none => exact adds_pure trivial
  | some p => exact adds_bind (adds_insert (ho p rfl)) fun _ _ => adds_pure trivial

/-! ### Many keys at once -/

theorem adds_recordConflicts (outcomes : List (Except BackendError Unit)) :
    (recordConflicts outcomes).Adds V fun _ => True := by
  fun_induction recordConflicts outcomes with
  | case1 => exact adds_pure trivial
  | case2 _ _ _ ih => exact adds_bind (adds_record _) fun _ _ => ih
  | case3 _ _ _ ih => exact ih

/-- Every version that is pending may be stored. -/
def Pendings (V : Value → Prop) (prepared : List (Key × Prepared α)) : Prop :=
  ∀ x ∈ prepared, ∀ p, x.2 = .pending p → V p.document.value

theorem adds_commitAll {finish : Pending → Except StoreError α}
    {prepared : List (Key × Prepared α)} (h : Pendings V prepared) :
    (commitAll finish prepared).Adds V fun _ => True := by
  -- the documents that are inserted are those of the pending elements
  have hdocuments : ∀ d ∈ prepared.filterMap (·.2.document?), V d.value := by
    intro d hd
    obtain ⟨⟨key, element⟩, hmem, hdocument⟩ := List.mem_filterMap.1 hd
    cases element with
    | answered answer => cases hdocument
    | pending p =>
      obtain rfl := Option.some.inj hdocument
      exact h _ hmem p rfl
  -- what is counted afterwards adds nothing
  refine adds_bind (adds_insertAll hdocuments) fun outcomes _ => ?_
  exact adds_bind (adds_recordConflicts _) fun _ _ => adds_pure trivial

theorem pendings_cons {key : Key} {element : Prepared α} {prepared : List (Key × Prepared α)}
    (helement : ∀ p, element = .pending p → V p.document.value) (h : Pendings V prepared) :
    Pendings V ((key, element) :: prepared) :=
  List.forall_mem_cons.2 ⟨helement, h⟩

/-- What an attempt has prepared. -/
theorem pending_ofOutcome {outcome : Except StoreError (Prepared α)}
    (h : ∀ element, outcome = .ok element → ∀ p, element = .pending p → V p.document.value) :
    ∀ p, Prepared.ofOutcome outcome = .pending p → V p.document.value := by
  cases outcome with
  | error e => exact fun _ hp => nomatch hp
  | ok element => exact h element rfl

theorem adds_prepareWrites (author : Author) (values : List (Key × Value))
    (h : ∀ entry ∈ values, V entry.2) : (prepareWrites author values).Adds V (Pendings V) := by
  induction values with
  | nil => exact adds_pure (List.forall_mem_nil _)
  | cons entry rest ih =>
    obtain ⟨key, value⟩ := entry
    obtain ⟨hvalue, hrest⟩ := List.forall_mem_cons.1 h
    -- the attempt at one key prepares a document with the value that is given for it
    have hattempt : Action.Adds V (fun element => ∀ p, element = .pending p → V p.document.value)
        (do
          Action.ofExcept (checkWritable key value)
          return Prepared.pending (α := Written) (← prepareWrite author key value)) := by
      refine adds_bind (adds_ofExcept fun _ _ => trivial) fun _ (_ : True) => ?_
      refine adds_bind (adds_prepareWrite author key hvalue) fun p hp => adds_pure fun q hq => ?_
      cases hq
      exact hp
    rw [prepareWrites]
    refine adds_bind (adds_attempt hattempt) fun outcome houtcome => ?_
    refine adds_bind (ih hrest) fun prepared hprepared => adds_pure ?_
    exact pendings_cons (pending_ofOutcome houtcome) hprepared

theorem adds_prepareDeletion (author : Author) (h : V .null) (seen : List Key) (key : Key) :
    (prepareDeletion author seen key).Adds V fun element =>
      ∀ p, element = .pending p → V p.document.value := by
  -- a key that was seen before or does not live has its answer already
  have hanswered : (pure (.answered (.ok none)) : Action (Prepared (Option Record))).Adds V
      fun element => ∀ p, element = .pending p → V p.document.value := by
    refine adds_pure ?_
    rintro p ⟨⟩
  rw [prepareDeletion]
  split
  · exact hanswered
  · -- a tombstone is prepared for a key that lives, and its value is null
    refine adds_bind (adds_attempt (adds_bind (adds_prepareDelete author key h) fun o ho => ?_))
      fun outcome houtcome => adds_pure (pending_ofOutcome houtcome)
    cases o with
    | none => exact hanswered
    | some p =>
      refine adds_pure ?_
      rintro q ⟨⟩
      exact ho p rfl

theorem adds_prepareDeletes (author : Author) (h : V .null) (seen keys : List Key) :
    (prepareDeletes author seen keys).Adds V (Pendings V) := by
  induction keys generalizing seen with
  | nil => exact adds_pure (List.forall_mem_nil _)
  | cons key rest ih =>
    rw [prepareDeletes_cons]
    refine adds_bind (adds_prepareDeletion author h seen key) fun element helement => ?_
    exact adds_bind (ih _) fun prepared hprepared => adds_pure (pendings_cons helement hprepared)

/-- A batch adds what it prepares. -/
theorem addsOnly_batch {empty : Bool} {e : StoreError} {m : Measurement} {operation : Operation}
    {keys : List Key} {finish : Pending → Except StoreError α}
    {prepare : Action (List (Key × Prepared α))} (h : prepare.Adds V (Pendings V)) :
    AddsOnly V (do
      if empty then throw e
      Call.record m
      bounded operation (Action.holdingAll keys do commitAll finish (← prepare)) :
      Call (Answers α)) := by
  -- what is stored is prepared first, under the monitors of all keys
  have hbody : AddsOnly V
      (bounded operation (Action.holdingAll keys do commitAll finish (← prepare))) :=
    addsOnly_bounded (Q := fun _ => True) _
      (adds_holdingAll _ (adds_bind h fun _ hprepared => adds_commitAll hprepared))
  cases empty with
  | true => exact addsOnly_throw e
  | false => exact addsOnly_bind (addsOnly_record m) fun _ => hbody

theorem addsOnly_bulkWrite (author : Author) (values : Entries Key Value)
    (h : ∀ value ∈ values.values, V value) : AddsOnly V (bulkWrite author values) := by
  rw [bulkWrite]
  exact addsOnly_batch (adds_prepareWrites author _ fun entry hentry =>
    h entry.2 (List.mem_map_of_mem hentry))

theorem addsOnly_bulkDelete (author : Author) (keys : List Key) (h : V .null) :
    AddsOnly V (bulkDelete author keys) := by
  rw [bulkDelete]
  exact addsOnly_batch (adds_prepareDeletes author h [] keys)

/-! ### Reading -/

theorem addsOnly_read (key : Key) : AddsOnly V (read key) :=
  addsOnly_bounded _ (adds_live key)

theorem adds_readAll (records : Entries Key Record) (keys : List Key) :
    (readAll records keys).Adds V fun _ => True := by
  induction keys generalizing records with
  | nil => exact adds_pure trivial
  | cons key rest ih =>
    refine adds_bind (adds_live key) fun found _ => ?_
    cases found with
    | none => exact ih records
    | some r => exact ih (records.put key r)

theorem addsOnly_readMany (keys : List Key) : AddsOnly V (readMany keys) :=
  addsOnly_bounded _ (adds_readAll .empty keys)

theorem addsOnly_readMerged (resource : Resource) (contexts : List String) :
    AddsOnly V (readMerged resource contexts) :=
  addsOnly_bind (addsOnly_readMany _) fun _ => addsOnly_pure _

theorem addsOnly_query (resource : Resource) (options : QueryOptions) :
    AddsOnly V (query resource options) := by
  refine addsOnly_bounded (Q := fun _ => True) _ ?_
  refine adds_bind (adds_condition options.filter) fun filter _ => ?_
  -- the bounds of the page have no part in it
  have hrest (bounds : Nat × Option Nat) : Action.Adds V (fun _ => True) (do
      let matching ← latestLive resource filter
      Action.record (.queryResults matching.length)
      return (⟨page options bounds matching, matching.length⟩ : QueryResult)) :=
    adds_bind (adds_latestLive resource filter) fun _ _ =>
      adds_bind (adds_record _) fun _ _ => adds_pure trivial
  cases options.page with
  | none => exact adds_bind (adds_pure trivial) fun bounds (_ : True) => hrest bounds
  | some page =>
    exact adds_bind (adds_ofExcept fun _ _ => trivial) fun bounds (_ : True) => hrest bounds

theorem addsOnly_count (resource : Resource) (filter : Option Filter) :
    AddsOnly V (count resource filter) := by
  refine addsOnly_bounded (Q := fun _ => True) _ ?_
  refine adds_bind (adds_condition filter) fun filter _ => ?_
  exact adds_bind (adds_latestLive resource filter) fun _ _ => adds_pure trivial

end Store

/-- The values that a call is given to write. -/
def StoreCall.values : StoreCall → List Value
  | write _ _ value _ => [value]
  | bulkWrite _ values => values.values
  | _ => []

/-- **A call** adds the values it is given and tombstones. -/
theorem StoreCall.addsOnly (c : StoreCall) (hnull : V .null) (h : ∀ value ∈ c.values, V value) :
    AddsOnly V c.call := by
  cases c with
  | write author key value precondition =>
    exact Store.addsOnly_write author key (h value List.mem_cons_self) precondition
  | delete author key => exact Store.addsOnly_delete author key hnull
  | bulkWrite author values => exact Store.addsOnly_bulkWrite author values h
  | bulkDelete author keys => exact Store.addsOnly_bulkDelete author keys hnull
  | read key => exact Store.addsOnly_read key
  | readMany keys => exact Store.addsOnly_readMany keys
  | query resource options => exact Store.addsOnly_query resource options
  | count resource filter => exact Store.addsOnly_count resource filter

/-! ### Commands -/

theorem addsOnly_ofCall {c : Call α} (h : AddsOnly V c) : AddsOnly V (Execution.ofCall c) :=
  Procedure.adds_bind.2 (Procedure.Adds.imp (fun _ _ => trivial) h)

theorem addsOnly_filter (text : Option String) : AddsOnly V (Execution.filter text) := by
  cases text with
  | none => exact addsOnly_pure _
  | some text =>
    rw [Execution.filter]
    split
    · exact addsOnly_pure _
    · exact addsOnly_throw _

theorem addsOnly_found (what : String) (o : Option α) : AddsOnly V (Execution.found what o) := by
  cases o with
  | none => exact addsOnly_throw _
  | some a => exact addsOnly_pure a

/-- The value that a command is given to write, if its text denotes one. -/
def Command.value? : Command → Option Value
  | put _ _ text _ => Value.ofText? text
  | _ => none

theorem Command.exists_text_of_value? {c : Command} {value : Value} (h : c.value? = some value) :
    ∃ text, Value.ofText? text = some value := by
  cases c with
  | put resource context text precondition => exact ⟨text, h⟩
  | _ => cases h

/-- **A command** adds the value of its text and tombstones. -/
theorem Command.addsOnly_execute (author : Author) (c : Command) (hnull : V .null)
    (h : ∀ value, c.value? = some value → V value) : AddsOnly V (execute author c) := by
  cases c with
  | get resource context merge =>
    -- reading one context or several adds nothing, and the rest of the command asks for nothing
    cases merge with
    | nil =>
      refine addsOnly_bind (addsOnly_ofCall (Store.addsOnly_read _)) fun _ => ?_
      exact addsOnly_bind (addsOnly_found _ _) fun _ => addsOnly_pure _
    | cons first others =>
      refine addsOnly_bind (addsOnly_ofCall (Store.addsOnly_readMerged _ _)) fun _ => ?_
      exact addsOnly_bind (addsOnly_found _ _) fun _ => addsOnly_pure _
  | put resource context text precondition =>
    rw [execute]
    split
    · exact addsOnly_throw _
    -- only here is something written, and it is what the text denotes
    · rename_i value hvalue
      refine addsOnly_bind (addsOnly_filter _) fun _ => ?_
      refine addsOnly_bind (addsOnly_ofCall ?_) fun _ => addsOnly_pure _
      exact Store.addsOnly_write author _ (h value hvalue) _
  | delete resource context =>
    -- what is deleted becomes a tombstone
    refine addsOnly_bind (addsOnly_ofCall (Store.addsOnly_delete author _ hnull)) fun _ => ?_
    exact addsOnly_bind (addsOnly_found _ _) fun _ => addsOnly_pure _
  | list resource filter limit offset sortPath =>
    -- queries add nothing
    refine addsOnly_bind (addsOnly_filter _) fun _ => ?_
    exact addsOnly_bind (addsOnly_ofCall (Store.addsOnly_query _ _)) fun _ => addsOnly_pure _
  | resolve resource scope separator =>
    refine addsOnly_bind (addsOnly_ofCall (Store.addsOnly_query _ _)) fun result => ?_
    cases scope with
    | none => exact addsOnly_pure _
    | some scope => exact addsOnly_bind (addsOnly_found _ _) fun _ => addsOnly_pure _

end ConfigLedger
