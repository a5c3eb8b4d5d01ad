import ConfigLedger.Proofs.Store.SecureActions

/-!
# The operations of the store among others

`StoreCall.Justified` says what the outcome of a call means for the versions that the call has
stored: one for each success that changed something, right above what it reports as superseded
or deleted, and none for anything else. Every call that is started among others keeps the
collection well formed and ends justified (`StoreCall.secure_started`).

The proofs follow the operations: the newest version is found, the next one is drawn from it, and
it is added. Whatever happens to the collection in between is the matter of the rules for single
requests.
-/

namespace ConfigLedger

variable {α : Type} {c c' : Collection} {stored : List Document} {key : Key}

/-! ### Justified outcomes -/

/-- A write that succeeds has stored one version of its key. It reports this version and, as the
previous one, the live version directly below, which meets the precondition if there is one. A
write that fails has stored nothing. -/
def WriteJustified (key : Key) (precondition : Option Filter) : Goal (Except StoreError Written)
  | .ok w, stored, c => ∃ d, stored = [d] ∧ d ∈ c.documents ∧ d.key = key ∧
      d.record? = some w.record ∧ w.previous = (c.below d).bind Document.record? ∧
      ∀ f, precondition = some f →
        ∃ q r, f.compile = .ok q ∧ w.previous = some r ∧ r.satisfies q = true
  | .error _, stored, _ => stored = []

/-- A deletion that reports a record has stored one tombstone of its key, and the record is that of
the live version directly below. Any other deletion has stored nothing. -/
def DeleteJustified (key : Key) : Goal (Except StoreError (Option Record))
  | .ok (some r), stored, c => ∃ d, stored = [d] ∧ d ∈ c.documents ∧ d.key = key ∧
      d.isTombstone = true ∧ (c.below d).bind Document.record? = some r
  | .ok none, stored, _ | .error _, stored, _ => stored = []

/-- The elements of a bulk operation are answered in order, and each answer is justified by its part
of what the operation has stored. -/
def BulkJustified (keys : List Key) (element : Key → Goal (Except StoreError α)) :
    Goal (Except StoreError (Answers α))
  | .ok answers, stored, c => answers.map Prod.fst = keys ∧ ∃ parts, stored = parts.flatten ∧
      List.Forall₂ (fun answer part => element answer.1 answer.2 part c) answers parts
  | .error _, stored, _ => stored = []

/-- The outcome of a call is justified by what the call has stored. -/
def StoreCall.Justified : (c : StoreCall) → Goal (Except StoreError c.Answer)
  | .write _ key _ precondition => WriteJustified key precondition
  | .delete _ key => DeleteJustified key
  | .bulkWrite _ values => BulkJustified values.keys fun key => WriteJustified key none
  | .bulkDelete _ keys => BulkJustified keys DeleteJustified
  | .read _ | .readMany _ | .query _ _ | .count _ _ => fun _ stored _ => stored = []

theorem WriteJustified.stable (key : Key) (precondition : Option Filter) :
    (WriteJustified key precondition).Stable := by
  intro outcome stored c c' h hgrows
  cases outcome with
  | error e => exact h
  | ok w =>
    obtain ⟨d, hstored, hmem, hkey, hrecord, hprevious, hmet⟩ := h
    refine ⟨d, hstored, hgrows.subset hmem, hkey, hrecord, ?_, hmet⟩
    rw [hprevious, hgrows.below hmem]

theorem DeleteJustified.stable (key : Key) : (DeleteJustified key).Stable := by
  intro outcome stored c c' h hgrows
  rcases outcome with e | (_ | r)
  · exact h
  · exact h
  · obtain ⟨d, hstored, hmem, hkey, htombstone, hbelow⟩ := h
    refine ⟨d, hstored, hgrows.subset hmem, hkey, htombstone, ?_⟩
    rw [hgrows.below hmem, hbelow]

theorem BulkJustified.stable {keys : List Key} {element : Key → Goal (Except StoreError α)}
    (helement : ∀ key, (element key).Stable) : (BulkJustified keys element).Stable := by
  intro outcome stored c c' h hgrows
  cases outcome with
  | error e => exact h
  | ok answers =>
    obtain ⟨hkeys, parts, hstored, hparts⟩ := h
    exact ⟨hkeys, parts, hstored, hparts.imp fun answer part h => helement answer.1 h hgrows⟩

theorem StoreCall.Justified.stable (c : StoreCall) : c.Justified.Stable := by
  cases c with
  | write _ key _ precondition => exact WriteJustified.stable key precondition
  | delete _ key => exact DeleteJustified.stable key
  | bulkWrite _ values => exact BulkJustified.stable fun key => WriteJustified.stable key none
  | bulkDelete _ keys => exact BulkJustified.stable DeleteJustified.stable
  | _ => exact fun _ _ _ _ h _ => h

/-! ### Parts of operations -/

namespace Store

theorem secure_latest {Q : Goal (Option (Except StoreError (Option Document)))}
    (h : ∀ c', c.Grows c' → Q (some (.ok (c'.newest key))) stored c') :
    (latest key).Secure Q stored c := by
  refine .bind (Action.secure_find fun c' hgrows => ?_)
  rw [c'.find_latest, (hgrows.after.numbered.exact hgrows.few).latest_eq]
  change Q (some (.ok (c'.newest key).toList.head?)) stored c'
  rw [Option.head?_toList]
  exact h c' hgrows

theorem secure_live {Q : Goal (Option (Except StoreError (Option Record)))}
    (h : ∀ c', c.Grows c' → Q (some (.ok ((c'.newest key).bind Document.record?))) stored c') :
    (live key).Secure Q stored c :=
  .bind (secure_latest h)

theorem secure_latestLive {Q : Goal (Option (Except StoreError (List Document)))}
    {resource : Resource} {filter : Option Predicate}
    (h : ∀ c' matching, c.Grows c' → Q (some (.ok matching)) stored c') :
    (latestLive resource filter).Secure Q stored c :=
  .bind (Action.secure_find fun c' hgrows => h c' _ hgrows)

theorem secure_condition {Q : Goal (Option (Except StoreError (Option Predicate)))}
    {filter : Option Filter} (h : Q (some (compiled filter)) stored c) :
    (condition filter).Secure Q stored c := by
  rw [condition_eq]
  exact h

theorem secure_prepareWrite {Q : Goal (Option (Except StoreError Pending))} (author : Author)
    {value : Value} (hvalue : value.isNull = false)
    (h : ∀ c' p, c.Grows c' → p.Drawn c' → p.document.key = key →
      p.document.isTombstone = false → Q (some (.ok p)) stored c') :
    (prepareWrite author key value).Secure Q stored c := by
  rw [prepareWrite_eq]
  -- the version is drawn from the newest one, and the collection may grow since
  refine .bind (secure_latest fun c' hgrows => ?_)
  refine Action.Secure.bind (Action.secure_now fun c'' time hgrows' => ?_)
  exact h c'' _ (hgrows.trans hgrows') ((Pending.drawn_ofWrite author hvalue time).grows hgrows')
    rfl hvalue

theorem secure_prepareDelete {Q : Goal (Option (Except StoreError (Option Pending)))}
    (author : Author) (hnone : ∀ c', c.Grows c' → Q (some (.ok none)) stored c')
    (hsome : ∀ c' p r, c.Grows c' → p.Drawn c' → p.document.key = key →
      p.document.isTombstone = true → p.previous = some r → Q (some (.ok (some p))) stored c') :
    (prepareDelete author key).Secure Q stored c := by
  rw [prepareDelete_eq]
  -- what is found lives while it is looked up, and may be superseded afterwards
  refine .bind (secure_live fun c' hgrows => ?_)
  cases hr : (c'.newest key).bind Document.record? with
  -- there is nothing to delete, and nothing is stored
  | none => exact hnone c' hgrows
  | some r =>
    refine Action.Secure.bind (Action.secure_now fun c'' time hgrows' => ?_)
    have hdrawn := (Pending.drawn_ofDelete author hr time).grows hgrows'
    exact hsome c'' _ r (hgrows.trans hgrows') hdrawn rfl rfl rfl

theorem secure_recordConflicts {Q : Goal (Option (Except StoreError Unit))} (hc : c.Grows c)
    (outcomes : List (Except BackendError Unit))
    (h : ∀ c', c.Grows c' → Q (some (.ok ())) stored c') :
    (recordConflicts outcomes).Secure Q stored c := by
  induction outcomes generalizing c with
  -- each duplicate is counted, which adds nothing to the collection
  | nil => exact h c hc
  | cons outcome rest ih =>
    rcases outcome with e | _
    · cases e with
      | duplicateVersion _ _ =>
        refine .bind (Action.secure_record fun c' hgrows => ?_)
        exact ih hgrows.self fun c'' hgrows' => h c'' (hgrows.trans hgrows')
      | _ => exact ih hc h
    · exact ih hc h

end Store

/-! ### Operations on single keys -/

/-- Among others, the call keeps the collection well formed and achieves a goal. -/
def Call.Secure (Q : Goal (Except StoreError α)) (call : Call α) (stored : List Document)
    (c : Collection) : Prop :=
  call.steps.elementwise.Secure Q stored c

theorem secure_bounded {Q : Goal (Except StoreError α)} (hQ : Q.Stable) {operation : Operation}
    {a : Action α}
    (h : a.Secure (fun outcome => Q (outcome.getD (.error .deadlineExceeded))) stored c) :
    (bounded operation a).Secure Q stored c := by
  change (a.steps.bind fun outcome => .ask (.record _) fun _ => .ask (.record _) fun _ =>
    .done (outcome.getD (.error .deadlineExceeded))).elementwise.Secure Q stored c
  rw [Procedure.elementwise_bind, Procedure.secure_bind]
  refine Procedure.Secure.imp (fun outcome stored c houtcome => ?_) h
  -- what is left is to record the duration and the outcome
  refine Procedure.secure_ask (fun _ => rfl) fun c' _ hgrows _ => ?_
  refine Procedure.secure_ask (fun _ => rfl) fun c'' _ hgrows' _ => ?_
  exact hQ houtcome (hgrows.trans hgrows')

/-- A goal for whole calls as a goal for actions. -/
theorem Goal.Stable.getD {Q : Goal (Except StoreError α)} (hQ : Q.Stable) :
    Goal.Stable fun outcome : Option (Except StoreError α) =>
      Q (outcome.getD (.error .deadlineExceeded)) :=
  fun _ _ _ _ h hgrows => hQ h hgrows

namespace Store

/-- A live version that is stored answers its write. -/
theorem writeJustified_of_stored {p : Pending} (hp : p.Stored c) (hkey : p.document.key = key)
    (hlive : p.document.isTombstone = false) {precondition : Option Filter}
    (hmet : ∀ f, precondition = some f →
      ∃ q r, f.compile = .ok q ∧ p.previous = some r ∧ r.satisfies q = true) :
    WriteJustified key precondition p.written [p.document] c := by
  -- a version with a value has a record
  cases hr : p.document.record? with
  | none => simp [Document.record?, hlive] at hr
  | some r =>
    have hwritten : p.written = .ok ⟨r, p.previous⟩ := by rw [Pending.written, hr]
    rw [hwritten]
    exact ⟨p.document, rfl, hp.1, hkey, hr, hp.2, hmet⟩

/-- A tombstone that is stored answers its deletion. -/
theorem deleteJustified_of_stored {p : Pending} {r : Record} (hp : p.Stored c)
    (hkey : p.document.key = key) (htombstone : p.document.isTombstone = true)
    (hprevious : p.previous = some r) :
    DeleteJustified key (.ok p.previous) [p.document] c := by
  have hbelow := hp.2
  rw [hprevious] at hbelow ⊢
  exact ⟨p.document, rfl, hp.1, hkey, htombstone, hbelow.symm⟩

/-- What a precondition demands is what its predicate demands. -/
theorem compile_of_compiled {filter : Option Filter} {precondition : Option Predicate}
    (h : compiled filter = .ok precondition) {f : Filter} (hf : filter = some f) :
    ∃ q, f.compile = .ok q ∧ precondition = some q := by
  subst hf
  rw [compiled] at h
  cases hcompile : f.compile with
  | error e =>
    -- no predicate comes from a filter that does not compile
    rw [hcompile] at h
    cases h
  | ok q =>
    rw [hcompile] at h
    cases h
    exact ⟨q, rfl, rfl⟩

theorem secure_write (author : Author) (key : Key) (value : Value)
    (filter : Option Filter) :
    (write author key value filter).Secure (WriteJustified key filter) [] c := by
  rw [write_eq]
  refine secure_bounded (.stable _ _) (.bind ?_)
  change Action.next _ _ (some (checkWritable key value)) [] c
  -- a value that must not be written is refused before the monitor is taken
  cases hcheck : checkWritable key value with
  | error e => exact rfl
  | ok _ =>
    refine Action.Secure.bind (secure_condition ?_)
    cases hfilter : compiled filter with
    -- so is a filter that does not compile
    | error e => exact rfl
    | ok precondition =>
      refine Action.secure_holding (Goal.Stable.getD (.stable _ _)) (fun _ _ => rfl) ?_
      -- under the monitor others may still add to the collection
      intro c₁ hgrows₁
      refine .bind (secure_prepareWrite author (isNull_of_checkWritable hcheck) ?_)
      intro c₂ p hgrows₂ hdrawn hkey hlive
      refine Action.Secure.bind (Action.secure_commit hgrows₂.self hdrawn precondition ?_
        fun _ _ _ => rfl)
      -- the version is stored, and the record below meets the precondition
      intro c₃ hgrows₃ hstored hmet
      refine writeJustified_of_stored hstored hkey hlive fun f hf => ?_
      obtain ⟨q, hcompile, hq⟩ := compile_of_compiled hfilter hf
      obtain ⟨r, hr, hsatisfies⟩ := hmet q hq
      exact ⟨q, r, hcompile, hr, hsatisfies⟩

theorem secure_delete (author : Author) (key : Key) :
    (delete author key).Secure (DeleteJustified key) [] c := by
  -- what is recorded at the end stores nothing, and neither does a monitor that is denied
  refine secure_bounded (.stable _) ?_
  refine Action.secure_holding (Goal.Stable.getD (.stable _)) (fun _ _ => rfl) fun c₁ hgrows₁ => ?_
  refine .bind (secure_prepareDelete author (fun _ _ => rfl) ?_)
  intro c₂ p r hgrows₂ hdrawn hkey htombstone hprevious
  refine Action.Secure.bind (Action.secure_insert hdrawn ?_ fun _ _ _ => rfl)
  -- the tombstone is stored above the record that is reported
  intro c₃ hgrows₃ hstored
  exact deleteJustified_of_stored hstored hkey htombstone hprevious

end Store

/-! ### Bulk operations -/

/-- The pending version of an element, if there is one. -/
def Prepared.pending? : Prepared α → Option Pending
  | .answered _ => none
  | .pending p => some p

theorem documents_eq_map (prepared : List (Key × Prepared α)) :
    prepared.filterMap (·.2.document?) =
      (prepared.filterMap (·.2.pending?)).map Pending.document := by
  rw [List.map_filterMap]
  refine List.filterMap_congr fun element _ => ?_
  obtain ⟨key, _ | p⟩ := element <;> rfl

/-- A prepared element that is ready to be committed: what is pending is drawn from the collection,
and once it is stored or refused its answer is justified. -/
def Ready (element : Key → Goal (Except StoreError α)) (finish : Pending → Except StoreError α)
    (c : Collection) : Key × Prepared α → Prop
  | (key, .answered answer) => ∀ c', c.Grows c' → element key answer [] c'
  | (key, .pending p) => p.Drawn c ∧
      ∀ c', c.Grows c' → (p.Stored c' → element key (finish p) [p.document] c') ∧
        ∀ e, element key (.error e) [] c'

namespace Store

variable {element : Key → Goal (Except StoreError α)} {finish : Pending → Except StoreError α}
  {prepared : List (Key × Prepared α)}

theorem ready_grows {x : Key × Prepared α} (h : Ready element finish c x) (hgrows : c.Grows c') :
    Ready element finish c' x := by
  obtain ⟨key, answer | p⟩ := x
  · exact fun c'' hgrows' => h c'' (hgrows.trans hgrows')
  · exact ⟨h.1.grows hgrows, fun c'' hgrows' => h.2 c'' (hgrows.trans hgrows')⟩

theorem drawn_of_ready (h : ∀ x ∈ prepared, Ready element finish c x) :
    ∀ p ∈ prepared.filterMap (·.2.pending?), p.Drawn c := by
  intro p hp
  obtain ⟨⟨key, answer | q⟩, hx, hq⟩ := List.mem_filterMap.1 hp
  · cases hq
  · cases hq
    exact (h _ hx).1

theorem map_fst_settle (prepared : List (Key × Prepared α))
    (outcomes : List (Except BackendError Unit)) :
    (settle finish prepared outcomes).map Prod.fst = prepared.map Prod.fst := by
  induction prepared generalizing outcomes with
  | nil => rfl
  | cons x rest ih =>
    -- an element that was answered before keeps its key
    obtain ⟨key, answer | p⟩ := x
    · rw [settle, List.map_cons, List.map_cons, ih]
    · -- a pending one keeps it as well, whatever became of it
      rcases outcomes with _ | ⟨e | _, outcomes⟩ <;>
        rw [settle, List.map_cons, List.map_cons, ih]

/-- **The answers are dealt out to the elements that they belong to.** -/
theorem justified_settle (hc : c.Grows c') (hready : ∀ x ∈ prepared, Ready element finish c x)
    {outcomes : List (Except BackendError Unit)} {added : List Document}
    (h : Inserted c' (prepared.filterMap (·.2.pending?)) outcomes added) :
    ∃ parts, added = parts.flatten ∧ List.Forall₂ (fun answer part =>
      element answer.1 answer.2 part c') (settle finish prepared outcomes) parts := by
  induction prepared generalizing outcomes added with
  | nil =>
    cases h
    exact ⟨[], rfl, .nil⟩
  | cons x rest ih =>
    obtain ⟨hx, hrest⟩ := List.forall_mem_cons.1 hready
    obtain ⟨key, answer | p⟩ := x
    -- an element that was answered before takes none of the outcomes
    · obtain ⟨parts, rfl, hparts⟩ := ih hrest h
      exact ⟨[] :: parts, rfl, .cons (hx c' hc) hparts⟩
    -- a pending one takes the first outcome, and the version if that was stored
    · change Inserted c' (p :: rest.filterMap (·.2.pending?)) outcomes added at h
      cases h with
      | stored hp h =>
        obtain ⟨parts, rfl, hparts⟩ := ih hrest h
        exact ⟨[p.document] :: parts, rfl, .cons ((hx.2 c' hc).1 hp) hparts⟩
      | refused e h =>
        obtain ⟨parts, rfl, hparts⟩ := ih hrest h
        exact ⟨[] :: parts, rfl, .cons ((hx.2 c' hc).2 _) hparts⟩

/-- A commit of elements that are ready justifies the answers. -/
theorem secure_commitAll {keys : List Key} (hc : c.Grows c)
    (helement : ∀ key, (element key).Stable) (hkeys : prepared.map Prod.fst = keys)
    (hready : ∀ x ∈ prepared, Ready element finish c x) :
    (commitAll finish prepared).Secure (fun outcome =>
      BulkJustified keys element (outcome.getD (.error .deadlineExceeded))) [] c := by
  rw [commitAll, documents_eq_map]
  refine .bind (Action.secure_insertAll hc (drawn_of_ready hready) ?_)
  -- everything that is pending is added, in any state that others have left
  intro c₁ outcomes added hgrows₁ hinserted
  refine Action.Secure.bind (secure_recordConflicts hgrows₁.self _ fun c₂ hgrows₂ => ?_)
  -- the answers are justified right after the addition, and remain so
  have hjustified : BulkJustified keys element (.ok (settle finish prepared outcomes)) added c₁ :=
    ⟨(map_fst_settle _ _).trans hkeys, justified_settle hgrows₁ hready hinserted⟩
  exact BulkJustified.stable helement hjustified hgrows₂

/-- For a goal it is enough that elements for some keys are prepared and ready. -/
def ReadySuffices (element : Key → Goal (Except StoreError α))
    (finish : Pending → Except StoreError α) (keys : List Key)
    (Q : Goal (Option (Except StoreError (List (Key × Prepared α))))) (stored : List Document)
    (c : Collection) : Prop :=
  ∀ c' prepared, c.Grows c' → prepared.map Prod.fst = keys →
    (∀ x ∈ prepared, Ready element finish c' x) → Q (some (.ok prepared)) stored c'

/-- With the first element ready, the others are enough. -/
theorem ReadySuffices.cons {Q : Goal (Option (Except StoreError (List (Key × Prepared α))))}
    {keys : List Key} {x : Prepared α} (h : ReadySuffices element finish (key :: keys) Q stored c)
    (hgrows : c.Grows c') (hx : Ready element finish c' (key, x)) :
    ReadySuffices element finish keys (Action.next Q fun prepared => pure ((key, x) :: prepared))
      stored c' := by
  intro c'' prepared hgrows' hkeys hready
  refine h c'' ((key, x) :: prepared) (hgrows.trans hgrows') (congrArg (key :: ·) hkeys) ?_
  exact List.forall_mem_cons.2 ⟨ready_grows hx hgrows', hready⟩

/-- **A batch** justifies its answers if what it prepares is ready. -/
theorem secure_batch {empty : Bool} {e : StoreError} {m : Measurement} {operation : Operation}
    {locked keys : List Key} {prepare : Action (List (Key × Prepared α))}
    (helement : ∀ key, (element key).Stable)
    (hprepare : ∀ c' Q, c'.Grows c' → ReadySuffices element finish keys Q [] c' →
      prepare.Secure Q [] c') :
    (do if empty then throw e
        Call.record m
        bounded operation (Action.holdingAll locked do commitAll finish (← prepare)) :
        Call (Answers α)).Secure (BulkJustified keys element) [] c := by
  have hstable : (BulkJustified keys element).Stable := BulkJustified.stable helement
  cases empty with
  -- an empty batch asks for nothing
  | true => exact rfl
  | false =>
    refine Procedure.secure_ask (fun _ => rfl) fun c₁ _ hgrows₁ _ => ?_
    refine secure_bounded hstable ?_
    -- the monitors are taken, and what is done under them is secure in any collection since
    refine Action.secure_holdingAll hstable.getD hgrows₁.self (fun _ _ => rfl) fun c₂ hgrows₂ => ?_
    refine .bind (hprepare c₂ _ hgrows₂.self fun c₃ prepared hgrows₃ hkeys hready => ?_)
    exact secure_commitAll hgrows₃.self helement hkeys hready

theorem secure_prepareWrites {Q : Goal (Option (Except StoreError (List (Key × Prepared Written))))}
    (hc : c.Grows c) (author : Author) (elements : List (Key × Value))
    (h : ReadySuffices (fun key => WriteJustified key none) Pending.written
      (elements.map Prod.fst) Q stored c) :
    (prepareWrites author elements).Secure Q stored c := by
  induction elements generalizing Q c with
  | nil => exact h c [] hc rfl (by simp)
  | cons element rest ih =>
    obtain ⟨key, value⟩ := element
    -- checking and drawing are one step, whose error answers the element
    rw [prepareWrites]
    refine .bind (Action.secure_attempt (.bind ?_))
    change Action.next _ _ (some (checkWritable key value)) stored c
    cases hcheck : checkWritable key value with
    -- an element that must not be written is answered and stores nothing
    | error e => exact Action.Secure.bind (ih hc (h.cons hc fun _ _ => rfl))
    | ok _ =>
      refine Action.Secure.bind (secure_prepareWrite author (isNull_of_checkWritable hcheck) ?_)
      intro c₁ p hgrows₁ hdrawn hkey hlive
      refine Action.Secure.bind (ih hgrows₁.self (h.cons hgrows₁ ⟨hdrawn, fun c₂ _ => ⟨?_, ?_⟩⟩))
      · -- the answer is the version that was stored
        exact fun hstored => writeJustified_of_stored hstored hkey hlive (by simp)
      · -- or an error
        exact fun _ => rfl

theorem secure_bulkWrite (author : Author) (values : Entries Key Value) :
    (bulkWrite author values).Secure
      (BulkJustified values.keys fun key => WriteJustified key none) [] c := by
  rw [bulkWrite]
  exact secure_batch (fun key => WriteJustified.stable key none)
    fun _ _ hc h => secure_prepareWrites hc author _ h

theorem secure_prepareDeletion
    {Q : Goal (Option (Except StoreError (Prepared (Option Record))))} (hc : c.Grows c)
    (author : Author) (seen : List Key)
    (h : ∀ c' x, c.Grows c' → Ready DeleteJustified (fun p => .ok p.previous) c' (key, x) →
      Q (some (.ok x)) stored c') :
    (prepareDeletion author seen key).Secure Q stored c := by
  rw [prepareDeletion]
  split
  · -- a key that came before answers none
    exact h c (.answered (.ok none)) hc fun _ _ => rfl
  · -- any other is looked up as by a single deletion
    refine .bind (Action.secure_attempt (.bind (secure_prepareDelete author ?_ ?_)))
    · exact fun c₁ hgrows₁ => h c₁ (.answered (.ok none)) hgrows₁ fun _ _ => rfl
    · intro c₁ p r hgrows₁ hdrawn hkey htombstone hprevious
      refine h c₁ (.pending p) hgrows₁ ⟨hdrawn, fun c₂ _ => ⟨fun hstored => ?_, fun _ => rfl⟩⟩
      exact deleteJustified_of_stored hstored hkey htombstone hprevious

theorem secure_prepareDeletes
    {Q : Goal (Option (Except StoreError (List (Key × Prepared (Option Record)))))}
    (hc : c.Grows c) (author : Author) (seen keys : List Key)
    (h : ReadySuffices DeleteJustified (fun p => .ok p.previous) keys Q stored c) :
    (prepareDeletes author seen keys).Secure Q stored c := by
  induction keys generalizing Q c seen with
  | nil => exact h c [] hc rfl (by simp)
  | cons key rest ih =>
    rw [prepareDeletes_cons]
    -- each key is ready where it was prepared, and so in what the collection has grown to
    refine .bind (secure_prepareDeletion hc author seen fun c₁ x hgrows₁ hx => ?_)
    exact Action.Secure.bind (ih hgrows₁.self (key :: seen) (h.cons hgrows₁ hx))

theorem secure_bulkDelete (author : Author) (keys : List Key) :
    (bulkDelete author keys).Secure (BulkJustified keys DeleteJustified) [] c := by
  rw [bulkDelete]
  exact secure_batch DeleteJustified.stable
    fun _ _ hc h => secure_prepareDeletes hc author [] keys h

/-! ### Reading -/

/-- To store nothing. -/
def storesNothing (α : Type) : Goal α :=
  fun _ stored _ => stored = []

theorem secure_read (key : Key) : (read key).Secure (storesNothing _) [] c :=
  secure_bounded (fun _ _ _ _ h _ => h) (secure_live fun _ _ => rfl)

theorem secure_readAll (hc : c.Grows c) (records : Entries Key Record) (keys : List Key) :
    (readAll records keys).Secure (storesNothing _) [] c := by
  induction keys generalizing c records with
  | nil => exact rfl
  | cons key rest ih =>
    refine .bind (secure_live fun c₁ hgrows₁ => ?_)
    cases (c₁.newest key).bind Document.record? with
    | none => exact ih hgrows₁.self records
    | some r => exact ih hgrows₁.self (records.put key r)

theorem secure_readMany (hc : c.Grows c) (keys : List Key) :
    (readMany keys).Secure (storesNothing _) [] c :=
  secure_bounded (fun _ _ _ _ h _ => h) (secure_readAll hc .empty keys)

theorem secure_query (resource : Resource) (options : QueryOptions) :
    (query resource options).Secure (storesNothing _) [] c := by
  refine secure_bounded (fun _ _ _ _ h _ => h) (.bind (secure_condition ?_))
  cases compiled options.filter with
  | error e => exact rfl
  | ok filter =>
    -- no request of a query adds anything
    have hfind (bounds : Nat × Option Nat) :
        (do
          let matching ← latestLive resource filter
          Action.record (.queryResults matching.length)
          return ⟨page options bounds matching, matching.length⟩ :
          Action QueryResult).Secure
        (fun outcome => storesNothing _ (outcome.getD (.error .deadlineExceeded))) [] c :=
      .bind (secure_latestLive fun _ _ _ =>
        Action.Secure.bind (Action.secure_record fun _ _ => rfl))
    change Action.Secure _ _ [] c
    cases hpage : options.page with
    | none => exact hfind _
    | some page =>
      refine .bind ?_
      change Action.next _ _ (some page.bounds) [] c
      cases page.bounds with
      -- bounds that do not exist are an error, and nothing is stored either
      | error e => exact rfl
      | ok bounds => exact hfind bounds

theorem secure_count (resource : Resource) (filter : Option Filter) :
    (count resource filter).Secure (storesNothing _) [] c := by
  refine secure_bounded (fun _ _ _ _ h _ => h) (.bind (secure_condition ?_))
  cases compiled filter with
  | error e => exact rfl
  | ok filter => exact Action.Secure.bind (secure_latestLive fun _ _ _ => rfl)

end Store

/-- **Every call is secure among others.** -/
theorem StoreCall.secure_started (hc : c.Grows c) (call : StoreCall) :
    call.started.Secure StoreCall.Justified c := by
  cases call with
  | write author key value filter => exact Store.secure_write author key value filter
  | delete author key => exact Store.secure_delete author key
  | bulkWrite author values => exact Store.secure_bulkWrite author values
  | bulkDelete author keys => exact Store.secure_bulkDelete author keys
  | read key => exact Store.secure_read key
  | readMany keys => exact Store.secure_readMany hc keys
  | query resource options => exact Store.secure_query resource options
  | count resource filter => exact Store.secure_count resource filter

end ConfigLedger
