import ConfigLedger.Proofs.Store.Secure

/-!
# Rules for actions among others

What has to be shown of the combinators of actions and of the requests that they make, for the
action to be secure. A version may be added if it was drawn from one that was found
(`Pending.Drawn`): either its number is taken meanwhile, or it is stored right above that version
(`Pending.Stored`). Both facts last while the collection grows, so they may be used at any later
time.
-/

namespace ConfigLedger

variable {α β : Type} {c c' : Collection} {stored : List Document} {key : Key} {p : Pending}

/-! ### Pending versions -/

namespace Pending

/-- The version was computed from a version of its key, or from the lack of one. -/
def Drawn (c : Collection) (p : Pending) : Prop :=
  ∃ found, (∀ e, found = some e → e ∈ c.documents ∧ e.key = p.document.key) ∧
    p.document.version = nextVersion found ∧ p.document.Succeeds found ∧
    p.previous = found.bind Document.record?

/-- The version is stored, and what it superseded is the live version directly below it. -/
def Stored (c : Collection) (p : Pending) : Prop :=
  p.document ∈ c.documents ∧ p.previous = (c.below p.document).bind Document.record?

theorem Drawn.grows (h : p.Drawn c) (hgrows : c.Grows c') : p.Drawn c' := by
  obtain ⟨found, hfound, hrest⟩ := h
  exact ⟨found, fun e he => ⟨hgrows.subset (hfound e he).1, (hfound e he).2⟩, hrest⟩

theorem Stored.grows (h : p.Stored c) (hgrows : c.Grows c') : p.Stored c' := by
  obtain ⟨hmem, hprevious⟩ := h
  refine ⟨hgrows.subset hmem, ?_⟩
  rw [hprevious, hgrows.below hmem]

theorem found_newest {e : Document} (he : c.newest key = some e) : e ∈ c.documents ∧ e.key = key :=
  Collection.mem_documents_of_newest he

theorem drawn_ofWrite (author : Author) {value : Value} (hvalue : value.isNull = false)
    (now : UInt64) : (ofWrite author key value (c.newest key) now).Drawn c := by
  refine ⟨c.newest key, fun e he => found_newest he, rfl, ⟨fun htombstone => ?_, fun _ => rfl⟩, rfl⟩
  rw [Document.isTombstone, ofWrite, hvalue] at htombstone
  cases htombstone

theorem drawn_ofDelete (author : Author) {r : Record}
    (hr : (c.newest key).bind Document.record? = some r) (now : UInt64) :
    (ofDelete author key r now).Drawn c := by
  refine ⟨c.newest key, fun e he => found_newest he, version_ofDelete hr author key now,
    ⟨fun _ => ?_, fun hlive => ?_⟩, hr.symm⟩
  · obtain ⟨e, he, hrecord⟩ := Option.bind_eq_some_iff.1 hr
    obtain ⟨hvalue, rfl⟩ := Document.record?_eq_some_iff.1 hrecord
    exact ⟨_, he, hvalue, rfl⟩
  · cases hlive

/-- **What is drawn from an outdated version is refused**, and what is added is stored right above
the version that it was drawn from. -/
theorem Drawn.insert? (h : p.Drawn c) (hc : c.WellFormed) (hfew : c.Few)
    (hinsert : c.insert? p.document = some c') : c'.WellFormed ∧ p.Stored c' := by
  obtain ⟨found, hfound, hversion, hsucceeds, hprevious⟩ := h
  -- its number is free only if what was found is still the newest version
  obtain ⟨hwell, hbelow⟩ := hc.insert? (hfew _) hfound hversion hsucceeds hinsert
  refine ⟨hwell, (Collection.mem_of_insert?_eq_some hinsert).2 (.inl rfl), ?_⟩
  rw [hprevious, hbelow]

/-- A collection that others worked on grows further by what was drawn before. -/
theorem Drawn.grows_insert? (h : p.Drawn c) (hgrows : c.Grows c')
    (hinsert : c'.insert? p.document = some c'') (hfew : c''.Few) :
    c.Grows c'' ∧ p.Stored c'' := by
  obtain ⟨hwell, hstored⟩ := (h.grows hgrows).insert? hgrows.after hgrows.few hinsert
  have hsub := List.Subset.trans hgrows.subset (Collection.subset_insert? hinsert)
  exact ⟨⟨hgrows.before, hwell, hfew, hsub⟩, hstored⟩

end Pending

/-! ### Actions -/

namespace Action

/-- Among others, the action keeps the collection well formed and achieves a goal. -/
def Secure (Q : Goal (Option (Except StoreError α))) (a : Action α) (stored : List Document)
    (c : Collection) : Prop :=
  a.steps.elementwise.Secure Q stored c

/-- To go on with another action. -/
def next (Q : Goal (Option (Except StoreError β))) (f : α → Action β) :
    Goal (Option (Except StoreError α))
  | some (.ok a) => (f a).Secure Q
  | some (.error e) => Q (some (.error e))
  | none => Q none

variable {Q : Goal (Option (Except StoreError α))}

theorem Secure.bind {Q : Goal (Option (Except StoreError β))} {a : Action α} {f : α → Action β}
    (h : a.Secure (next Q f) stored c) : (a >>= f).Secure Q stored c := by
  rw [Secure, steps_bind, Procedure.elementwise_bind, Procedure.secure_bind]
  refine Procedure.Secure.imp (fun outcome stored c h => ?_) h
  rcases outcome with _ | (e | a) <;> exact h

theorem secure_attempt {Q : Goal (Option (Except StoreError (Except StoreError α)))} {a : Action α}
    (h : a.Secure (fun outcome => Q (outcome.map .ok)) stored c) : a.attempt.Secure Q stored c := by
  change ((a.steps.bind fun outcome => .done (outcome.map .ok)).elementwise).Secure Q stored c
  rw [Procedure.elementwise_bind, Procedure.secure_bind]
  exact h

theorem secure_find {Q : Goal (Option (Except StoreError (List Document)))} {q : Query}
    (h : ∀ c', c.Grows c' → Q (some (.ok (c'.find q))) stored c') :
    (find q).Secure Q stored c := by
  refine Procedure.secure_ask (fun _ => rfl) fun c' answer hgrows hserved => ?_
  obtain ⟨rfl, -⟩ := Collection.served_find hserved
  exact h c' hgrows

theorem secure_now {Q : Goal (Option (Except StoreError UInt64))}
    (h : ∀ c' time, c.Grows c' → Q (some (.ok time)) stored c') : now.Secure Q stored c :=
  Procedure.secure_ask (fun _ => rfl) fun c' time hgrows _ => h c' time hgrows

theorem secure_record {Q : Goal (Option (Except StoreError Unit))} {m : Measurement}
    (h : ∀ c', c.Grows c' → Q (some (.ok ())) stored c') : (record m).Secure Q stored c :=
  Procedure.secure_ask (fun _ => rfl) fun c' _ hgrows _ => h c' hgrows

/-- Holding a monitor protects from nothing, and it may be denied. -/
theorem secure_holding (hQ : Q.Stable) {a : Action α}
    (hdenied : ∀ c', c.Grows c' → Q none stored c')
    (h : ∀ c', c.Grows c' → a.Secure Q stored c') : (holding key a).Secure Q stored c := by
  refine Procedure.secure_ask (fun s => serve_lockKey_medium s key) fun c' granted hgrows _ => ?_
  -- a monitor that is denied ends the call before anything is done
  cases (granted : Bool) with
  | false => exact hdenied c' hgrows
  | true =>
    -- what is done with the monitor is the action, and one more request after it
    change ((a.steps.bind fun outcome =>
      .ask (.unlockKey key) fun _ => .done outcome).elementwise).Secure Q stored c'
    rw [Procedure.elementwise_bind, Procedure.secure_bind]
    -- giving the monitor back takes another step, which the goal survives
    refine Procedure.Secure.imp (fun outcome stored c houtcome => ?_) (h c' hgrows)
    refine Procedure.secure_ask (fun _ => rfl) fun c'' _ hgrows' _ => ?_
    exact hQ houtcome hgrows'

theorem secure_holdingAll (hQ : Q.Stable) {keys : List Key} {a : Action α} (hc : c.Grows c)
    (hdenied : ∀ c', c.Grows c' → Q none stored c')
    (h : ∀ c', c.Grows c' → a.Secure Q stored c') : (holdingAll keys a).Secure Q stored c := by
  induction keys generalizing c with
  | nil => exact h c hc
  | cons key keys ih =>
    refine secure_holding hQ hdenied fun c' hgrows => ?_
    exact ih hgrows.self (fun c'' hgrows' => hdenied c'' (hgrows.trans hgrows'))
      fun c'' hgrows' => h c'' (hgrows.trans hgrows')

end Action

/-! ### Additions -/

/-- **An addition among others.** The version is stored, or its number is taken. -/
theorem Procedure.secure_insert {Q : Goal α} {next : Reply Unit → Procedure α} (hp : p.Drawn c)
    (hstored : ∀ c', c.Grows c' → p.Stored c' →
      (next (some (.ok ()))).Secure Q (stored ++ [p.document]) c')
    (hrefused : ∀ c', c.Grows c' →
      (next (some (.error (Memory.duplicate p.document)))).Secure Q stored c') :
    (ask (.insert p.document) next).Secure Q stored c := by
  intro c₁ answer c₂ hgrows hserved hfew
  -- between the two steps others may have added to the collection, up to `c₁`
  obtain ⟨rfl, rfl⟩ := Collection.served_insert hserved
  cases hinsert : c₁.insert? p.document with
  | none =>
    -- the number is taken, and nothing is added
    have hsame : Memory.insert c₁ p.document = (.error (Memory.duplicate p.document), c₁) := by
      rw [Memory.insert, hinsert]
    rw [hsame, Collection.added_self, List.append_nil]
    exact ⟨hgrows.after, hrefused c₁ hgrows⟩
  | some c₂ =>
    -- others may have come first, but then the number would not be free
    have hadded : Memory.insert c₁ p.document = (.ok (), c₂) := by
      rw [Memory.insert, hinsert]
    rw [hadded] at hfew
    rw [hadded, Collection.added_of_insert? hinsert]
    obtain ⟨hgrows₂, hstored₂⟩ := hp.grows_insert? hgrows hinsert hfew
    exact ⟨hgrows₂.after, hstored c₂ hgrows₂ hstored₂⟩

/-- What a condition that is pinned to a pending version demands of what it supersedes. -/
theorem Pending.Drawn.satisfies_of_insertIf? (hp : p.Drawn c) (hc : c.WellFormed) (hfew : c.Few)
    {r : Record} (hr : p.previous = some r) {precondition : Predicate}
    (hinsert : c.insertIf? p.document (p.condition precondition) = some c') :
    r.satisfies precondition = true := by
  -- the version was drawn from one that was found, which is the one it supersedes
  obtain ⟨found, hfound, hversion, -, hprevious⟩ := hp
  rw [hr] at hprevious
  obtain ⟨e, rfl, hrecord⟩ := Option.bind_eq_some_iff.1 hprevious.symm
  obtain ⟨-, rfl⟩ := Document.record?_eq_some_iff.1 hrecord
  obtain ⟨hmem, hkey⟩ := hfound _ rfl
  have hnext : p.document.version = r.document.version + 1 := hversion
  obtain ⟨hone, -⟩ := Collection.insertIf?_eq_some _ hinsert
  -- the one document that satisfies the condition is the version that was found
  have hexact := (hc.numbered.exact hfew).exactAt p.document.key
  exact (length_filter_condition hexact hmem hkey hnext).1 hone

namespace Action

variable {Q : Goal (Option (Except StoreError Unit))}

theorem secure_insert (hp : p.Drawn c)
    (hstored : ∀ c', c.Grows c' → p.Stored c' → Q (some (.ok ())) (stored ++ [p.document]) c')
    (hrefused : ∀ c' e, c.Grows c' → Q (some (.error e)) stored c') :
    (insert p.document).Secure Q stored c :=
  Procedure.secure_insert hp hstored fun c' hgrows => hrefused c' _ hgrows

/-- A conditional addition among others. If the version is stored, then what it superseded meets the
precondition. -/
theorem secure_insertIf {Q : Goal (Option (Except StoreError Bool))} (hp : p.Drawn c) {r : Record}
    (hr : p.previous = some r) (precondition : Predicate)
    (hstored : ∀ c', c.Grows c' → p.Stored c' → r.satisfies precondition = true →
      Q (some (.ok true)) (stored ++ [p.document]) c')
    (hrefused : ∀ c', c.Grows c' → Q (some (.ok false)) stored c') :
    (insertIf p.document (p.condition precondition)).Secure Q stored c := by
  intro c₁ answer c₂ hgrows hserved hfew
  obtain ⟨rfl, rfl⟩ := Collection.served_insertIf hserved
  cases hinsert : c₁.insertIf? p.document (p.condition precondition) with
  -- the condition is not met, or the number is taken
  | none =>
    have hsame : Memory.insertIf c₁ p.document (p.condition precondition) = (false, c₁) := by
      rw [Memory.insertIf, hinsert]
    rw [hsame, Collection.added_self, List.append_nil]
    exact ⟨hgrows.after, hrefused c₁ hgrows⟩
  | some c₂ =>
    have hadded : Memory.insertIf c₁ p.document (p.condition precondition) = (true, c₂) := by
      rw [Memory.insertIf, hinsert]
    -- an addition that is made is made as if there were no condition
    have hplain := (Collection.insertIf?_eq_some _ hinsert).2
    rw [hadded] at hfew
    rw [hadded, Collection.added_of_insert? hplain]
    obtain ⟨hgrows₂, hstored₂⟩ := hp.grows_insert? hgrows hplain hfew
    have hmet := (hp.grows hgrows).satisfies_of_insertIf? hgrows.after hgrows.few hr hinsert
    exact ⟨hgrows₂.after, hstored c₂ hgrows₂ hstored₂ hmet⟩

/-- A commit among others. -/
theorem secure_commit (hc : c.Grows c) (hp : p.Drawn c) (precondition : Option Predicate)
    (hstored : ∀ c', c.Grows c' → p.Stored c' →
      (∀ q, precondition = some q → ∃ r, p.previous = some r ∧ r.satisfies q = true) →
      Q (some (.ok ())) (stored ++ [p.document]) c')
    (hrefused : ∀ c' e, c.Grows c' → Q (some (.error e)) stored c') :
    (Store.commit p precondition).Secure Q stored c := by
  cases precondition with
  -- without a precondition the addition is a plain one
  | none => exact secure_insert hp (fun c' hgrows h => hstored c' hgrows h (by simp)) hrefused
  | some q =>
    -- whatever keeps the version from being stored is answered as a conflict
    have hconflict (c' : Collection) (hgrows : c.Grows c') :
        (do
          Action.record .writeConflict
          throw (.conflict ("precondition failed for " ++ p.document.key.label)) :
          Action Unit).Secure Q stored c' :=
      .bind (secure_record fun c'' hgrows' => hrefused c'' _ (hgrows.trans hgrows'))
    rw [Store.commit, Store.commitConditional]
    -- a key that does not live meets no precondition, and nothing is tried
    cases hr : p.previous with
    | none => exact hconflict c hc
    | some r =>
      -- a version that is stored was met by the record below it, which is the one reported
      refine .bind (secure_insertIf hp hr q (fun c' hgrows h hmet => ?_) hconflict)
      refine hstored c' hgrows h fun q' hq' => ⟨r, hr, ?_⟩
      rw [← Option.some.inj hq']
      exact hmet

end Action

/-! ### Bulk additions -/

/-- How the pending versions of a bulk addition fare: what each is answered, and which of them are
stored. -/
inductive Inserted (c : Collection) :
    List Pending → List (Except BackendError Unit) → List Document → Prop where
  | nil : Inserted c [] [] []
  | stored {p ps outcomes added} (hp : p.Stored c) (h : Inserted c ps outcomes added) :
      Inserted c (p :: ps) (.ok () :: outcomes) (p.document :: added)
  | refused {p ps outcomes added} (e : BackendError) (h : Inserted c ps outcomes added) :
      Inserted c (p :: ps) (.error e :: outcomes) added

theorem Procedure.secure_insertEach {Q : Goal (Reply (List (Except BackendError Unit)))}
    {ps : List Pending} (hc : c.Grows c) (hps : ∀ p ∈ ps, p.Drawn c)
    (h : ∀ c' outcomes added, c.Grows c' → Inserted c' ps outcomes added →
      Q (some (.ok outcomes)) (stored ++ added) c') :
    (insertEach (ps.map Pending.document)).Secure Q stored c := by
  induction ps generalizing Q stored c with
  | nil =>
    have hnil := h c [] [] hc .nil
    rw [List.append_nil] at hnil
    exact hnil
  | cons p ps ih =>
    obtain ⟨hp, hps⟩ := List.forall_mem_cons.1 hps
    refine secure_insert hp (fun c' hgrows hstored => ?_) fun c' hgrows => ?_
    -- what was drawn at the start may be added later, whatever happened to the first one
    · refine secure_bind.2 (ih hgrows.self (fun p hp => (hps p hp).grows hgrows) ?_)
      intro c'' outcomes added hgrows' hinserted
      rw [List.append_assoc]
      exact h c'' _ _ (hgrows.trans hgrows') (.stored (hstored.grows hgrows') hinserted)
    · refine secure_bind.2 (ih hgrows.self (fun p hp => (hps p hp).grows hgrows) ?_)
      intro c'' outcomes added hgrows' hinserted
      exact h c'' _ _ (hgrows.trans hgrows') (.refused _ hinserted)

theorem Action.secure_insertAll
    {Q : Goal (Option (Except StoreError (List (Except BackendError Unit))))}
    {ps : List Pending} (hc : c.Grows c) (hps : ∀ p ∈ ps, p.Drawn c)
    (h : ∀ c' outcomes added, c.Grows c' → Inserted c' ps outcomes added →
      Q (some (.ok outcomes)) (stored ++ added) c') :
    (insertAll (ps.map Pending.document)).Secure Q stored c := by
  change (((Procedure.insertEach (ps.map Pending.document)).bind fun answer =>
    (Procedure.done (answer.map (Except.mapError StoreError.ofBackend))).elementwise)).Secure
      Q stored c
  rw [Procedure.secure_bind]
  exact Procedure.secure_insertEach hc hps h

end ConfigLedger
