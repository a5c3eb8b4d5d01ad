import ConfigLedger.Proofs.Store.Guarded

/-!
# Rules for actions under monitors

What has to be shown of the combinators of actions and of the requests that they make, for the
action to be guarded. A version may be added if it is the next one of a key whose monitor is held
(`Pending.Next`). It remains the next one while others act, as nobody else adds to the key, so it is
free when it is added, and a condition that is pinned to it is decided by the version that it was
computed from.
-/

namespace ConfigLedger

variable {α β : Type} {c c' : Collection} {held : List Key} {log : List Sighting} {key : Key}
  {p : Pending}

/-! ### Pending versions -/

namespace Pending

/-- The version is the next one of a key whose monitor is held. -/
structure Next (held : List Key) (c : Collection) (p : Pending) : Prop where
  held : p.document.key ∈ held
  version : p.document.version = nextVersion (c.newest p.document.key)
  previous : p.previous = (c.newest p.document.key).bind Document.record?

theorem next_ofWrite (hkey : key ∈ held) (author : Author) (value : Value) (now : UInt64) :
    (ofWrite author key value (c.newest key) now).Next held c :=
  ⟨hkey, rfl, rfl⟩

theorem next_ofDelete (hkey : key ∈ held) {r : Record}
    (hr : (c.newest key).bind Document.record? = some r) (author : Author) (now : UInt64) :
    (ofDelete author key r now).Next held c :=
  ⟨hkey, version_ofDelete hr author key now, hr.symm⟩

theorem Next.of_newest (h : p.Next held c)
    (hnewest : c'.newest p.document.key = c.newest p.document.key) : p.Next held c' :=
  ⟨h.held, by rw [hnewest, h.version], by rw [hnewest, h.previous]⟩

theorem Next.kept (h : p.Next held c) (hkept : c.Kept held c') : p.Next held c' :=
  h.of_newest (hkept.newest h.held)

/-- An addition to another key makes no difference. -/
theorem Next.insert? {d : Document} (h : p.Next held c) (hinsert : c.insert? d = some c')
    (hne : d.key ≠ p.document.key) : p.Next held c' := by
  refine h.of_newest ?_
  rw [Collection.newest, Collection.newest, Collection.history_of_insert?_of_ne hinsert hne]

/-- When the version is added, keys that are not held keep their histories. -/
theorem Next.history_insert? (h : p.Next held c) (hinsert : c.insert? p.document = some c') :
    ∀ key ∉ held, c'.history key = c.history key := by
  intro key hkey
  refine Collection.history_of_insert?_of_ne hinsert fun heq => hkey ?_
  rw [← heq]
  exact h.held

end Pending

/-! ### Actions -/

namespace Action

/-- Among others, the action guards the keys whose monitors it holds and achieves an aim. -/
def Guarded (Q : Aim (Option (Except StoreError α))) (a : Action α) (held : List Key)
    (log : List Sighting) (c : Collection) : Prop :=
  a.steps.elementwise.Guarded Q held log c

/-- To go on with another action. -/
def proceed (Q : Aim (Option (Except StoreError β))) (f : α → Action β) :
    Aim (Option (Except StoreError α))
  | some (.ok a) => (f a).Guarded Q
  | some (.error e) => Q (some (.error e))
  | none => Q none

variable {Q : Aim (Option (Except StoreError α))}

theorem Guarded.bind {Q : Aim (Option (Except StoreError β))} {a : Action α} {f : α → Action β}
    (h : a.Guarded (proceed Q f) held log c) : (a >>= f).Guarded Q held log c := by
  rw [Guarded, steps_bind, Procedure.elementwise_bind, Procedure.guarded_bind]
  refine Procedure.Guarded.imp ?_ h
  intro outcome held log c h
  rcases outcome with _ | (e | a) <;> exact h

theorem guarded_attempt {Q : Aim (Option (Except StoreError (Except StoreError α)))} {a : Action α}
    (h : a.Guarded (fun outcome => Q (outcome.map .ok)) held log c) :
    a.attempt.Guarded Q held log c := by
  change ((a.steps.bind fun outcome => .done (outcome.map .ok)).elementwise).Guarded Q held log c
  rw [Procedure.elementwise_bind, Procedure.guarded_bind]
  exact h

theorem guarded_find {Q : Aim (Option (Except StoreError (List Document)))} {q : Query}
    (h : ∀ c', c.Kept held c' → Q (some (.ok (c'.find q))) held (log ++ [⟨q, held, c'⟩]) c') :
    (find q).Guarded Q held log c := by
  refine Procedure.guarded_ask rfl (fun _ => rfl) ?_
  intro c' answer hkept hserved
  obtain ⟨rfl, -⟩ := Collection.served_find hserved
  exact h c' hkept

theorem guarded_now {Q : Aim (Option (Except StoreError UInt64))}
    (h : ∀ c' time, c.Kept held c' → Q (some (.ok time)) held log c') :
    now.Guarded Q held log c := by
  refine Procedure.guarded_ask rfl (fun _ => rfl) ?_
  intro c' time hkept _
  simp only [Request.sightings, List.append_nil]
  exact h c' time hkept

theorem guarded_record {Q : Aim (Option (Except StoreError Unit))} {m : Measurement}
    (h : ∀ c', c.Kept held c' → Q (some (.ok ())) held log c') :
    (record m).Guarded Q held log c := by
  refine Procedure.guarded_ask rfl (fun _ => rfl) ?_
  intro c' _ hkept _
  simp only [Request.sightings, List.append_nil]
  exact h c' hkept

/-- **What is done under a monitor.** -/
theorem guarded_holding {R : Option (Except StoreError α) → List Sighting → Prop} {a : Action α}
    (h : ∀ c', c'.Exact → a.Guarded (.ofResult R) (key :: held) log c') :
    (holding key a).Guarded (.ofResult R) held log c := by
  -- the monitor is granted, as the call waits for it
  intro c₁ granted c₂ hkept hgranted hserved _
  obtain rfl := hserved.eq_of_noAddition fun s => serve_lockKey_medium s key
  obtain rfl : granted = true := hgranted
  refine ⟨fun _ _ => rfl, ?_⟩
  change ((a.steps.bind fun outcome =>
    .ask (.unlockKey key) fun _ => .done outcome).elementwise).Guarded _ (key :: held) (log ++ []) _
  rw [List.append_nil, Procedure.elementwise_bind, Procedure.guarded_bind]
  refine Procedure.Guarded.imp ?_ (h _ hkept.exact)
  -- giving the monitor back is one more step, in which nothing is seen
  intro outcome held log c houtcome c₃ _ c₄ _ _ hserved _
  obtain rfl := hserved.eq_of_noAddition fun _ => rfl
  refine ⟨fun _ _ => rfl, ?_⟩
  change R outcome (log ++ [])
  rw [List.append_nil]
  exact houtcome

theorem guarded_holdingAll {R : Option (Except StoreError α) → List Sighting → Prop}
    {keys : List Key} {a : Action α} (hexact : c.Exact)
    (h : ∀ c', c'.Exact → a.Guarded (.ofResult R) (keys.reverse ++ held) log c') :
    (holdingAll keys a).Guarded (.ofResult R) held log c := by
  induction keys generalizing held c with
  | nil => exact h c hexact
  | cons key keys ih =>
    -- the first key of the list is locked first, and lies behind the others in what is held
    refine guarded_holding ?_
    intro c' hexact'
    refine ih hexact' ?_
    intro c'' hexact''
    have hbody := h c'' hexact''
    rw [List.reverse_cons, List.append_assoc] at hbody
    exact hbody

end Action

/-! ### Additions -/

/-- **An addition under a monitor.** The version is free, so it is stored. -/
theorem Procedure.guarded_insert {Q : Aim α} {next : Reply Unit → Procedure α}
    (hp : p.Next held c)
    (h : ∀ c' c'', c.Kept held c' → c'.insert? p.document = some c'' → c''.Exact →
      (next (some (.ok ()))).Guarded Q held log c'') :
    (ask (.insert p.document) next).Guarded Q held log c := by
  intro c₁ answer c₂ hkept _ hserved hexact
  obtain ⟨rfl, rfl⟩ := Collection.served_insert hserved
  -- others left the key alone, so the version is still the next one
  have hp₁ := hp.kept hkept
  obtain ⟨c₂, hinsert⟩ := (hkept.exact.exactAt p.document.key).insert?_next rfl hp₁.version
  have hadded : Memory.insert c₁ p.document = (.ok (), c₂) := by rw [Memory.insert, hinsert]
  rw [hadded] at hexact ⊢
  refine ⟨hp₁.history_insert? hinsert, ?_⟩
  simp only [Request.sightings, List.append_nil]
  exact h c₁ c₂ hkept hinsert hexact

/-- A conditional addition under a monitor is decided by the version that is superseded. -/
theorem Action.guarded_insertIf {Q : Aim (Option (Except StoreError Bool))} (hp : p.Next held c)
    {r : Record} (hr : p.previous = some r) (precondition : Predicate)
    (h : ∀ c', Q (some (.ok (r.satisfies precondition))) held log c') :
    (insertIf p.document (p.condition precondition)).Guarded Q held log c := by
  intro c₁ answer c₂ hkept _ hserved _
  obtain ⟨rfl, rfl⟩ := Collection.served_insertIf hserved
  have hp₁ := hp.kept hkept
  have hexact := hkept.exact.exactAt p.document.key
  -- the one version that can meet the condition is the newest one
  obtain ⟨e, hnewest, hrecord⟩ := Option.bind_eq_some_iff.1 (hp₁.previous.symm.trans hr)
  obtain ⟨-, rfl⟩ := Document.record?_eq_some_iff.1 hrecord
  obtain ⟨hmem, hkey⟩ := Collection.mem_documents_of_newest hnewest
  -- the pending version is the one behind it
  have hversion : p.document.version = r.document.version + 1 := by
    rw [hp₁.version, hnewest]
    rfl
  obtain ⟨c₂, hinsert⟩ := hexact.insert?_next rfl hp₁.version
  have hlength : (c₁.documents.filter (·.satisfies (p.condition precondition))).length = 1 ↔
      r.satisfies precondition = true :=
    Pending.length_filter_condition hexact hmem hkey hversion
  cases hmet : r.satisfies precondition with
  | false =>
    -- the live record does not meet the precondition, so nothing is added
    have hrefused : Memory.insertIf c₁ p.document (p.condition precondition) = (false, c₁) := by
      rw [Memory.insertIf, Collection.insertIf?, if_neg (by simp [hlength, hmet])]
    have hnext := h c₁
    rw [hmet] at hnext
    rw [hrefused]
    refine ⟨fun _ _ => rfl, ?_⟩
    simp only [Request.sightings, List.append_nil]
    exact hnext
  | true =>
    -- it does, and the next version is free
    have hadded : Memory.insertIf c₁ p.document (p.condition precondition) = (true, c₂) := by
      rw [Memory.insertIf, Collection.insertIf?, if_pos (hlength.2 hmet), hinsert]
    have hnext := h c₂
    rw [hmet] at hnext
    rw [hadded]
    refine ⟨hp₁.history_insert? hinsert, ?_⟩
    simp only [Request.sightings, List.append_nil]
    exact hnext

/-- A commit under a monitor fails only if there is a precondition that is not met. -/
theorem Action.guarded_commit {Q : Aim (Option (Except StoreError Unit))} (hp : p.Next held c)
    (precondition : Option Predicate) (hstored : ∀ c', Q (some (.ok ())) held log c')
    (hrefused : ∀ c' q e, precondition = some q → p.previous.any (·.satisfies q) = false →
      Q (some (.error e)) held log c') :
    (Store.commit p precondition).Guarded Q held log c := by
  cases precondition with
  | none => exact Procedure.guarded_insert hp fun _ c' _ _ _ => hstored c'
  | some q =>
    -- a conflict is recorded before it is thrown
    have hconflict (hunmet : p.previous.any (·.satisfies q) = false) (c' : Collection) :
        (do
          Action.record .writeConflict
          throw (.conflict ("precondition failed for " ++ p.document.key.label)) :
          Action Unit).Guarded Q held log c' :=
      .bind (guarded_record fun c'' _ => hrefused c'' q _ rfl hunmet)
    rw [Store.commit, Store.commitConditional]
    cases hr : p.previous with
    | none => exact hconflict (by rw [hr]; rfl) c
    | some r =>
      refine .bind (guarded_insertIf hp hr q ?_)
      intro c'
      -- what the addition decides is what the record decides
      cases hmet : r.satisfies q with
      | false => exact hconflict (by rw [hr, Option.any_some, hmet]) c'
      | true => exact hstored c'

/-! ### Bulk additions -/

theorem Procedure.guarded_insertEach {Q : Aim (Reply (List (Except BackendError Unit)))}
    {ps : List Pending} (hps : ∀ p ∈ ps, p.Next held c)
    (hapart : ps.Pairwise fun p q => p.document.key ≠ q.document.key)
    (h : ∀ c', Q (some (.ok (ps.map fun _ => .ok ()))) held log c') :
    (insertEach (ps.map Pending.document)).Guarded Q held log c := by
  induction ps generalizing Q c with
  | nil => exact h c
  | cons p ps ih =>
    obtain ⟨hp, hps⟩ := List.forall_mem_cons.1 hps
    obtain ⟨hfirst, hapart⟩ := List.pairwise_cons.1 hapart
    refine guarded_insert hp ?_
    intro c₁ c₂ hkept hinsert _
    -- the others are the next versions of other keys
    have hrest : ∀ q ∈ ps, q.Next held c₂ := fun q hq =>
      ((hps q hq).kept hkept).insert? hinsert (hfirst q hq)
    exact guarded_bind.2 (ih hrest hapart h)

/-- **A bulk addition under monitors.** All versions are stored. -/
theorem Action.guarded_insertAll
    {Q : Aim (Option (Except StoreError (List (Except BackendError Unit))))}
    {ps : List Pending} (hps : ∀ p ∈ ps, p.Next held c)
    (hapart : ps.Pairwise fun p q => p.document.key ≠ q.document.key)
    (h : ∀ c', Q (some (.ok (ps.map fun _ => .ok ()))) held log c') :
    (insertAll (ps.map Pending.document)).Guarded Q held log c := by
  change (((Procedure.insertEach (ps.map Pending.document)).bind fun answer =>
    (Procedure.done (answer.map (Except.mapError StoreError.ofBackend))).elementwise)).Guarded
      Q held log c
  rw [Procedure.guarded_bind]
  exact Procedure.guarded_insertEach hps hapart h

end ConfigLedger
