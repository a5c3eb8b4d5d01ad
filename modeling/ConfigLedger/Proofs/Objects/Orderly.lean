import ConfigLedger.Proofs.Objects.Distinct
import ConfigLedger.Proofs.Objects.Traffic

/-!
# Procedures under the locks of tenants

`Procedure.Orderly store aspect Q p held c` says of a procedure that holds the locks of some
tenants: as long as the others let nothing new appear among the objects of these tenants
(`ObjectStore.Spares`), the procedure lets nothing new appear among those of all other tenants and
keeps those of its own distinct (`ObjectStore.Keeps`), and when it is done, `Q` holds of its result,
of the tenants whose locks it then holds and of the collection. It follows the procedure request by
request, and in front of each request the collection may have become another one.

What the procedure relies on and what it guarantees fit together because no lock is held twice. So
if every call is orderly at its start, then whatever the order of steps, the objects of every tenant
remain distinct (`ObjectTraffic.Sound.step`). Who adds tombstones only is orderly without any lock
(`Procedure.Adds.orderly`).
-/

namespace ConfigLedger

variable {α β τ κ : Type} {store : ObjectStore τ} {aspect : τ → κ} {c c' c'' : Collection}
  {d : Document} {held : List String} {tenant : String}

/-! ### What is relied on, and what is guaranteed -/

namespace ObjectStore

variable (store aspect)

/-- Nothing new appears among the objects of some tenants. -/
def Spares (held : List String) (c c' : Collection) : Prop :=
  ∀ tenant ∈ held, Collection.Fades (store.resource tenant) c c'

/-- Nothing new appears among the objects of any tenant, except of some whose objects remain
distinct. -/
def Keeps (held : List String) (c c' : Collection) : Prop :=
  ∀ tenant, Collection.Fades (store.resource tenant) c c' ∨
    (tenant ∈ held ∧ (store.Distinct aspect tenant c → store.Distinct aspect tenant c'))

variable {store aspect}

theorem Spares.refl : store.Spares held c c :=
  fun _ _ => .refl _ c

theorem Spares.trans (h : store.Spares held c c') (h' : store.Spares held c' c'') :
    store.Spares held c c'' :=
  fun tenant htenant => (h tenant htenant).trans (h' tenant htenant)

theorem Keeps.refl : store.Keeps aspect held c c :=
  fun _ => .inl (.refl _ c)

theorem Keeps.of_tombstone (hd : d.isTombstone = true) (h : c.insert? d = some c') :
    store.Keeps aspect held c c' :=
  fun _ => .inl (Collection.fades_of_tombstone hd h)

/-- Whoever holds the locks of other tenants is spared. -/
theorem Keeps.spares {others : List String} (h : store.Keeps aspect held c c')
    (hdisjoint : List.Disjoint held others) : store.Spares others c c' := by
  intro tenant htenant
  rcases h tenant with hfades | ⟨hheld, -⟩
  · exact hfades
  · exact absurd htenant (hdisjoint hheld)

theorem Keeps.distinct (h : store.Keeps aspect held c c') (hc : store.Distinct aspect tenant c) :
    store.Distinct aspect tenant c' := by
  rcases h tenant with hfades | ⟨-, hkept⟩
  · exact hc.of_fades hfades
  · exact hkept hc

/-- An object whose value of the aspect is vacant is added under the lock of its tenant. -/
theorem Keeps.of_vacant {x : τ} (htenant : tenant ∈ held)
    (hkey : d.key.resource = store.resource tenant)
    (hvalue : store.codec.decode d.value = .ok x) (hvacant : store.Vacant aspect tenant x c)
    (h : c.insert? d = some c') : store.Keeps aspect held c c' := by
  intro other
  by_cases hother : other = tenant
  · subst hother
    exact .inr ⟨htenant, fun hc => hc.insert? hvacant hvalue h⟩
  · refine .inl (Collection.fades_of_ne (fun hresource => hother ?_) h)
    rw [hkey] at hresource
    exact (congrArg Resource.tenant hresource).symm

end ObjectStore

/-- A request that is served changes nothing, or it adds one document, unless it is a bulk
addition. -/
theorem Collection.Served.cases {r : Request} {answer : r.Answer} (h : c.Served r answer c') :
    c' = c ∨ (∃ d ∈ r.additions, c.insert? d = some c') ∨
      ∃ documents, r = .insertAll documents := by
  -- only the three ways to insert touch the documents
  cases r with
  | insert d =>
    obtain ⟨-, rfl⟩ := Collection.served_insert h
    rw [Memory.insert]
    cases hinsert : c.insert? d with
    | none => exact .inl rfl
    | some c' => exact .inr (.inl ⟨d, List.mem_singleton_self d, hinsert⟩)
  | insertIf d condition =>
    obtain ⟨-, rfl⟩ := Collection.served_insertIf h
    rw [Memory.insertIf]
    cases hinsert : c.insertIf? d condition with
    | none => exact .inl rfl
    | some c' =>
      have hplain := (Collection.insertIf?_eq_some condition hinsert).2
      exact .inr (.inl ⟨d, List.mem_singleton_self d, hplain⟩)
  | insertAll documents => exact .inr (.inr ⟨documents, rfl⟩)
  | lockKey key => exact .inl (h.eq_of_noAddition fun s => Action.serve_lockKey_medium s key)
  | lockTenant tenant =>
    exact .inl (h.eq_of_noAddition fun s => Action.serve_lockTenant_medium s tenant)
  | _ => exact .inl (h.eq_of_noAddition fun _ => rfl)

/-- The tenants whose locks are held once a request was answered. -/
def Request.tenantsAfter (held : List String) : (r : Request) → r.Answer → List String
  | lockTenant tenant, granted => match (granted : Bool) with
    | true => tenant :: held
    | false => held
  | unlockTenant tenant, _ => held.erase tenant
  | _, _ => held

theorem Request.tenantsAfter_eq {r : Request} (hr : r.onTenant = false) (answer : r.Answer) :
    r.tenantsAfter held answer = held := by
  cases r <;> first | rfl | cases hr

/-! ### Procedures -/

namespace Procedure

/-- Among others that spare the tenants whose locks it holds, the procedure spares all others, keeps
the objects distinct, and achieves something. -/
def Orderly (store : ObjectStore τ) (aspect : τ → κ) (Q : α → List String → Collection → Prop) :
    Procedure α → List String → Collection → Prop
  | done a, held, c => Q a held c
  | ask r next, held, c => ∀ c' answer c'', store.Spares held c c' → c'.Served r answer c'' →
    store.Keeps aspect held c' c'' ∧
      (next answer).Orderly store aspect Q (r.tenantsAfter held answer) c''

/-- Nothing in particular is to be achieved. -/
def Anything {α : Type} (_ : α) (_ : List String) (_ : Collection) : Prop :=
  True

variable {Q : α → List String → Collection → Prop} {p : Procedure α}

theorem Orderly.of_spares (h : p.Orderly store aspect Anything held c)
    (hspares : store.Spares held c c') : p.Orderly store aspect Anything held c' := by
  cases p with
  | done a => trivial
  | ask r next =>
    intro c₁ answer c₂ hspares₁
    exact h c₁ answer c₂ (hspares.trans hspares₁)

theorem Orderly.imp {R : α → List String → Collection → Prop}
    (hQR : ∀ a held c, Q a held c → R a held c) (h : p.Orderly store aspect Q held c) :
    p.Orderly store aspect R held c := by
  induction p generalizing held c with
  | done a => exact hQR a held c h
  | ask r next ih =>
    intro c₁ answer c₂ hspares hserved
    obtain ⟨hkeeps, hnext⟩ := h c₁ answer c₂ hspares hserved
    exact ⟨hkeeps, ih answer hnext⟩

/-- **Sequencing.** -/
theorem orderly_bind {Q : β → List String → Collection → Prop} {f : α → Procedure β} :
    (p.bind f).Orderly store aspect Q held c ↔
      p.Orderly store aspect (fun a => (f a).Orderly store aspect Q) held c := by
  induction p generalizing held c with
  | done a => exact Iff.rfl
  | ask r next ih => simp only [bind, Orderly, ih]

/-- A request that neither adds anything nor is about the lock of a tenant. -/
theorem orderly_ask {r : Request} {next : r.Answer → Procedure α} (hr : r.onTenant = false)
    (hserve : ∀ s : Setting, (s.serve r).2.medium = s.medium)
    (h : ∀ c' answer, store.Spares held c c' → c'.Served r answer c' →
      (next answer).Orderly store aspect Q held c') :
    (ask r next).Orderly store aspect Q held c := by
  intro c₁ answer c₂ hspares hserved
  obtain rfl := hserved.eq_of_noAddition hserve
  rw [Request.tenantsAfter_eq hr]
  exact ⟨.refl, h _ answer hspares hserved⟩

/-- **An addition under the lock of a tenant.** -/
theorem orderly_insert {next : Reply Unit → Procedure α} {x : τ} (htenant : tenant ∈ held)
    (hkey : d.key.resource = store.resource tenant)
    (hvalue : store.codec.decode d.value = .ok x) (hvacant : store.Vacant aspect tenant x c)
    (h : ∀ answer c', (next answer).Orderly store aspect Q held c') :
    (ask (.insert d) next).Orderly store aspect Q held c := by
  intro c₁ answer c₂ hspares hserved
  refine ⟨?_, h answer c₂⟩
  -- refused or added; a single addition is never a bulk one
  rcases hserved.cases with rfl | ⟨e, he, hinsert⟩ | ⟨documents, hr⟩
  · exact .refl
  · obtain rfl := List.mem_singleton.1 he
    -- what was vacant is vacant still, as others only let objects disappear
    exact .of_vacant htenant hkey hvalue (hvacant.of_fades (hspares tenant htenant)) hinsert
  · cases hr

theorem orderly_insertEach {documents : List Document}
    (h : ∀ d ∈ documents, d.isTombstone = true) :
    (insertEach documents).Orderly store aspect Anything held c := by
  induction documents generalizing c with
  | nil => trivial
  | cons d rest ih =>
    obtain ⟨hd, hrest⟩ := List.forall_mem_cons.1 h
    intro c₁ answer c₂ _ hserved
    constructor
    · -- each document by itself is served as a single addition
      rcases hserved.cases with rfl | ⟨e, he, hinsert⟩ | ⟨documents, hr⟩
      · exact .refl
      · obtain rfl := List.mem_singleton.1 he
        exact .of_tombstone hd hinsert
      · cases hr
    · -- an error ends the additions
      cases answer with
      | none => trivial
      | some outcome => exact orderly_bind.2 ((ih hrest).imp fun _ _ _ _ => trivial)

/-- **Who adds tombstones only is orderly**, whatever locks it holds. -/
theorem Adds.orderly {R : α → Prop} (h : p.Adds (fun v => v.isNull = true) R) :
    p.elementwise.Orderly store aspect Anything held c := by
  induction p generalizing held c with
  | done a => trivial
  | ask r next ih =>
    -- a bulk addition is taken apart, and every other request adds one tombstone or none
    cases r with
    | insertAll documents =>
      rw [elementwise, orderly_bind]
      exact (orderly_insertEach h.1).imp fun answer _ _ _ => ih answer (h.2 answer)
    | _ =>
      intro c₁ answer c₂ _ hserved
      refine ⟨?_, ih answer (h.2 answer)⟩
      rcases hserved.cases with rfl | ⟨e, he, hinsert⟩ | ⟨documents, hr⟩
      · exact .refl
      · exact .of_tombstone (h.1 e he) hinsert
      · cases hr

/-- Who only counts achieves what others cannot undo. -/
theorem Settles.orderly {a : α} (h : p.Settles a)
    (hQ : ∀ c', store.Spares held c c' → Q a held c') :
    p.elementwise.Orderly store aspect Q held c := by
  induction h generalizing c with
  | done a => exact hQ c .refl
  | record h ih =>
    refine orderly_ask rfl (fun _ => rfl) ?_
    intro c₁ _ hspares _
    exact ih fun c₂ hspares₂ => hQ c₂ (hspares.trans hspares₂)

end Procedure

/-! ### Actions -/

namespace Action

/-- Among others, the action spares all tenants whose locks it does not hold, keeps the objects
distinct, and achieves something. -/
def Orderly (store : ObjectStore τ) (aspect : τ → κ)
    (Q : Option (Except StoreError α) → List String → Collection → Prop) (a : Action α)
    (held : List String) (c : Collection) : Prop :=
  a.steps.elementwise.Orderly store aspect Q held c

/-- To be orderly in what comes next. -/
def Onwards (store : ObjectStore τ) (aspect : τ → κ)
    (Q : Option (Except StoreError β) → List String → Collection → Prop) (f : α → Action β) :
    Option (Except StoreError α) → List String → Collection → Prop
  | some (.ok a) => (f a).Orderly store aspect Q
  | some (.error e) => Q (some (.error e))
  | none => Q none

variable {Q : Option (Except StoreError α) → List String → Collection → Prop}

theorem Orderly.bind {Q : Option (Except StoreError β) → List String → Collection → Prop}
    {a : Action α} {f : α → Action β}
    (h : a.Orderly store aspect (Onwards store aspect Q f) held c) :
    (a >>= f).Orderly store aspect Q held c := by
  rw [Orderly, steps_bind, Procedure.elementwise_bind, Procedure.orderly_bind]
  refine Procedure.Orderly.imp ?_ h
  intro outcome held c h
  rcases outcome with _ | (e | a) <;> exact h

theorem orderly_find
    {Q : Option (Except StoreError (List Document)) → List String → Collection → Prop} {q : Query}
    (h : ∀ c', store.Spares held c c' → Q (some (.ok (c'.find q))) held c') :
    (find q).Orderly store aspect Q held c := by
  refine Procedure.orderly_ask rfl (fun _ => rfl) ?_
  intro c' answer hspares hserved
  obtain ⟨rfl, -⟩ := Collection.served_find hserved
  exact h c' hspares

theorem orderly_now {Q : Option (Except StoreError UInt64) → List String → Collection → Prop}
    (h : ∀ c' time, store.Spares held c c' → Q (some (.ok time)) held c') :
    now.Orderly store aspect Q held c :=
  Procedure.orderly_ask rfl (fun _ => rfl) fun c' time hspares _ => h c' time hspares

theorem orderly_record {Q : Option (Except StoreError Unit) → List String → Collection → Prop}
    {m : Measurement} (h : ∀ c', store.Spares held c c' → Q (some (.ok ())) held c') :
    (record m).Orderly store aspect Q held c :=
  Procedure.orderly_ask rfl (fun _ => rfl) fun c' _ hspares _ => h c' hspares

/-- The monitor of a key may be denied, and it is given back. -/
theorem orderly_holding {key : Key} {a : Action α}
    (h : ∀ c', store.Spares held c c' → a.Orderly store aspect Procedure.Anything held c') :
    (holding key a).Orderly store aspect Procedure.Anything held c := by
  -- asking for the monitor changes nothing, whatever the answer
  refine Procedure.orderly_ask rfl (fun s => serve_lockKey_medium s key) ?_
  intro c' granted hspares _
  cases (granted : Bool) with
  | false => trivial
  | true =>
    change ((a.steps.bind fun outcome =>
      .ask (.unlockKey key) fun _ => .done outcome).elementwise).Orderly store aspect _ held c'
    -- the body goes on orderly, and giving the monitor back changes nothing either
    rw [Procedure.elementwise_bind, Procedure.orderly_bind]
    refine Procedure.Orderly.imp ?_ (h c' hspares)
    intro outcome held c _
    exact Procedure.orderly_ask rfl (fun _ => rfl) fun _ _ _ _ => trivial

end Action

/-! ### Calls -/

namespace Call

/-- Among others, the call spares all tenants whose locks it does not hold, keeps the objects
distinct, and achieves something. -/
def Orderly (store : ObjectStore τ) (aspect : τ → κ)
    (Q : Except StoreError α → List String → Collection → Prop) (call : Call α)
    (held : List String) (c : Collection) : Prop :=
  call.steps.elementwise.Orderly store aspect Q held c

/-- To be orderly in what comes next. -/
def Onwards (store : ObjectStore τ) (aspect : τ → κ)
    (Q : Except StoreError β → List String → Collection → Prop) (f : α → Call β) :
    Except StoreError α → List String → Collection → Prop
  | .ok a => (f a).Orderly store aspect Q
  | .error e => Q (.error e)

theorem Orderly.bind {Q : Except StoreError β → List String → Collection → Prop} {call : Call α}
    {f : α → Call β} (h : call.Orderly store aspect (Onwards store aspect Q f) held c) :
    (call >>= f).Orderly store aspect Q held c := by
  rw [Orderly, steps_bind, Procedure.elementwise_bind, Procedure.orderly_bind]
  refine Procedure.Orderly.imp ?_ h
  intro outcome held c h
  cases outcome <;> exact h

/-- Where nothing in particular is to be achieved, both parts have to be orderly. -/
theorem Orderly.bind_anything {call : Call α} {f : α → Call β}
    (h : call.Orderly store aspect Procedure.Anything held c)
    (hf : ∀ a held c, (f a).Orderly store aspect Procedure.Anything held c) :
    (call >>= f).Orderly store aspect Procedure.Anything held c := by
  refine .bind (Procedure.Orderly.imp ?_ h)
  intro outcome held c _
  cases outcome with
  | error e => trivial
  | ok a => exact hf a held c

theorem orderly_bounded {Q : Except StoreError α → List String → Collection → Prop}
    {operation : Operation} {a : Action α}
    (h : a.Orderly store aspect (fun outcome held c => ∀ c', store.Spares held c c' →
      Q (outcome.getD (.error .deadlineExceeded)) held c') held c) :
    (bounded operation a).Orderly store aspect Q held c := by
  change (a.steps.bind fun outcome => .ask (.record _) fun _ => .ask (.record _) fun _ =>
    .done (outcome.getD (.error .deadlineExceeded))).elementwise.Orderly store aspect _ held c
  rw [Procedure.elementwise_bind, Procedure.orderly_bind]
  refine Procedure.Orderly.imp ?_ h
  intro outcome held c houtcome
  -- what is left is to record the outcome and the duration
  refine Procedure.orderly_ask rfl (fun _ => rfl) ?_
  intro c₁ _ hspares₁ _
  refine Procedure.orderly_ask rfl (fun _ => rfl) ?_
  intro c₂ _ hspares₂ _
  exact houtcome c₂ (hspares₁.trans hspares₂)

theorem orderly_bounded_anything {operation : Operation} {a : Action α}
    (h : a.Orderly store aspect Procedure.Anything held c) :
    (bounded operation a).Orderly store aspect Procedure.Anything held c :=
  orderly_bounded (Procedure.Orderly.imp (fun _ _ _ _ _ _ => trivial) h)

theorem orderly_ofProcedure {Q : Except StoreError α → List String → Collection → Prop}
    {p : Procedure α} (h : p.elementwise.Orderly store aspect (fun a => Q (.ok a)) held c) :
    (ofProcedure p).Orderly store aspect Q held c := by
  change (p.bind fun a => .done (.ok a)).elementwise.Orderly store aspect Q held c
  rw [Procedure.elementwise_bind, Procedure.orderly_bind]
  exact h

end Call

/-! ### Traffic of orderly calls -/

section

variable {t t' : ObjectTraffic τ} {w w' : ObjectWorker τ}

/-- What is left of a call is orderly. -/
def ObjectWorker.Orderly (store : ObjectStore τ) (aspect : τ → κ) (w : ObjectWorker τ)
    (c : Collection) : Prop :=
  w.rest.Orderly store aspect Procedure.Anything w.held c

/-- A call keeps what it guarantees and goes on orderly. -/
theorem ObjectWorker.Orderly.step (h : w.Orderly store aspect t.collection)
    (hstep : w.Step t w' c) :
    store.Keeps aspect w.held t.collection c ∧ w'.Orderly store aspect c := by
  -- being orderly is said of any setting: one that grants the lock, and one that denies it
  let idle : Setting := ⟨.memory t.collection none, fun _ => 0, {}, ⟨1, []⟩⟩
  let busy : Setting := ⟨.memory t.collection none, fun _ => 0, {}, ⟨1, [0]⟩⟩
  cases hstep with
  | @lock call tenant locks hfree next held =>
    -- the step is one that `idle` answers, and nobody acts in between
    have hserved : t.collection.Served (.lockTenant tenant) true t.collection :=
      ⟨idle, _, rfl, rfl, rfl⟩
    exact h _ true _ .refl hserved
  | @timeOut call tenant next held =>
    -- the only stripe of `busy` is taken, so the lock is denied
    have hserved : t.collection.Served (.lockTenant tenant) false t.collection := by
      refine ⟨busy, busy, rfl, rfl, ?_⟩
      rw [Setting.serve, TenantLocks.lock?]
      simp [busy, TenantLocks.stripe, Nat.mod_one]
    exact h _ false _ .refl hserved
  | @unlock call tenant next held =>
    have hserved : t.collection.Served (.unlockTenant tenant) () t.collection :=
      ⟨idle, _, rfl, rfl, rfl⟩
    exact h _ () _ .refl hserved
  | @serve call r answer c hr hserved next held =>
    obtain ⟨hkeeps, hnext⟩ := h _ answer c .refl hserved
    rw [Request.tenantsAfter_eq hr] at hnext
    exact ⟨hkeeps, hnext⟩

namespace ObjectTraffic

variable [BEq κ]

/-- No lock is held twice, the objects of every tenant are distinct, and what is left of the calls
is orderly. -/
structure Sound (store : ObjectStore τ) (aspect : τ → κ) (t : ObjectTraffic τ) : Prop where
  exclusive : t.locks.held.Nodup
  distinct : ∀ tenant, store.Distinct aspect tenant t.collection
  orderly : ∀ w ∈ t.workers, w.Orderly store aspect t.collection

/-- **One step.** The call that makes it goes on orderly. The others hold the locks of other
tenants, which it spares. -/
theorem Sound.step (hstart : ∀ (call : ObjectCall τ) (c : Collection),
    (call.worker store aspect).Orderly store aspect c) (h : t.Sound store aspect)
    (hstep : Step store aspect t t') : t'.Sound store aspect := by
  have hnodup : t'.locks.held.Nodup := hstep.nodup_held h.exclusive
  obtain ⟨hexclusive, hdistinct, horderly⟩ := h
  cases hstep with
  | start t call => exact ⟨hnodup, hdistinct, List.forall_mem_cons.2 ⟨hstart call _, horderly⟩⟩
  | @work c c' stripes w w' before after hwork =>
    obtain ⟨hkeeps, hnext⟩ := (horderly w (by simp)).step hwork
    refine ⟨hnodup, fun tenant => hkeeps.distinct (hdistinct tenant), ?_⟩
    -- nothing new appears among the objects of those whose locks the others hold
    have hothers : ∀ u ∈ before ++ after, u.Orderly store aspect c' := by
      intro u hu
      have hspares : store.Spares u.held c c' := hkeeps.spares (disjoint_held hexclusive u hu)
      have hmem : u ∈ before ++ w :: after := by
        rw [List.mem_append, List.mem_cons] at *
        tauto
      exact Procedure.Orderly.of_spares (horderly u hmem) hspares
    intro u hu
    rcases List.mem_append.1 hu with hbefore | hu
    · exact hothers u (List.mem_append_left _ hbefore)
    · rcases List.mem_cons.1 hu with rfl | hafter
      · exact hnext
      · exact hothers u (List.mem_append_right _ hafter)

/-- **All steps.** -/
theorem Sound.steps (hstart : ∀ (call : ObjectCall τ) (c : Collection),
    (call.worker store aspect).Orderly store aspect c) (h : t.Sound store aspect)
    (hsteps : Steps store aspect t t') : t'.Sound store aspect := by
  induction hsteps with
  | refl => exact h
  | tail _ hstep ih => exact ih.step hstart hstep

end ObjectTraffic

end

end ConfigLedger
