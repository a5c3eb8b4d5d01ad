import ConfigLedger.Store.Host
import Mathlib.Tactic.TypeStar

/-!
# Runs one after the other, at any times

A `Setting` is what calls that run one after the other depend on: the medium, the locks, and
a clock that may show any times. A `Host` is such a setting with a clock that rises step by
step, and it answers every procedure as its setting does (`Host.run_setting`).

The rules below say what the combinators of actions do in a setting, so that an operation is
run by rewriting: `Action.run_bind` for sequencing, one rule for each request, and
`Action.run_holding` for what is done under a monitor. Nothing but the holder of a monitor
gives it back, so a body that leaves the monitors alone leaves them as they were.
-/

namespace ConfigLedger

/-- What calls that run one after the other depend on. -/
structure Setting where
  medium : Medium
  /-- What the clock shows, the next reading first. -/
  readings : Nat → UInt64
  monitors : KeyMonitors := {}
  tenants : TenantLocks

/-- The reading that follows some others. -/
def SteppingClock.reading (c : SteppingClock) : Nat → UInt64
  | 0 => c.read.1
  | n + 1 => c.read.2.reading n

namespace Setting

/-- The setting after the clock was read. -/
def tick (s : Setting) : Setting :=
  { s with readings := fun n => s.readings (n + 1) }

/-- Answers one request. -/
def serve (r : Request) (s : Setting) : r.Answer × Setting :=
  match r with
  | .find q => (s.medium.find q, s)
  | .insert d => (some (s.medium.insert d).1, { s with medium := (s.medium.insert d).2 })
  | .insertIf d condition =>
    (some (s.medium.insertIf d condition).1,
      { s with medium := (s.medium.insertIf d condition).2 })
  | .insertAll documents =>
    (some (s.medium.insertAll documents).1,
      { s with medium := (s.medium.insertAll documents).2 })
  | .health => (s.medium.healthy, s)
  | .now => (s.readings 0, s.tick)
  | .lockKey key => match s.monitors.lock? key with
    | some monitors => (true, { s with monitors })
    | none => (false, s)
  | .unlockKey key => ((), { s with monitors := s.monitors.unlock key })
  | .lockTenant tenant => match s.tenants.lock? tenant with
    | some tenants => (true, { s with tenants })
    | none => (false, s)
  | .unlockTenant tenant => ((), { s with tenants := s.tenants.unlock tenant })
  | .record _ => ((), s)

end Setting

/-- The setting of a host. -/
def Host.setting (host : Host) : Setting :=
  ⟨host.medium, host.clock.reading, host.monitors, host.tenants⟩

/-- A host serves a request as its setting does. -/
theorem Host.serve_setting (host : Host) (r : Request) :
    (host.serve r).1 = (host.setting.serve r).1 ∧
      (host.serve r).2.setting = (host.setting.serve r).2 := by
  cases r with
  | lockKey key =>
    -- a monitor is free on the host exactly if it is free in the setting
    simp only [Host.serve, Setting.serve, Host.setting]
    cases host.monitors.lock? key <;> exact ⟨rfl, rfl⟩
  | lockTenant tenant =>
    simp only [Host.serve, Setting.serve, Host.setting]
    cases host.tenants.lock? tenant <;> exact ⟨rfl, rfl⟩
  | _ => exact ⟨rfl, rfl⟩

/-- **A host runs a procedure as its setting does.** -/
theorem Host.run_setting {α : Type} (p : Procedure α) (host : Host) :
    (p.run Host.serve host).1 = (p.run Setting.serve host.setting).1 ∧
      (p.run Host.serve host).2.setting = (p.run Setting.serve host.setting).2 := by
  induction p generalizing host with
  | done a => exact ⟨rfl, rfl⟩
  | ask r next ih =>
    -- the two agree on the answer, so they go on in the same way
    obtain ⟨hanswer, hsetting⟩ := host.serve_setting r
    simp only [Procedure.run]
    rw [← hanswer, ← hsetting]
    exact ih _ _

/-! ### Rules -/

namespace Action

variable {α β : Type} {s : Setting}

/-- Runs an action; nothing is answered if it is cut off. -/
def run (a : Action α) (s : Setting) : Option (Except StoreError α) × Setting :=
  a.steps.run Setting.serve s

/-- Goes on with what an action achieved. -/
def andThen (outcome : Option (Except StoreError α) × Setting)
    (next : α → Setting → Option (Except StoreError β) × Setting) :
    Option (Except StoreError β) × Setting :=
  match outcome with
  | (some (.ok a), s) => next a s
  | (some (.error e), s) => (some (.error e), s)
  | (none, s) => (none, s)

@[simp] theorem andThen_ok (a : α) (next : α → Setting → Option (Except StoreError β) × Setting) :
    andThen (some (.ok a), s) next = next a s := rfl

@[simp] theorem andThen_error (e : StoreError)
    (next : α → Setting → Option (Except StoreError β) × Setting) :
    andThen (some (.error e), s) next = (some (.error e), s) := rfl

theorem steps_bind (a : Action α) (f : α → Action β) :
    (a >>= f).steps = a.steps.bind fun outcome =>
      match outcome with
      | some (.ok a) => (f a).steps
      | some (.error e) => .done (some (.error e))
      | none => .done none := by
  change Procedure.bind _ _ = _
  congr 1
  funext outcome
  -- each of the three outcomes is passed on as the match says
  rcases outcome with _ | (e | a) <;> rfl

/-- Sequencing in any surroundings. -/
theorem run_steps_bind {σ : Type} (serve : (r : Request) → σ → r.Answer × σ) (a : Action α)
    (f : α → Action β) (st : σ) :
    (a >>= f).steps.run serve st = match a.steps.run serve st with
      | (some (.ok x), st) => (f x).steps.run serve st
      | (some (.error e), st) => (some (.error e), st)
      | (none, st) => (none, st) := by
  rw [steps_bind]
  refine (Procedure.run_bind serve _ _ st).trans ?_
  rcases a.steps.run serve st with ⟨_ | (e | x), st'⟩ <;> rfl

@[simp] theorem run_pure (a : α) : (pure a : Action α).run s = (some (.ok a), s) := rfl

@[simp] theorem run_throw (e : StoreError) :
    (throw e : Action α).run s = (some (.error e), s) := rfl

/-- **Sequencing.** -/
@[simp] theorem run_bind (a : Action α) (f : α → Action β) :
    (a >>= f).run s = andThen (a.run s) fun a s => (f a).run s := by
  refine (run_steps_bind Setting.serve a f s).trans ?_
  show _ = andThen (a.steps.run Setting.serve s) _
  rcases a.steps.run Setting.serve s with ⟨_ | (e | x), s'⟩ <;> rfl

@[simp] theorem run_ofExcept (outcome : Except StoreError α) :
    (ofExcept outcome).run s = (some outcome, s) := rfl

@[simp] theorem run_now : now.run s = (some (.ok (s.readings 0)), s.tick) := rfl

@[simp] theorem run_record (m : Measurement) : (record m).run s = (some (.ok ()), s) := rfl

@[simp] theorem run_attempt (a : Action α) :
    a.attempt.run s = ((a.run s).1.map .ok, (a.run s).2) :=
  Procedure.run_bind _ _ _ _

/-! ### Requests to a backend -/

theorem run_find (q : Query) :
    (find q).run s = ((s.medium.find q).map (Except.mapError StoreError.ofBackend), s) := rfl

theorem run_insert (d : Document) :
    (insert d).run s = (some ((s.medium.insert d).1.mapError StoreError.ofBackend),
      { s with medium := (s.medium.insert d).2 }) := rfl

theorem run_insertIf (d : Document) (condition : Predicate) :
    (insertIf d condition).run s =
      (some ((s.medium.insertIf d condition).1.mapError StoreError.ofBackend),
        { s with medium := (s.medium.insertIf d condition).2 }) := rfl

theorem run_insertAll (documents : List Document) :
    (insertAll documents).run s =
      (some ((s.medium.insertAll documents).1.mapError StoreError.ofBackend),
        { s with medium := (s.medium.insertAll documents).2 }) := rfl

/-! ### Monitors -/

theorem serve_lockKey {key : Key} (hfree : key ∉ s.monitors.held) :
    (s.serve (.lockKey key) : Bool × Setting) =
      (true, { s with monitors := ⟨key :: s.monitors.held⟩ }) := by
  simp only [Setting.serve, KeyMonitors.lock?, if_neg hfree]
  rfl

theorem serve_lockKey_medium (s : Setting) (key : Key) :
    (s.serve (.lockKey key)).2.medium = s.medium := by
  rw [Setting.serve]
  split <;> rfl

theorem serve_lockTenant_medium (s : Setting) (tenant : String) :
    (s.serve (.lockTenant tenant)).2.medium = s.medium := by
  rw [Setting.serve]
  split <;> rfl

theorem run_holding_eq (key : Key) (a : Action α) :
    (holding key a).run s =
      match (s.serve (.lockKey key) : Bool × Setting) with
      | (true, s) => ((a.run s).1, ((a.run s).2.serve (.unlockKey key)).2)
      | (false, s) => (none, s) := by
  -- what is done once the answer to the request is known
  let body (granted : Bool) : Procedure (Option (Except StoreError α)) :=
    if granted then do
      let outcome ← a.steps
      Procedure.request (.unlockKey key)
      return outcome
    else return none
  have hbind : (holding key a).run s =
      (body (s.serve (.lockKey key)).1).run Setting.serve (s.serve (.lockKey key)).2 :=
    Procedure.run_bind _ _ _ _
  rw [hbind]
  generalize (s.serve (.lockKey key) : Bool × Setting) = served
  -- a monitor that is denied ends the procedure, one that is granted is given back after the action
  rcases served with ⟨_ | _, s⟩
  · rfl
  · exact Procedure.run_bind _ _ _ _

/-- What is done under a monitor is cut off before it starts, or it is done over the same medium. -/
theorem run_holding_cases (s : Setting) (key : Key) :
    ∃ s' : Setting, s'.medium = s.medium ∧
      ((∀ a : Action α, (holding key a).run s = (none, s')) ∨
        ∀ a : Action α, (holding key a).run s =
          ((a.run s').1, ((a.run s').2.serve (.unlockKey key)).2)) := by
  -- asking for a monitor does not touch the medium
  have hmedium := serve_lockKey_medium s key
  obtain ⟨granted, s', hserve⟩ : ∃ (granted : Bool) (s' : Setting),
      (s.serve (.lockKey key) : Bool × Setting) = (granted, s') := ⟨_, _, rfl⟩
  change (s.serve (.lockKey key) : Bool × Setting).2.medium = s.medium at hmedium
  rw [hserve] at hmedium
  refine ⟨s', hmedium, ?_⟩
  cases granted with
  | false =>
    left
    intro a
    rw [run_holding_eq, hserve]
  | true =>
    right
    intro a
    rw [run_holding_eq, hserve]

/-- **What is done under a monitor that is free.** The monitor is given back. -/
theorem run_holding {key : Key} {a : Action α} {outcome : Option (Except StoreError α)}
    {medium : Medium} {readings : Nat → UInt64} (hfree : key ∉ s.monitors.held)
    (hrun : a.run { s with monitors := ⟨key :: s.monitors.held⟩ } =
      (outcome, { s with medium, readings, monitors := ⟨key :: s.monitors.held⟩ })) :
    (holding key a).run s = (outcome, { s with medium, readings }) := by
  rw [run_holding_eq, serve_lockKey hfree]
  simp only [hrun, Setting.serve, KeyMonitors.unlock, List.erase_cons_head]

/-- What is done under several monitors that are free. -/
theorem run_holdingAll {keys : List Key} {a : Action α} {outcome : Option (Except StoreError α)}
    {medium : Medium} {readings : Nat → UInt64} (hkeys : keys.Nodup)
    (hfree : ∀ key ∈ keys, key ∉ s.monitors.held)
    (hrun : a.run { s with monitors := ⟨keys.reverse ++ s.monitors.held⟩ } =
      (outcome, { s with medium, readings, monitors := ⟨keys.reverse ++ s.monitors.held⟩ })) :
    (holdingAll keys a).run s = (outcome, { s with medium, readings }) := by
  induction keys generalizing s with
  | nil => exact hrun
  | cons key keys ih =>
    obtain ⟨hkey, hkeys⟩ := List.nodup_cons.1 hkeys
    obtain ⟨hfree₁, hfree⟩ := List.forall_mem_cons.1 hfree
    -- the first monitor is taken, and all others inside it
    change (holding key (holdingAll keys a)).run s = _
    refine run_holding hfree₁ (ih hkeys (fun other hother => ?_) ?_)
    -- the keys differ, so the next ones are still free
    · have hne : other ≠ key := fun heq => hkey (heq ▸ hother)
      simpa [hne] using hfree other hother
    · -- what is held inside is the list that is assumed, put together the other way round
      rw [List.reverse_cons, List.append_assoc] at hrun
      exact hrun

end Action

/-! ### Whole calls -/

namespace Call

variable {α β : Type} {s : Setting}

/-- Runs a call. -/
def run (c : Call α) (s : Setting) : Except StoreError α × Setting :=
  c.steps.run Setting.serve s

@[simp] theorem run_pure (a : α) : (pure a : Call α).run s = (.ok a, s) := rfl

@[simp] theorem run_throw (e : StoreError) : (throw e : Call α).run s = (.error e, s) := rfl

@[simp] theorem run_ofExcept (outcome : Except StoreError α) :
    (ofExcept outcome).run s = (outcome, s) := rfl

@[simp] theorem run_record (m : Measurement) : (record m).run s = (.ok (), s) := rfl

/-- Sequencing in any surroundings. -/
theorem run_steps_bind {σ : Type} (serve : (r : Request) → σ → r.Answer × σ) (c : Call α)
    (f : α → Call β) (st : σ) :
    (c >>= f).steps.run serve st = match c.steps.run serve st with
      | (.ok a, st) => (f a).steps.run serve st
      | (.error e, st) => (.error e, st) := by
  refine (Procedure.run_bind serve _ _ st).trans ?_
  change Procedure.run _ (ExceptT.bindCont f (c.steps.run serve st).1) (c.steps.run serve st).2 = _
  rcases c.steps.run serve st with ⟨e | a, st'⟩ <;> rfl

/-- Sequencing. -/
theorem run_bind (c : Call α) (f : α → Call β) :
    (c >>= f).run s = match c.run s with
      | (.ok a, s) => (f a).run s
      | (.error e, s) => (.error e, s) := by
  refine (run_steps_bind Setting.serve c f s).trans ?_
  rw [run]
  rcases c.steps.run Setting.serve s with ⟨e | a, s'⟩ <;> rfl

/-- A call under a deadline answers what its action answers; a cut-off is an error. -/
theorem run_steps_bounded {σ : Type} (serve : (r : Request) → σ → r.Answer × σ)
    (operation : Operation) (a : Action α) (st : σ) :
    ((bounded operation a).steps.run serve st).1 =
      (a.steps.run serve st).1.getD (.error .deadlineExceeded) :=
  congrArg Prod.fst (Procedure.run_bind serve _ _ st)

/-- On a store it does, and leaves the setting in which its action ends. -/
@[simp] theorem run_bounded (operation : Operation) (a : Action α) :
    (bounded operation a).run s =
      ((a.run s).1.getD (.error .deadlineExceeded), (a.run s).2) :=
  Procedure.run_bind _ _ _ _

end Call
end ConfigLedger
