import ConfigLedger.Proofs.Locks.KeyMonitors
import ConfigLedger.Proofs.Store.Representation

/-!
# Simulating a ledger

A setting simulates a ledger if its collection represents the ledger and its clock is to show the
same times (`Simulates`). Each call on single keys and each query refines what the ledger does: it
answers the same and leads to a setting that simulates the ledger afterwards.
-/

namespace ConfigLedger

variable {c c' : Collection} {s : Setting} {ledger : Ledger} {key : Key} {d : Document}

/-! ### Calls -/

/-- No key has as many versions as binary64 numbers can tell apart. -/
def Medium.Few (medium : Medium) : Prop :=
  ∀ key, (medium.documents.filter fun d => decide (d.key = key)).length < Binary64.exactBound

/-- A setting simulates a ledger that stands at the same time. -/
structure Simulates (s : Setting) (ledger : Ledger) : Prop where
  medium : ∃ c, s.medium = .memory c none ∧ Represents c ledger
  readings : s.readings = ledger.readings
  free : s.monitors.held = []

/-- An action answers as a ledger does, and takes the setting to where the ledger goes. -/
def Action.Refines {α : Type} (a : Action α) (s : Setting) (result : Except StoreError α × Ledger) :
    Prop :=
  ∃ c, Represents c result.2 ∧
    a.run s = (some result.1, { s with medium := .memory c none, readings := result.2.readings })

/-- A call answers as a ledger does, and takes the setting to where the ledger goes. -/
def Call.Refines {α : Type} (call : Call α) (s : Setting) (result : Except StoreError α × Ledger) :
    Prop :=
  (call.run s).1 = result.1 ∧ Simulates (call.run s).2 result.2

namespace Action.Refines

variable {α β : Type} {a : Action α} {f : α → Action β} {result : Except StoreError β × Ledger}

/-- What comes after an action that only reads. -/
theorem after {x : α} (ha : a.run s = (some (.ok x), s)) (h : (f x).Refines s result) :
    (a >>= f).Refines s result := by
  obtain ⟨c, hc, hrun⟩ := h
  exact ⟨c, hc, by rw [run_bind, ha, andThen_ok, hrun]⟩

theorem holding {b : Action β} (hfree : key ∉ s.monitors.held)
    (h : b.Refines { s with monitors := ⟨key :: s.monitors.held⟩ } result) :
    (Action.holding key b).Refines s result := by
  obtain ⟨c, hc, hrun⟩ := h
  exact ⟨c, hc, run_holding hfree hrun⟩

theorem holdingAll {b : Action β} {keys : List Key} (hkeys : keys.Nodup)
    (hfree : ∀ key ∈ keys, key ∉ s.monitors.held)
    (h : b.Refines { s with monitors := ⟨keys.reverse ++ s.monitors.held⟩ } result) :
    (Action.holdingAll keys b).Refines s result := by
  obtain ⟨c, hc, hrun⟩ := h
  exact ⟨c, hc, run_holdingAll hkeys hfree hrun⟩

end Action.Refines

namespace Simulates

variable {α : Type} {result : Except StoreError α × Ledger} {a : Action α}

theorem bounded (h : Simulates s ledger) (operation : Operation) (ha : a.Refines s result) :
    (bounded operation a).Refines s result := by
  obtain ⟨c, hc, hrun⟩ := ha
  rw [Call.Refines, Call.run_bounded, hrun]
  exact ⟨rfl, ⟨c, rfl, hc⟩, rfl, h.free⟩

/-- An action that only reads leaves the setting as it is. -/
theorem refines_of_run (h : Simulates s ledger) {outcome : Except StoreError α}
    (hrun : a.run s = (some outcome, s)) : a.Refines s (outcome, ledger) := by
  obtain ⟨c, hs, hc⟩ := h.medium
  refine ⟨c, hc, ?_⟩
  rw [hrun, ← hs, ← h.readings]

/-- A call that only reads does so, too. -/
theorem refines_of_call_run (h : Simulates s ledger) {outcome : Except StoreError α}
    {call : Call α} (hrun : call.run s = (outcome, s)) : call.Refines s (outcome, ledger) := by
  rw [Call.Refines, hrun]
  exact ⟨rfl, h⟩

theorem collection (h : Simulates s ledger) (hfew : s.medium.Few) :
    ∃ c, s.medium = .memory c none ∧ Represents c ledger ∧ c.Few := by
  obtain ⟨c, hs, hc⟩ := h.medium
  rw [hs] at hfew
  exact ⟨c, hs, hc, hfew⟩

/-! ### Reading -/

theorem read (h : Simulates s ledger) (hfew : s.medium.Few) (key : Key) :
    (Store.read key).Refines s (.ok (ledger.record? key), ledger) := by
  obtain ⟨c, hs, hc, hfew⟩ := h.collection hfew
  refine h.refines_of_call_run ?_
  rw [(Store.shows hs).run_read, (hc.numbered.exact hfew).shown_eq, hc.live]

theorem readMany (h : Simulates s ledger) (hfew : s.medium.Few) (keys : List Key) :
    (Store.readMany keys).Refines s (.ok (ledger.readMany keys), ledger) := by
  obtain ⟨c, hs, hc, hfew⟩ := h.collection hfew
  have hshown (key : Key) : c.shown key = ledger.record? key := by
    rw [(hc.numbered.exact hfew).shown_eq, hc.live]
  refine h.refines_of_call_run ?_
  simp only [(Store.shows hs).run_readMany, hshown]
  rfl

theorem query (h : Simulates s ledger) (hfew : s.medium.Few) (resource : Resource)
    (options : QueryOptions) :
    (Store.query resource options).Refines s (ledger.query resource options, ledger) := by
  obtain ⟨c, hs, hc, hfew⟩ := h.collection hfew
  have hexact := hc.numbered.exact hfew
  refine h.refines_of_call_run ?_
  simp only [(Store.shows hs).run_query, hc.length_newestLive hexact, hc.page_eq hexact]
  rfl

theorem count (h : Simulates s ledger) (hfew : s.medium.Few) (resource : Resource)
    (filter : Option Filter) :
    (Store.count resource filter).Refines s (ledger.count resource filter, ledger) := by
  obtain ⟨c, hs, hc, hfew⟩ := h.collection hfew
  refine h.refines_of_call_run ?_
  simp only [(Store.shows hs).run_count, hc.length_newestLive (hc.numbered.exact hfew)]
  rfl

/-! ### Writing -/

/-- What a write does once it holds the monitor of its key. -/
theorem refines_writeLocked (hs : s.medium = .memory c none) (hc : Represents c ledger)
    (hfew : c.Few) (htime : s.readings = ledger.readings) (author : Author) {value : Value}
    (hvalue : value.isNull = false) {filter : Option Filter} {precondition : Option Predicate}
    (hfilter : compiled filter = .ok precondition) :
    (Store.writeLocked author key value precondition).Refines s
      (ledger.write author key value filter) := by
  -- the version that is to be stored, and the collection that it leads to
  obtain ⟨p, hp⟩ : ∃ p, p = Pending.ofWrite author key value (c.newest key)
    (ledger.readings 0) := ⟨_, rfl⟩
  obtain ⟨c', hinsert, hrun⟩ := Store.run_writeLocked hs ((hc.numbered.exact hfew).exactAt key)
    (hp.trans (by rw [htime])) precondition
  obtain ⟨_, hinsert', hafter, -⟩ := hc.insert_ofWrite (hfew _) hp
  -- the two lemmas speak of one insertion
  obtain rfl := Option.some.inj (hinsert.symm.trans hinsert')
  rw [hc.write_eq (hfew key) hvalue hfilter hp]
  split
  · -- the precondition is met, and both go one version further
    next hmet =>
    refine ⟨c', hafter, ?_⟩
    rw [hrun, if_pos hmet, Setting.tick, htime]
    rfl
  · -- it is not met, so that both have read the clock and nothing else
    next hmet =>
    refine ⟨c, hc.tick, ?_⟩
    rw [hrun, if_neg hmet, Setting.tick, htime, ← hs]
    rfl

theorem write (h : Simulates s ledger) (hfew : s.medium.Few) (author : Author) (key : Key)
    (value : Value) (filter : Option Filter) :
    (Store.write author key value filter).Refines s (ledger.write author key value filter) := by
  obtain ⟨c, hs, hc, hfew⟩ := h.collection hfew
  rw [Store.write_eq]
  refine h.bounded _ ?_
  -- a value that must not be written is refused by both before anything else
  cases hcheck : Store.checkWritable key value with
  | error e =>
    have hwrite : ledger.write author key value filter = (.error e, ledger) := by
      rw [Ledger.write, hcheck]
    rw [hwrite]
    exact h.refines_of_run rfl
  | ok _ =>
    refine .after (Action.run_ofExcept _) ?_
    cases hfilter : compiled filter with
    | error e =>
      -- so is a filter that does not compile
      have hwrite : ledger.write author key value filter = (.error e, ledger) := by
        rw [Ledger.write, hcheck, hfilter]
      rw [hwrite]
      refine h.refines_of_run ?_
      rw [Action.run_bind, Store.run_condition, hfilter, Action.andThen_error]
    | ok precondition =>
      refine .after (by rw [Store.run_condition, hfilter]) (.holding (by simp [h.free]) ?_)
      -- no check failed, so what is left is done under the monitor
      exact refines_writeLocked (s := { s with monitors := ⟨key :: s.monitors.held⟩ }) hs hc hfew
        h.readings author (Store.isNull_of_checkWritable hcheck) hfilter

theorem refines_deleteLocked (hs : s.medium = .memory c none) (hc : Represents c ledger)
    (hfew : c.Few) (htime : s.readings = ledger.readings) (author : Author) :
    (Store.deleteLocked author key).Refines s
      (.ok (ledger.delete key).1, (ledger.delete key).2) := by
  -- what is looked up is the record of the ledger
  have hprepare := Store.run_prepareDelete hs (hc.numbered.exact hfew) author key
  rw [← hc.live] at hprepare
  cases hr : ledger.record? key with
  | none =>
    rw [hr] at hprepare
    rw [Ledger.delete, hr]
    -- nothing lives under the key, and nothing is done
    refine ⟨c, hc, ?_⟩
    rw [Store.deleteLocked, Action.run_bind, hprepare, Action.andThen_ok, ← htime, ← hs]
    rfl
  | some r =>
    rw [hr] at hprepare
    rw [Ledger.delete, hr]
    -- the key lives, so a tombstone is stored behind its newest version
    obtain ⟨p, hp⟩ : ∃ p, p = Pending.ofDelete author key r (s.readings 0) := ⟨_, rfl⟩
    obtain ⟨c', hinsert, hafter, -⟩ := hc.insert_ofDelete (hfew _) hr hp
    refine ⟨c', hafter, ?_⟩
    rw [Store.deleteLocked, Action.run_bind, hprepare, Action.andThen_ok]
    simp only [← hp]
    rw [Action.run_bind, Store.run_insert (s := s.tick) hs hinsert, Action.andThen_ok,
      Action.run_pure, Setting.tick, htime, hp]
    rfl

theorem delete (h : Simulates s ledger) (hfew : s.medium.Few) (author : Author) (key : Key) :
    (Store.delete author key).Refines s (.ok (ledger.delete key).1, (ledger.delete key).2) := by
  obtain ⟨c, hs, hc, hfew⟩ := h.collection hfew
  refine h.bounded _ (.holding (by simp [h.free]) ?_)
  exact refines_deleteLocked (s := { s with monitors := ⟨key :: s.monitors.held⟩ }) hs hc hfew
    h.readings author

end Simulates
end ConfigLedger
