import ConfigLedger.Proofs.Locks.KeyMonitors
import ConfigLedger.Proofs.Store.Crew

/-!
# Callers that take monitors

A caller takes the monitor of one key, or the monitors of all keys of a list, works, and gives back
what it took (`Locking.around`). To take a monitor it asks the cache for a mutex and waits until
nobody holds it, and while it waits, it keeps what it took before. Others may act in between
(`Callers.Step`).

How does a caller stand at any time? It took some monitors in the order of their keys, it is to take
the others in this order, or it gave some back, the last ones first (`Caller.OnCourse`). And how do
callers stand to each other? No mutex is held twice, and each of them belongs to one key
(`Callers.Exclusive`).

In which order a caller gives its monitors back is of no concern to the others: it never waits while
it does so, and it takes none once it gave the first one back. That nobody waits in a circle comes
from the order in which monitors are taken.
-/

namespace ConfigLedger

variable {α β M : Type} {key : Key} {left taken : List Key}

/-! ### Procedures that take monitors in turn -/

namespace Procedure

/-- The procedure neither takes a monitor nor gives one back. -/
def Quiet : Procedure α → Prop
  | done _ => True
  | ask r next => r.onMonitor = false ∧ ∀ answer, (next answer).Quiet

/-- A procedure that holds the monitors of some keys is to take those of the keys that are left, one
after the other. Then it works, and gives them all back, the last one first. -/
inductive Guards : List Key → List Key → Procedure α → Prop where
  | done (a : α) : Guards [] [] (done a)
  | work {taken : List Key} {r : Request} (hr : r.onMonitor = false)
      {next : r.Answer → Procedure α} (h : ∀ answer, Guards [] taken (next answer)) :
      Guards [] taken (ask r next)
  | lock {key : Key} {left taken : List Key} {next : Bool → Procedure α}
      (h : Guards left (key :: taken) (next true)) :
      Guards (key :: left) taken (ask (.lockKey key) next)
  | unlock {key : Key} {taken : List Key} {next : Unit → Procedure α}
      (h : Guards [] taken (next ())) :
      Guards [] (key :: taken) (ask (.unlockKey key) next)

theorem Guards.of_done {a : α} (h : (Procedure.done a).Guards left taken) :
    left = [] ∧ taken = [] := by
  cases h
  exact ⟨rfl, rfl⟩

theorem Guards.of_work {r : Request} (hr : r.onMonitor = false) {next : r.Answer → Procedure α}
    (h : (ask r next).Guards left taken) : left = [] ∧ ∀ answer, (next answer).Guards [] taken := by
  cases h with
  | work _ h => exact ⟨rfl, h⟩
  | lock h => cases hr
  | unlock h => cases hr

theorem Guards.of_lock {next : Bool → Procedure α}
    (h : (ask (.lockKey key) next).Guards left taken) :
    ∃ rest, left = key :: rest ∧ (next true).Guards rest (key :: taken) := by
  cases h with
  | work hr _ => cases hr
  | lock h => exact ⟨_, rfl, h⟩

theorem Guards.of_unlock {next : Unit → Procedure α}
    (h : (ask (.unlockKey key) next).Guards left taken) :
    left = [] ∧ ∃ rest, taken = key :: rest ∧ (next ()).Guards [] rest := by
  cases h with
  | work hr _ => cases hr
  | unlock h => exact ⟨rfl, _, rfl, h⟩

/-- A procedure that is not to take a monitor next took all of them. -/
theorem Guards.left_eq_nil {p : Procedure α} (h : p.Guards left taken)
    (hp : ∀ key next, p ≠ ask (.lockKey key) next) : left = [] := by
  cases h with
  | lock h => exact absurd rfl (hp _ _)
  | _ => rfl

/-- Quiet work goes on in front of what guards. -/
theorem Quiet.guards_bind {p : Procedure α} (hp : p.Quiet) {f : α → Procedure β}
    (hf : ∀ a, (f a).Guards [] taken) : (p.bind f).Guards [] taken := by
  induction p with
  | done a => exact hf a
  | ask r next ih => exact .work hp.1 fun answer => ih answer (hp.2 answer)

end Procedure

/-- **Monitors are taken in the order of the list** and given back in the opposite order. -/
theorem Action.guards_holdingAll {body : Action α} (hbody : body.steps.Quiet) (keys : List Key)
    {f : Option (Except StoreError α) → Procedure β} (hf : ∀ outcome, (f outcome).Guards [] taken) :
    ((holdingAll keys body).steps.bind f).Guards keys taken := by
  induction keys generalizing taken f with
  | nil => exact hbody.guards_bind hf
  | cons key keys ih =>
    -- behind everything else comes the request that gives the first monitor back
    have hrest : ((holdingAll keys body).steps.bind fun outcome =>
        .ask (.unlockKey key) fun _ => f outcome).Guards keys (key :: taken) :=
      ih fun outcome => .unlock (hf outcome)
    apply Procedure.Guards.lock
    show (((holdingAll keys body).steps.bind fun outcome =>
      .ask (.unlockKey key) fun _ => .done outcome).bind f).Guards keys (key :: taken)
    rw [Procedure.bind_bind]
    exact hrest

/-! ### Callers -/

/-- What a caller locks: one key, or all keys of a list. -/
inductive Locking where
  | one (key : Key)
  | all (keys : List Key)

namespace Locking

/-- The keys that are to be locked. -/
def keys : Locking → List Key
  | one key => [key]
  | all keys => keys

/-- The keys one by one, as they are locked. -/
def order : Locking → List Key
  | one key => [key]
  | all keys => lockOrder keys

/-- Does something while all the keys are locked. -/
def around (body : Action α) : Locking → Action α
  | one key => .holding key body
  | all keys => .holdingAll (lockOrder keys) body

theorem around_eq (l : Locking) (body : Action α) : l.around body = .holdingAll l.order body := by
  cases l <;> rfl

theorem mem_order {l : Locking} : key ∈ l.order ↔ key ∈ l.keys := by
  cases l with
  | one k => exact Iff.rfl
  | all keys => exact mem_lockOrder

theorem pairwise_order (l : Locking) : l.order.Pairwise fun a b => a.precedes b = true := by
  cases l with
  | one k => exact List.pairwise_singleton _ _
  | all keys => exact pairwise_lockOrder keys

theorem nodup_order (l : Locking) : l.order.Nodup := by
  cases l with
  | one k => exact List.nodup_singleton k
  | all keys => exact nodup_lockOrder keys

end Locking

/-- A caller on its way. -/
structure Caller (M α : Type) where
  locking : Locking
  /-- What is left to do. -/
  rest : Procedure (Option (Except StoreError α))
  /-- The mutex that it was given and waits for, with its key. -/
  awaits : Option (Key × M)
  /-- The mutexes that it holds, with their keys. -/
  holds : List (Key × M)
  /-- The keys whose monitors it gave back, the last one first. -/
  released : List Key

namespace Caller

/-- The keys whose monitors the caller holds. -/
def held (w : Caller M α) : List Key :=
  w.holds.map Prod.fst

/-- The mutexes that the caller holds. -/
def mutexes (w : Caller M α) : List M :=
  w.holds.map Prod.snd

/-- The mutexes that the caller holds or waits for, with their keys. -/
def uses (w : Caller M α) : List (Key × M) :=
  w.awaits.toList ++ w.holds

/-- The caller is to take another monitor. -/
def IsLocking (w : Caller M α) : Prop :=
  ∃ key next, w.rest = .ask (.lockKey key) next

/-- The caller has nothing left to do. -/
def IsDone (w : Caller M α) : Prop :=
  ∃ outcome, w.rest = .done outcome

end Caller

/-- A caller at its start. -/
def Locking.caller (l : Locking) (body : Action α) : Caller M α :=
  ⟨l, (l.around body).steps, none, [], []⟩

/-- Several callers. -/
abbrev Callers (M α : Type) : Type :=
  List (Caller M α)

namespace Callers

/-- The mutexes that are held or waited for, with their keys. -/
def uses (t : Callers M α) : List (Key × M) :=
  t.flatMap Caller.uses

/-- Each key has one mutex, and each mutex has one key. -/
def Regular (t : Callers M α) : Prop :=
  ∀ x ∈ t.uses, ∀ y ∈ t.uses, x.1 = y.1 ↔ x.2 = y.2

end Callers

/-- Which mutexes a cache may return for a key, as things stand. -/
abbrev MutexCache (M α : Type) : Type :=
  Callers M α → Key → M → Prop

/-- What callers may rely on. -/
structure MutexCache.Sound (cache : MutexCache M α) : Prop where
  /-- As long as someone holds the mutex of a key or waits for it, this one is returned. -/
  steady : ∀ t key m, cache t key m → ∀ x ∈ t.uses, x.1 = key → x.2 = m
  /-- A mutex that is used for a key is returned for no other key. -/
  apart : ∀ t key m, cache t key m → ∀ x ∈ t.uses, x.2 = m → x.1 = key
  /-- Some mutex is returned. -/
  answers : ∀ t : Callers M α, t.Regular → ∀ key, ∃ m, cache t key m

/-- A step of one of several callers. -/
inductive Caller.Step (cache : MutexCache M α) (t : Callers M α) :
    Caller M α → Caller M α → Prop where
  /-- The cache returns a mutex. -/
  | await {l : Locking} {key : Key} {m : M} (h : cache t key m)
      (next : Bool → Procedure (Option (Except StoreError α))) (holds : List (Key × M))
      (released : List Key) :
      Step cache t ⟨l, .ask (.lockKey key) next, none, holds, released⟩
        ⟨l, .ask (.lockKey key) next, some (key, m), holds, released⟩
  /-- Nobody holds the mutex. -/
  | acquire {l : Locking} {key : Key} {m : M} (h : ∀ w ∈ t, m ∉ w.mutexes)
      (next : Bool → Procedure (Option (Except StoreError α))) (holds : List (Key × M))
      (released : List Key) :
      Step cache t ⟨l, .ask (.lockKey key) next, some (key, m), holds, released⟩
        ⟨l, next true, none, (key, m) :: holds, released⟩
  | release {l : Locking} {key : Key}
      (next : Unit → Procedure (Option (Except StoreError α))) (holds : List (Key × M))
      (released : List Key) :
      Step cache t ⟨l, .ask (.unlockKey key) next, none, holds, released⟩
        ⟨l, next (), none, holds.eraseP fun use => use.1 = key, key :: released⟩
  /-- Any other request is answered in some way. -/
  | work {l : Locking} {r : Request} (hr : r.onMonitor = false) (answer : r.Answer)
      (next : r.Answer → Procedure (Option (Except StoreError α))) (holds : List (Key × M))
      (released : List Key) :
      Step cache t ⟨l, .ask r next, none, holds, released⟩
        ⟨l, next answer, none, holds, released⟩

namespace Callers

/-- The start of a caller, whose work is quiet, or a step of one of them. -/
inductive Step (cache : MutexCache M α) : Callers M α → Callers M α → Prop where
  | start (t : Callers M α) (l : Locking) {body : Action α} (hbody : body.steps.Quiet) :
      Step cache t (l.caller body :: t)
  | work {w w' : Caller M α} (before after : Callers M α)
      (h : w.Step cache (before ++ w :: after) w') :
      Step cache (before ++ w :: after) (before ++ w' :: after)

/-- Any number of steps, in any order. -/
def Steps (cache : MutexCache M α) : Callers M α → Callers M α → Prop :=
  Relation.ReflTransGen (Step cache)

end Callers

/-! ### One caller -/

namespace Caller

variable {cache : MutexCache M α} {t : Callers M α} {w w' : Caller M α}

/-- The caller takes its monitors in their order, of which some are left, works, and gives them
back. -/
structure OnCourse (w : Caller M α) (left : List Key) : Prop where
  guards : w.rest.Guards left w.held
  order : w.held.reverse ++ w.released ++ left = w.locking.order
  /-- None is given back before all are taken. -/
  phase : left = [] ∨ w.released = []
  awaits : ∀ use ∈ w.awaits, ∃ next, w.rest = .ask (.lockKey use.1) next

theorem onCourse_caller (l : Locking) {body : Action α} (hbody : body.steps.Quiet) :
    (l.caller body : Caller M α).OnCourse l.order := by
  refine ⟨?_, rfl, .inr rfl, fun use huse => by cases huse⟩
  have hguards : ((Action.holdingAll l.order body).steps.bind .done).Guards l.order [] :=
    Action.guards_holdingAll hbody l.order .done
  rw [Procedure.bind_done, ← l.around_eq] at hguards
  exact hguards

/-- **Every step keeps a caller on its course.** -/
theorem OnCourse.step (h : w.OnCourse left) (hstep : w.Step cache t w') :
    ∃ left', w'.OnCourse left' := by
  obtain ⟨hguards, horder, hphase, -⟩ := h
  cases hstep with
  | @await l key m hget next holds released =>
    -- the caller waits now, and what it is to do did not change
    refine ⟨left, hguards, horder, hphase, fun use huse => ?_⟩
    obtain rfl := Option.some.inj huse
    exact ⟨next, rfl⟩
  | @acquire l key m hfree next holds released =>
    -- what is taken is the first key that is left, and so nothing was given back yet
    obtain ⟨rest, rfl, hnext⟩ := hguards.of_lock
    obtain rfl : released = [] := hphase.resolve_left (List.cons_ne_nil _ _)
    refine ⟨rest, hnext, ?_, .inr rfl, fun use huse => by cases huse⟩
    rw [← horder]
    simp [held]
  | @release l key next holds released =>
    obtain ⟨rfl, rest, hheld, hnext⟩ := hguards.of_unlock
    -- what is given back was taken last
    obtain ⟨⟨k, m⟩, behind, rfl, rfl, rfl⟩ := List.map_eq_cons_iff.1 hheld
    refine ⟨[], ?_, ?_, .inl rfl, fun use huse => by cases huse⟩
    · simpa [held] using hnext
    · rw [← horder]
      simp [held]
  | @work l r hr answer next holds released =>
    -- a caller works with all monitors that it is to have, and what it holds stays the same
    obtain ⟨rfl, hnext⟩ := hguards.of_work hr
    exact ⟨[], hnext answer, horder, .inl rfl, fun use huse => by cases huse⟩

/-- A caller that is done gave everything back. -/
theorem OnCourse.holds_eq_nil (h : w.OnCourse left) (hdone : w.IsDone) : w.holds = [] := by
  obtain ⟨outcome, hrest⟩ := hdone
  have hguards := h.guards
  rw [hrest] at hguards
  exact List.map_eq_nil_iff.1 hguards.of_done.2

/-- A caller that is to take a monitor holds keys that precede it. -/
theorem OnCourse.precedes (h : w.OnCourse left) {next}
    (hrest : w.rest = .ask (.lockKey key) next) {k : Key} (hk : k ∈ w.held) :
    k.precedes key = true := by
  have hguards := h.guards
  rw [hrest] at hguards
  obtain ⟨rest, rfl, -⟩ := hguards.of_lock
  -- in the order of the caller the keys that it holds stand in front of the one that is left
  have hordered := w.locking.pairwise_order
  rw [← h.order, List.append_assoc] at hordered
  refine (List.pairwise_append.1 hordered).2.2 k (List.mem_reverse.2 hk) key ?_
  exact List.mem_append_right _ List.mem_cons_self

/-- **A caller that took all its monitors, and gave none back, holds exactly its keys**, each once,
the last one first. -/
theorem OnCourse.held_reverse (h : w.OnCourse left) (hlocking : ¬ w.IsLocking)
    (hreleased : w.released = []) : w.held.reverse = w.locking.order := by
  have hleft : left = [] := h.guards.left_eq_nil fun key next heq => hlocking ⟨key, next, heq⟩
  have horder := h.order
  rw [hleft, hreleased, List.append_nil, List.append_nil] at horder
  exact horder

end Caller
end ConfigLedger
