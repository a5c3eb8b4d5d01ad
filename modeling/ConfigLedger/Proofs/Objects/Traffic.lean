import ConfigLedger.Objects
import ConfigLedger.Proofs.Store.Traffic

/-!
# Calls for objects that interleave

Any number of calls for the objects of one store are under way on one collection. Between two
requests of one of them others may act, and a bulk addition is a request for each of its documents.

The calls share the locks of the tenants. A tenant's lock is granted only while nobody holds it or
the lock of a tenant with the same stripe; whoever asks for one may at any time be turned away
instead, because it has waited too long. So no tenant's lock is ever held twice
(`ObjectTraffic.nodup_held_of_steps`). The monitors of keys are not relied on: they are granted and
denied at will, like in a `Traffic`.

A call that nobody competes with may be run to its end without any other in between
(`ObjectTraffic.steps_alone`).
-/

namespace ConfigLedger

variable {τ κ : Type} [BEq κ] {store : ObjectStore τ} {aspect : τ → κ}

/-- An operation on objects and its arguments. All insertions are about the same aspect. -/
inductive ObjectCall (τ : Type) where
  | insertUnique (author : Author) (tenant : String) (object : τ)
  | delete (author : Author) (tenant context : String)
  | deleteAll (author : Author) (tenant : String) (contexts : List String)
  | get (tenant context : String)
  | list (tenant : String) (options : QueryOptions)

namespace ObjectCall

/-- What a call answers if it succeeds. -/
def Answer : ObjectCall τ → Type
  | insertUnique .. => Upserted τ
  | delete .. | get .. => Option (Object τ)
  | deleteAll .. => ContextAnswers (Option (Object τ))
  | list .. => List (Object τ)

/-- The operation. -/
def call (store : ObjectStore τ) (aspect : τ → κ) : (c : ObjectCall τ) → Call c.Answer
  | insertUnique author tenant object => store.insertUnique author tenant object aspect
  | delete author tenant context => store.delete author tenant context
  | deleteAll author tenant contexts => store.deleteAll author tenant contexts
  | get tenant context => store.get tenant context
  | list tenant options => store.list tenant options

end ObjectCall

/-- A call on its way. -/
structure ObjectWorker (τ : Type) where
  call : ObjectCall τ
  /-- What is left of it. -/
  rest : Procedure (Except StoreError call.Answer)
  /-- The tenants whose locks it holds. -/
  held : List String

/-- A call at its start. -/
def ObjectCall.worker (store : ObjectStore τ) (aspect : τ → κ) (call : ObjectCall τ) :
    ObjectWorker τ :=
  ⟨call, (call.call store aspect).steps.elementwise, []⟩

/-- The stripes that the call holds, of a number of stripes. -/
def ObjectWorker.stripes (w : ObjectWorker τ) (stripes : Nat) : List Nat :=
  w.held.map (TenantLocks.stripe ⟨stripes, []⟩)

/-- Calls on their way, the collection that they work on, and the number of stripes that the tenants
share. -/
structure ObjectTraffic (τ : Type) where
  collection : Collection
  stripes : Nat
  workers : List (ObjectWorker τ)

/-- The locks of the tenants as the calls hold them. -/
def ObjectTraffic.locks (t : ObjectTraffic τ) : TenantLocks :=
  ⟨t.stripes, t.workers.flatMap fun w => w.stripes t.stripes⟩

/-- Whether the lock of a tenant is asked for or given back. -/
def Request.onTenant : Request → Bool
  | lockTenant _ | unlockTenant _ => true
  | _ => false

/-- A step of one of the calls, which may change the collection. -/
inductive ObjectWorker.Step (t : ObjectTraffic τ) :
    ObjectWorker τ → ObjectWorker τ → Collection → Prop where
  /-- The lock is to be had. -/
  | lock {call : ObjectCall τ} {tenant : String} {locks : TenantLocks}
      (h : t.locks.lock? tenant = some locks)
      (next : Bool → Procedure (Except StoreError call.Answer)) (held : List String) :
      Step t ⟨call, .ask (.lockTenant tenant) next, held⟩ ⟨call, next true, tenant :: held⟩
        t.collection
  /-- The call has waited too long. -/
  | timeOut {call : ObjectCall τ} {tenant : String}
      (next : Bool → Procedure (Except StoreError call.Answer)) (held : List String) :
      Step t ⟨call, .ask (.lockTenant tenant) next, held⟩ ⟨call, next false, held⟩ t.collection
  | unlock {call : ObjectCall τ} {tenant : String}
      (next : Unit → Procedure (Except StoreError call.Answer)) (held : List String) :
      Step t ⟨call, .ask (.unlockTenant tenant) next, held⟩
        ⟨call, next (), held.erase tenant⟩ t.collection
  /-- The collection serves any other request. -/
  | serve {call : ObjectCall τ} {r : Request} {answer : r.Answer} {c : Collection}
      (hr : r.onTenant = false) (h : t.collection.Served r answer c)
      (next : r.Answer → Procedure (Except StoreError call.Answer)) (held : List String) :
      Step t ⟨call, .ask r next, held⟩ ⟨call, next answer, held⟩ c

/-- A stripe comes to be held only if nobody held it. -/
theorem ObjectWorker.Step.stripes {t : ObjectTraffic τ} {w w' : ObjectWorker τ} {c : Collection}
    (h : w.Step t w' c) :
    (∃ stripe, stripe ∉ t.locks.held ∧ w'.stripes t.stripes = stripe :: w.stripes t.stripes) ∨
      (w'.stripes t.stripes).Sublist (w.stripes t.stripes) := by
  -- only a lock that is granted adds a stripe; the other steps keep the stripes or give one back
  cases h with
  | @lock call tenant locks h next held =>
    -- it is granted only while nobody holds its stripe
    left
    rw [TenantLocks.lock?] at h
    split at h
    · cases h
    · next hfree => exact ⟨_, hfree, rfl⟩
  | timeOut next held => exact .inr (List.Sublist.refl _)
  | unlock next held => exact .inr (List.erase_sublist.map _)
  | serve hr h next held => exact .inr (List.Sublist.refl _)

namespace ObjectTraffic

/-- The start of a call, or a step of one of them. -/
inductive Step (store : ObjectStore τ) (aspect : τ → κ) : ObjectTraffic τ → ObjectTraffic τ → Prop
    where
  | start (t : ObjectTraffic τ) (call : ObjectCall τ) :
      Step store aspect t { t with workers := call.worker store aspect :: t.workers }
  | work {c c' : Collection} {stripes : Nat} {w w' : ObjectWorker τ}
      (before after : List (ObjectWorker τ))
      (h : w.Step ⟨c, stripes, before ++ w :: after⟩ w' c') :
      Step store aspect ⟨c, stripes, before ++ w :: after⟩ ⟨c', stripes, before ++ w' :: after⟩

/-- Any number of steps, in any order. -/
def Steps (store : ObjectStore τ) (aspect : τ → κ) : ObjectTraffic τ → ObjectTraffic τ → Prop :=
  Relation.ReflTransGen (Step store aspect)

/-! ### Mutual exclusion -/

/-- **Mutual exclusion is kept.** -/
theorem Step.nodup_held {t t' : ObjectTraffic τ} (h : Step store aspect t t')
    (hnodup : t.locks.held.Nodup) : t'.locks.held.Nodup := by
  cases h with
  | start t call => exact hnodup
  | @work c c' stripes w w' before after hwork =>
    simp only [locks, List.flatMap_append, List.flatMap_cons] at hnodup ⊢
    rcases hwork.stripes with ⟨stripe, hfree, heq⟩ | hsub
    · rw [heq, List.cons_append, List.nodup_middle]
      simp only [locks, List.flatMap_append, List.flatMap_cons] at hfree
      exact List.nodup_cons.2 ⟨hfree, hnodup⟩
    · exact hnodup.sublist ((hsub.append_right _).append_left _)

/-- **No lock is ever held twice**, whatever calls were started and in whatever order they went
on. -/
theorem nodup_held_of_steps {c : Collection} {stripes : Nat} {t : ObjectTraffic τ}
    (h : Steps store aspect ⟨c, stripes, []⟩ t) : t.locks.held.Nodup := by
  induction h with
  | refl => exact List.nodup_nil
  | tail _ hstep ih => exact hstep.nodup_held ih

/-- Two calls never hold the locks of the same tenant. -/
theorem disjoint_held {c : Collection} {stripes : Nat} {w : ObjectWorker τ}
    {before after : List (ObjectWorker τ)}
    (h : (locks ⟨c, stripes, before ++ w :: after⟩).held.Nodup) :
    ∀ u ∈ before ++ after, List.Disjoint w.held u.held := by
  have hstripes : ∀ u ∈ before ++ after, List.Disjoint (w.stripes stripes) (u.stripes stripes) :=
    (List.pairwise_cons.1 ((List.pairwise_middle List.Disjoint.symm).1
      (List.nodup_flatMap.1 h).2)).1
  -- a tenant that both hold would make both hold its stripe
  intro u hu tenant hw htenant
  exact hstripes u hu (List.mem_map_of_mem hw) (List.mem_map_of_mem htenant)

/-! ### Calls that nobody competes with -/

/-- Serves a call that holds the locks of some tenants while nobody else holds any. -/
def serveAlone (stripes : Nat) (r : Request) (s : Setting × List String) :
    r.Answer × (Setting × List String) :=
  match r with
  | .lockTenant tenant =>
    if TenantLocks.stripe ⟨stripes, []⟩ tenant ∈ s.2.map (TenantLocks.stripe ⟨stripes, []⟩) then
      (false, s)
    else (true, (s.1, tenant :: s.2))
  | .unlockTenant tenant => ((), (s.1, s.2.erase tenant))
  | r => ((s.1.serve r).1, ((s.1.serve r).2, s.2))

theorem mem_held_of_others {c : Collection} {stripes stripe : Nat} {w : ObjectWorker τ}
    {before after : List (ObjectWorker τ)} (hothers : ∀ u ∈ before ++ after, u.held = []) :
    stripe ∈ (locks ⟨c, stripes, before ++ w :: after⟩).held ↔ stripe ∈ w.stripes stripes := by
  -- the others hold no lock, so every stripe in use is one of `w`
  have hnone (u : ObjectWorker τ) (hu : u ∈ before ++ after) : stripe ∉ u.stripes stripes := by
    rw [ObjectWorker.stripes, hothers u hu]
    exact List.not_mem_nil
  rw [locks, List.mem_flatMap]
  constructor
  · rintro ⟨u, hu, hmem⟩
    rw [List.mem_append, List.mem_cons] at hu
    rcases hu with hu | rfl | hu
    · exact absurd hmem (hnone u (List.mem_append_left _ hu))
    · exact hmem
    · exact absurd hmem (hnone u (List.mem_append_right _ hu))
  · exact fun hmem => ⟨w, by simp, hmem⟩

section

variable (store : ObjectStore τ) (aspect : τ → κ) {call : ObjectCall τ} {c : Collection}
  {s : Setting} {stripes : Nat} (before after : List (ObjectWorker τ))
  (hothers : ∀ u ∈ before ++ after, u.held = [])
include hothers

/-- A request of a call that nobody competes with is answered in one step. -/
theorem step_alone (r : Request) (next : r.Answer → Procedure (Except StoreError call.Answer))
    (hs : s.medium = .memory c none) (held : List String) :
    ∃ c', (serveAlone stripes r (s, held)).2.1.medium = .memory c' none ∧
      Step store aspect ⟨c, stripes, before ++ ⟨call, .ask r next, held⟩ :: after⟩
        ⟨c', stripes, before ++ ⟨call, next (serveAlone stripes r (s, held)).1,
          (serveAlone stripes r (s, held)).2.2⟩ :: after⟩ := by
  -- a request about a lock is answered by the locks, and any other one by the collection
  cases hr : r.onTenant with
  | false =>
    have hserve : serveAlone stripes r (s, held) = ((s.serve r).1, ((s.serve r).2, held)) := by
      cases r <;> first | rfl | cases hr
    obtain ⟨c', hs', -⟩ := Setting.serve_memory hs r
    have hserved : c.Served r (s.serve r).1 c' := ⟨s, (s.serve r).2, hs, hs', rfl⟩
    rw [hserve]
    exact ⟨c', hs', .work before after (.serve hr hserved next held)⟩
  | true =>
    cases r with
    | lockTenant tenant =>
      by_cases hmem : TenantLocks.stripe ⟨stripes, []⟩ tenant ∈
          held.map (TenantLocks.stripe ⟨stripes, []⟩)
      · -- the call would wait for itself, until it is turned away
        have hserve : serveAlone stripes (.lockTenant tenant) (s, held) = (false, (s, held)) :=
          if_pos hmem
        rw [hserve]
        exact ⟨c, hs, .work before after (.timeOut next held)⟩
      · -- nobody else holds a lock, so a stripe that the call does not hold is free
        have hserve : serveAlone stripes (.lockTenant tenant) (s, held) =
            (true, (s, tenant :: held)) := if_neg hmem
        have hfree : TenantLocks.stripe ⟨stripes, []⟩ tenant ∉ (locks
            ⟨c, stripes, before ++ ⟨call, .ask (.lockTenant tenant) next, held⟩ :: after⟩).held :=
          fun hheld => hmem ((mem_held_of_others hothers).1 hheld)
        rw [hserve]
        exact ⟨c, hs, .work before after (.lock (if_neg hfree) next held)⟩
    | unlockTenant tenant => exact ⟨c, hs, .work before after (.unlock next held)⟩
    | _ => cases hr

/-- **What is left of a call** may be run without any other call in between. -/
theorem steps_alone (p : Procedure (Except StoreError call.Answer))
    (hs : s.medium = .memory c none) (held : List String) :
    ∃ c', (p.run (serveAlone stripes) (s, held)).2.1.medium = .memory c' none ∧
      Steps store aspect ⟨c, stripes, before ++ ⟨call, p, held⟩ :: after⟩
        ⟨c', stripes, before ++ ⟨call, .done (p.run (serveAlone stripes) (s, held)).1,
          (p.run (serveAlone stripes) (s, held)).2.2⟩ :: after⟩ := by
  -- one request after the other, each answered at once
  induction p generalizing s c held with
  | done a => exact ⟨c, hs, .refl⟩
  | ask r next ih =>
    obtain ⟨c₁, hs₁, hstep⟩ := step_alone store aspect before after hothers r next hs held
    obtain ⟨c₂, hs₂, hsteps⟩ := ih (serveAlone stripes r (s, held)).1 hs₁
      (serveAlone stripes r (s, held)).2.2
    exact ⟨c₂, hs₂, .head hstep hsteps⟩

end

end ObjectTraffic
end ConfigLedger
