import ConfigLedger.Proofs.Locks.Callers

/-!
# Callers never block each other for good

A caller that waits for a mutex keeps the monitors that it took before. Can callers wait for each
other in a circle?

They cannot. Whoever waits for the monitor of a key holds only keys that precede it
(`Caller.OnCourse.precedes`), so among all keys that are waited for, consider one that precedes none
of the others: who holds its mutex waits for nothing, and can go on
(`Callers.Orderly.exists_step`). It matters that each mutex belongs to one key, and that each caller
locks a key once. Both hold whenever callers act, and no key is held twice then
(`Callers.exclusive_and_live`).
-/

namespace ConfigLedger

variable {α M : Type} {cache : MutexCache M α} {t t' : Callers M α} {w w' : Caller M α}
  {left : List Key}

/-- One of several keys precedes none of them. -/
theorem exists_last {keys : List Key} (h : keys ≠ []) :
    ∃ key ∈ keys, ∀ k ∈ keys, key.precedes k = false := by
  induction keys with
  | nil => exact absurd rfl h
  | cons k rest ih =>
    by_cases hrest : rest = []
    · subst hrest
      exact ⟨k, List.mem_cons_self, List.forall_mem_singleton.2 k.not_precedes_self⟩
    · -- the last of the others is the last of all unless `k` comes after it
      obtain ⟨key, hkey, hlast⟩ := ih hrest
      cases hprecedes : key.precedes k with
      | false =>
        exact ⟨key, List.mem_cons_of_mem k hkey, List.forall_mem_cons.2 ⟨hprecedes, hlast⟩⟩
      | true =>
        -- what comes after `k` comes after `key` too
        refine ⟨k, List.mem_cons_self, List.forall_mem_cons.2 ⟨k.not_precedes_self, ?_⟩⟩
        intro k' hk'
        by_contra hafter
        have hbehind := Key.precedes_trans hprecedes (Bool.eq_true_of_not_eq_false hafter)
        exact absurd hbehind (by simp [hlast k' hk'])

/-- Every request can be answered. -/
theorem Request.nonempty_answer (r : Request) : Nonempty r.Answer := by
  cases r <;> first
    | exact ⟨(none : Reply _)⟩
    | exact ⟨false⟩
    | exact ⟨(0 : UInt64)⟩
    | exact ⟨()⟩

/-! ### Exclusion -/

/-- A mutex comes into use only if the cache returned it. -/
theorem Caller.Step.uses (h : w.Step cache t w') :
    (∃ key m, cache t key m ∧ w'.uses = (key, m) :: w.uses) ∨ w'.uses ⊆ w.uses := by
  cases h with
  | @await l key m h next holds released => exact .inl ⟨key, m, h, rfl⟩
  | acquire h next holds released => exact .inr (List.Subset.refl _)
  | release next holds released => exact .inr List.eraseP_subset
  | work hr answer next holds released => exact .inr (List.Subset.refl _)

/-- A mutex comes to be held only if nobody held it. -/
theorem Caller.Step.mutexes (h : w.Step cache t w') :
    (∃ m ∉ t.flatMap Caller.mutexes, w'.mutexes = m :: w.mutexes) ∨
      w'.mutexes.Sublist w.mutexes := by
  cases h with
  | await h next holds released => exact .inr (List.Sublist.refl _)
  | @acquire l key m h next holds released =>
    refine .inl ⟨m, fun hmem => ?_, rfl⟩
    obtain ⟨u, hu, hm⟩ := List.mem_flatMap.1 hmem
    exact h u hu hm
  | release next holds released => exact .inr (List.eraseP_sublist.map _)
  | work hr answer next holds released => exact .inr (List.Sublist.refl _)

namespace Callers

/-- No mutex is held twice, and each of them belongs to one key. -/
structure Exclusive (t : Callers M α) : Prop where
  nodup : (t.flatMap Caller.mutexes).Nodup
  regular : t.Regular

theorem mem_uses_of_holds {x : Key × M} (hw : w ∈ t) (hx : x ∈ w.holds) : x ∈ t.uses :=
  List.mem_flatMap.2 ⟨w, hw, List.mem_append_right _ hx⟩

theorem mem_uses_of_awaits {x : Key × M} (hw : w ∈ t) (hx : w.awaits = some x) : x ∈ t.uses := by
  refine List.mem_flatMap.2 ⟨w, hw, List.mem_append_left _ ?_⟩
  rw [hx]
  exact List.mem_singleton_self x

/-- No key is held twice. -/
theorem Exclusive.nodup_held (h : t.Exclusive) : (t.flatMap Caller.held).Nodup := by
  have huses {x : Key × M} (hx : x ∈ t.flatMap Caller.holds) : x ∈ t.uses := by
    obtain ⟨w, hw, hmem⟩ := List.mem_flatMap.1 hx
    exact mem_uses_of_holds hw hmem
  have hmutexes : ((t.flatMap Caller.holds).map Prod.snd).Nodup := by
    rw [List.map_flatMap]
    exact h.nodup
  rw [show t.flatMap Caller.held = (t.flatMap Caller.holds).map Prod.fst from
    List.map_flatMap.symm]
  exact nodup_fst_of_agree hmutexes fun x hx y hy => (h.regular x (huses hx) y (huses hy)).1

/-- **Exclusion is kept.** -/
theorem Exclusive.step (hcache : cache.Sound) (h : t.Exclusive) (hstep : Step cache t t') :
    t'.Exclusive := by
  cases hstep with
  -- a caller that begins uses no mutex
  | start t l hbody => exact ⟨h.nodup, h.regular⟩
  | @work w w' before after hwork =>
    obtain ⟨hnodup, hregular⟩ := h
    refine ⟨nodup_flatMap_of_replace hnodup hwork.mutexes, ?_⟩
    refine forall_of_replace hregular (hwork.uses.imp_left ?_)
    rintro ⟨key, m, hget, heq⟩
    -- the mutex that the cache returned is used for the key by others, and for no other key
    have hnew {x : Key × M} (hx : x ∈ uses (before ++ w :: after)) : x.1 = key ↔ x.2 = m :=
      ⟨hcache.steady _ key m hget x hx, hcache.apart _ key m hget x hx⟩
    refine ⟨(key, m), heq, iff_of_true rfl rfl, fun x hx => ⟨hnew hx, ?_⟩⟩
    exact eq_comm.trans ((hnew hx).trans eq_comm)

/-- Callers exclude each other, and each of them is on its course. -/
structure Orderly (t : Callers M α) : Prop where
  exclusive : t.Exclusive
  onCourse : ∀ w ∈ t, ∃ left, w.OnCourse left

/-- **Order is kept.** -/
theorem Orderly.step (hcache : cache.Sound) (h : t.Orderly) (hstep : Step cache t t') :
    t'.Orderly := by
  refine ⟨h.exclusive.step hcache hstep, ?_⟩
  cases hstep with
  | start t l hbody =>
    exact List.forall_mem_cons.2 ⟨⟨_, Caller.onCourse_caller l hbody⟩, h.onCourse⟩
  | @work w w' before after hwork =>
    have hstill := h.onCourse
    simp only [List.forall_mem_append, List.forall_mem_cons] at hstill ⊢
    obtain ⟨hbefore, ⟨left, hw⟩, hafter⟩ := hstill
    exact ⟨hbefore, hw.step hwork, hafter⟩

theorem orderly_of_steps (hcache : cache.Sound) (h : Steps cache [] t) : t.Orderly := by
  induction h with
  | refl => exact ⟨⟨List.nodup_nil, fun x hx => by cases hx⟩, fun w hw => by cases hw⟩
  | tail _ hstep ih => exact ih.step hcache hstep

end Callers

/-! ### Progress -/

/-- A caller that is not done can go on, unless someone holds the mutex that it waits for. -/
theorem Caller.OnCourse.step_or_waits (hcache : cache.Sound) (ht : t.Regular)
    (h : w.OnCourse left) (hw : ¬ w.IsDone) :
    (∃ w', w.Step cache t w') ∨
      ∃ key m, w.awaits = some (key, m) ∧ ∃ u ∈ t, m ∈ u.mutexes := by
  obtain ⟨l, rest, awaits, holds, released⟩ := w
  -- what is asked for next decides
  cases rest with
  | done outcome => exact absurd ⟨outcome, rfl⟩ hw
  | ask r next =>
    -- a caller that waits for nothing asks for its next request, and the cache answers
    cases awaits with
    | none =>
      left
      cases hr : r.onMonitor with
      | false =>
        obtain ⟨answer⟩ := r.nonempty_answer
        exact ⟨_, .work hr answer next holds released⟩
      | true =>
        cases r with
        | lockKey key =>
          obtain ⟨m, hget⟩ := hcache.answers t ht key
          exact ⟨_, .await hget next holds released⟩
        | unlockKey key => exact ⟨_, .release next holds released⟩
        | _ => cases hr
    | some use =>
      -- a caller that waits takes the mutex as soon as nobody has it
      obtain ⟨key, m⟩ := use
      obtain ⟨next', hrest⟩ := h.awaits (key, m) rfl
      cases hrest
      by_cases hfree : ∀ u ∈ t, m ∉ u.mutexes
      · exact .inl ⟨_, .acquire hfree next' holds released⟩
      · push Not at hfree
        exact .inr ⟨key, m, rfl, hfree⟩

namespace Callers

/-- **There is no deadlock.** -/
theorem Orderly.exists_step (hcache : cache.Sound) (h : t.Orderly) (hw : ∃ w ∈ t, ¬ w.IsDone) :
    ∃ w ∈ t, ∃ w', w.Step cache t w' := by
  -- suppose nobody can go on; then everyone who is not done waits for a mutex that someone holds
  by_contra hstuck
  push Not at hstuck
  have hwaits : ∀ w ∈ t, ¬ w.IsDone →
      ∃ key m, w.awaits = some (key, m) ∧ ∃ u ∈ t, m ∈ u.mutexes := by
    intro w hw hdone
    obtain ⟨left, hcourse⟩ := h.onCourse w hw
    refine (hcourse.step_or_waits hcache h.exclusive.regular hdone).resolve_left ?_
    rintro ⟨w', hstep⟩
    exact hstuck w hw w' hstep
  -- among the keys that are waited for one precedes none of the others
  let keys : List Key := t.filterMap fun w => w.awaits.map Prod.fst
  have hmem {w : Caller M α} {key : Key} {m : M} (hw : w ∈ t) (hawaits : w.awaits = some (key, m)) :
      key ∈ keys :=
    List.mem_filterMap.2 ⟨w, hw, by rw [hawaits]; rfl⟩
  have hkeys : keys ≠ [] := by
    obtain ⟨w, hw, hdone⟩ := hw
    obtain ⟨key, m, hawaits, -⟩ := hwaits w hw hdone
    exact List.ne_nil_of_mem (hmem hw hawaits)
  obtain ⟨last, hlast, hnone⟩ := exists_last hkeys
  obtain ⟨w, hw, hkey⟩ := List.mem_filterMap.1 hlast
  obtain ⟨⟨key, m⟩, hawaits, rfl⟩ := Option.map_eq_some_iff.1 hkey
  -- who holds its mutex took it for this key, and is not done
  have hawaiting : ¬ w.IsDone := by
    rintro ⟨outcome, hdone⟩
    obtain ⟨left, hcourse⟩ := h.onCourse w hw
    obtain ⟨next, hrest⟩ := hcourse.awaits _ hawaits
    rw [hdone] at hrest
    cases hrest
  obtain ⟨_, _, hawaits', u, hu, hm⟩ := hwaits w hw hawaiting
  cases hawaits.symm.trans hawaits'
  obtain ⟨x, hx, rfl⟩ := List.mem_map.1 hm
  have hsame : x.1 = key :=
    (h.exclusive.regular x (mem_uses_of_holds hu hx) _ (mem_uses_of_awaits hw hawaits)).2 rfl
  obtain ⟨left, hcourse⟩ := h.onCourse u hu
  -- who is done gave everything back
  have hworking : ¬ u.IsDone := by
    intro hdone
    rw [hcourse.holds_eq_nil hdone] at hx
    cases hx
  -- so it waits for a key behind this one
  obtain ⟨later, m', hlater, -⟩ := hwaits u hu hworking
  obtain ⟨next, hrest⟩ := hcourse.awaits _ hlater
  have hprecedes : key.precedes later = true :=
    hcourse.precedes hrest (List.mem_map.2 ⟨x, hx, hsame⟩)
  -- but no key that is waited for lies behind this one
  rw [hnone later (hmem hu hlater)] at hprecedes
  cases hprecedes

/-- **No key is held twice, a caller that took all its monitors holds exactly its keys, and there is
no deadlock**, whatever callers were started and in whatever order they went on. -/
theorem exclusive_and_live (hcache : cache.Sound) (h : Steps cache [] t) :
    (t.flatMap Caller.held).Nodup ∧
      (∀ w ∈ t, ¬ w.IsLocking → w.released = [] →
        w.held.Nodup ∧ ∀ key, key ∈ w.held ↔ key ∈ w.locking.keys) ∧
      (∀ w ∈ t, w.IsDone → w.held = []) ∧
      ((∃ w ∈ t, ¬ w.IsDone) → ∃ w ∈ t, ∃ w', w.Step cache t w') := by
  have horderly := orderly_of_steps hcache h
  refine ⟨horderly.exclusive.nodup_held, fun w hw hlocking hreleased => ?_, fun w hw hdone => ?_,
    horderly.exists_step hcache⟩
  · obtain ⟨left, hcourse⟩ := horderly.onCourse w hw
    have hheld := hcourse.held_reverse hlocking hreleased
    constructor
    · rw [← List.nodup_reverse, hheld]
      exact w.locking.nodup_order
    · intro key
      rw [← List.mem_reverse, hheld, Locking.mem_order]
  · obtain ⟨left, hcourse⟩ := horderly.onCourse w hw
    rw [Caller.held, hcourse.holds_eq_nil hdone, List.map_nil]

end Callers

/-- A cache that keeps a mutex for as long as it is used. -/
def MutexCache.plain : MutexCache Nat α :=
  fun t key m => ∀ x ∈ t.uses, x.1 = key ↔ x.2 = m

theorem MutexCache.sound_plain : (plain : MutexCache Nat α).Sound where
  steady t key m h x hx := (h x hx).1
  apart t key m h x hx := (h x hx).2
  answers t ht key := by
    by_cases hused : ∃ x ∈ t.uses, x.1 = key
    · obtain ⟨x, hx, rfl⟩ := hused
      exact ⟨x.2, fun y hy => ht y hy x hx⟩
    · -- a mutex that nobody uses
      refine ⟨(t.uses.map Prod.snd).max?.getD 0 + 1, fun x hx => ?_⟩
      have hle : x.2 ≤ (t.uses.map Prod.snd).max?.getD 0 :=
        List.le_max?_getD_of_mem (List.mem_map_of_mem hx)
      constructor
      · intro hkey
        exact absurd ⟨x, hx, hkey⟩ hused
      · intro hm
        omega

namespace Callers

theorem exclusive_and_live_waiting :
    let resource : Resource := ⟨"rules", "alerting", "tenant-1"⟩
    let a := resource.key "a"
    let b := resource.key "b"
    let cache : MutexCache Nat Unit := .plain
    cache.Sound ∧ ∃ w u : Caller Nat Unit, w.locking = .all [b, a, b] ∧ u.awaits = some (b, 1) ∧
      Steps cache [] [u, w] ∧ w.held.Nodup ∧ (∀ key, key ∈ w.held ↔ key ∈ [b, a, b]) ∧
        ∃ v ∈ [u, w], ∃ v', v.Step cache [u, w] v' := by
  intro resource a b cache
  have hcache : cache.Sound := MutexCache.sound_plain
  let body : Action Unit := pure ()
  have hquiet : body.steps.Quiet := trivial
  have horder : (Locking.all [b, a, b]).order = [a, b] := by decide +kernel
  have hcaller : ((Locking.all [b, a, b]).caller body : Caller Nat Unit) =
      ⟨.all [b, a, b], (Action.holdingAll [a, b] body).steps, none, [], []⟩ := by
    rw [Locking.caller, Locking.around_eq, horder]
  have hstart : Steps cache [] [(Locking.all [b, a, b]).caller body] :=
    Relation.ReflTransGen.single (.start [] _ hquiet)
  rw [hcaller] at hstart
  have hfirst : ∀ x ∈ [(a, 0)], x.1 = b ↔ x.2 = 1 := List.forall_mem_singleton.2 (by decide)
  have hboth : ∀ x ∈ [(b, 1), (a, 0)], x.1 = b ↔ x.2 = 1 :=
    List.forall_mem_cons.2 ⟨by decide, hfirst⟩
  -- the first caller takes both monitors, and the second one waits for one of them
  have hgivenA := hstart.tail (.work [] [] (.await (m := 0) (fun x hx => by cases hx) _ _ _))
  have hholdsA := hgivenA.tail (.work [] []
    (.acquire (List.forall_mem_singleton.2 (by decide)) _ _ _))
  have hgivenB := hholdsA.tail (.work [] [] (.await (m := 1) hfirst _ _ _))
  have hholdsB := hgivenB.tail (.work [] []
    (.acquire (List.forall_mem_singleton.2 (by decide)) _ _ _))
  have hsecond := hholdsB.tail (.start _ (.one b) hquiet)
  have hwaiting := hsecond.tail (.work [] _ (.await (m := 1) hboth _ _ _))
  obtain ⟨-, hholds, -, hstep⟩ := exclusive_and_live hcache hwaiting
  refine ⟨hcache, _, _, rfl, rfl, hwaiting, ?_⟩
  have hall := hholds _ (List.mem_cons_of_mem _ List.mem_cons_self)
    (by rintro ⟨key, next, hrest⟩; cases hrest) rfl
  exact ⟨hall.1, hall.2, hstep ⟨_, List.mem_cons_self, by rintro ⟨outcome, hrest⟩; cases hrest⟩⟩

end Callers
end ConfigLedger
