import ConfigLedger.Proofs.Store.GuardedCalls

/-!
# Tallies of conflicts

`Procedure.Tallies Q p` says that the result of the procedure `p` and the number of conflicts that
it counts on the way fit each other as `Q` asks for, whatever the surroundings answer. The only
answers left out are those that no backend gives: that a version is taken is said of a document to
be added without a condition, alone or among others, and of nothing else (`Request.Permits`).

Of an action two things are asked. Either it is calm (`Action.Calm`): it counts nothing and answers
no conflict. Or it says how much is counted for each way of ending (`Action.Counts k w`): `k` for a
conflict, `w a` for a result `a`, and nothing otherwise. There is one rule for each request and one
for each combinator.
-/

namespace ConfigLedger

variable {α β : Type}

/-! ### Conflicts -/

instance decidableConflict : (outcome : Except StoreError α) → Decidable (Conflict outcome)
  | .error (.conflict detail) => isTrue ⟨detail, rfl⟩
  | .ok _ | .error (.notFound _) | .error (.invalidArgument _) | .error (.alreadyExists _)
  | .error (.aborted _) | .error (.unavailable _) | .error .deadlineExceeded
  | .error (.internal _) => isFalse fun ⟨_, h⟩ => nomatch h

/-- Whether an error is a conflict does not depend on the result that it stands for. -/
theorem conflict_error_iff {e : StoreError} :
    Conflict (.error e : Except StoreError α) ↔ Conflict (.error e : Except StoreError β) := by
  simp [Conflict]

namespace BackendError

/-- The version of a document is stored already. -/
def Taken (e : BackendError) : Prop :=
  ∃ key version, e = .duplicateVersion key version

instance decidableTaken : (e : BackendError) → Decidable e.Taken
  | .duplicateVersion key version => isTrue ⟨key, version, rfl⟩
  | .io _ | .encode _ | .decode _ | .unavailable _ => isFalse fun ⟨_, _, h⟩ => nomatch h

end BackendError

/-- A version that is taken is a conflict, and of what a backend answers nothing else is. -/
theorem conflict_ofBackend_iff {e : BackendError} :
    Conflict (.error (.ofBackend e) : Except StoreError α) ↔ e.Taken := by
  constructor
  · rintro ⟨detail, h⟩
    cases e with
    | duplicateVersion key version => exact ⟨key, version, rfl⟩
    | _ => cases h
  · rintro ⟨key, version, rfl⟩
    exact ⟨_, rfl⟩

/-- How much is counted for the way in which an action ends, where a conflict counts for `k` and a
result for what `w` says. -/
def tally (k : Nat) (w : α → Nat) : Option (Except StoreError α) → Nat
  | some (.ok a) => w a
  | some (.error e) => if Conflict (.error e : Except StoreError α) then k else 0
  | none => 0

theorem tally_of_not_conflict {k : Nat} {w : α → Nat} {e : StoreError}
    (h : ¬ Conflict (.error e : Except StoreError α)) : tally k w (some (.error e)) = 0 :=
  if_neg h

theorem tally_of_conflict {k : Nat} {w : α → Nat} {e : StoreError}
    (h : Conflict (.error e : Except StoreError α)) : tally k w (some (.error e)) = k :=
  if_pos h

theorem tally_zero (outcome : Option (Except StoreError α)) :
    tally 0 (fun _ => 0) outcome = 0 := by
  rcases outcome with _ | (e | a)
  · rfl
  · exact ite_self 0
  · rfl

/-- To pass an error on changes nothing. -/
theorem tally_error {k : Nat} {w : α → Nat} {w' : β → Nat} (e : StoreError) :
    tally k w (some (.error e)) = tally k w' (some (.error e)) := by
  simp only [tally, conflict_error_iff (α := α) (β := β)]

/-! ### Requests -/

namespace Request

/-- What a request adds to the count of conflicts. -/
def tally : Request → Nat
  | record .writeConflict => 1
  | _ => 0

/-- The answer does not say that a version is taken, unless it is about a document that is to be
added without a condition. -/
def Permits : (r : Request) → r.Answer → Prop
  | find _, reply => ∀ e, reply = some (.error e) → ¬ e.Taken
  | insertIf _ _, reply => ∀ e, reply = some (.error e) → ¬ e.Taken
  | insertAll _, reply => ∀ e, reply = some (.error e) → ¬ e.Taken
  | _, _ => True

end Request

/-- The surroundings have a meter that counts conflicts, and they answer as they may. -/
structure Metered {σ : Type} (serve : (r : Request) → σ → r.Answer × σ) (meter : σ → Nat) :
    Prop where
  permits : ∀ (r : Request) s, r.Permits (serve r s).1
  counts : ∀ (r : Request) s, meter (serve r s).2 = meter s + r.tally

/-! ### Procedures -/

namespace Procedure

/-- Whatever is answered, the result and the number of conflicts that are counted fit each other. -/
def Tallies (Q : α → Nat → Prop) : Procedure α → Prop
  | done a => Q a 0
  | ask r next => ∀ answer, r.Permits answer →
    (next answer).Tallies fun a n => Q a (r.tally + n)

theorem Tallies.imp {Q R : α → Nat → Prop} (hQR : ∀ a n, Q a n → R a n) {p : Procedure α}
    (h : p.Tallies Q) : p.Tallies R := by
  induction p generalizing Q R with
  | done a => exact hQR a 0 h
  | ask r next ih => exact fun answer hr => ih answer (fun a n => hQR a _) (h answer hr)

/-- **Sequencing.** -/
theorem tallies_bind {Q : β → Nat → Prop} {p : Procedure α} {f : α → Procedure β} :
    (p.bind f).Tallies Q ↔ p.Tallies fun a n => (f a).Tallies fun b m => Q b (n + m) := by
  induction p generalizing Q with
  | done a => simp only [bind, Tallies, Nat.zero_add]
  | ask r next ih => simp only [bind, Tallies, ih, Nat.add_assoc]

/-- **A run in metered surroundings.** The meter grows by the number of conflicts that are
counted. -/
theorem Tallies.run {σ : Type} {serve : (r : Request) → σ → r.Answer × σ} {meter : σ → Nat}
    (hm : Metered serve meter) {Q : α → Nat → Prop} {p : Procedure α} (h : p.Tallies Q) (s : σ) :
    ∃ n, meter (p.run serve s).2 = meter s + n ∧ Q (p.run serve s).1 n := by
  -- by induction on the requests: each of them is metered, and the rest counts on
  induction p generalizing Q s with
  | done a => exact ⟨0, rfl, h⟩
  | ask r next ih =>
    obtain ⟨n, hn, hQ⟩ := ih _ (h _ (hm.permits r s)) (serve r s).2
    refine ⟨r.tally + n, ?_, hQ⟩
    rw [← Nat.add_assoc, ← hm.counts]
    exact hn

end Procedure

/-! ### Actions -/

namespace Action

/-- The action ended with a result that has a property, with an error that is no conflict, or cut
off. -/
def Peaceful (R : α → Prop) : Option (Except StoreError α) → Prop
  | some (.ok a) => R a
  | some (.error e) => ¬ Conflict (.error e : Except StoreError α)
  | none => True

/-- The action counts nothing, answers no conflict, and its results have a property. -/
def Calm (R : α → Prop) (a : Action α) : Prop :=
  a.steps.Tallies fun outcome n => n = 0 ∧ Peaceful R outcome

/-- The action counts `k` for a conflict that it answers, and for a result what `w` says. -/
def Counts (k : Nat) (w : α → Nat) (a : Action α) : Prop :=
  a.steps.Tallies fun outcome n => n = tally k w outcome

variable {k : Nat} {w : α → Nat} {R : α → Prop} {a : Action α}

/-! #### Sequencing -/

theorem calm_bind {S : β → Prop} {f : α → Action β} (ha : a.Calm R)
    (hf : ∀ x, R x → (f x).Calm S) : (a >>= f).Calm S := by
  rw [Calm, steps_bind, Procedure.tallies_bind]
  refine Procedure.Tallies.imp (fun outcome n h => ?_) ha
  obtain ⟨rfl, hR⟩ := h
  -- no conflict has been counted so far, so the count of what follows is that of both
  simp only [Nat.zero_add]
  rcases outcome with _ | (e | x)
  · -- a deadline or an error ends the action, and neither is a conflict
    exact ⟨rfl, trivial⟩
  · exact ⟨rfl, mt conflict_error_iff.1 hR⟩
  · exact hf x hR

/-- What is calm goes in front of what counts. -/
theorem Calm.counts_bind {v : β → Nat} {f : α → Action β} (ha : a.Calm R)
    (hf : ∀ x, R x → (f x).Counts k v) : (a >>= f).Counts k v := by
  rw [Counts, steps_bind, Procedure.tallies_bind]
  refine Procedure.Tallies.imp (fun outcome n h => ?_) ha
  obtain ⟨rfl, hR⟩ := h
  simp only [Nat.zero_add]
  -- what ends early is not a conflict, which counts as nothing
  rcases outcome with _ | (e | x)
  · rfl
  · exact (tally_of_not_conflict (mt conflict_error_iff.1 hR)).symm
  · exact hf x hR

/-- What counts nothing for its results goes in front of what counts as well. -/
theorem counts_bind {v : β → Nat} {f : α → Action β} (ha : a.Counts k fun _ => 0)
    (hf : ∀ x, (f x).Counts k v) : (a >>= f).Counts k v := by
  rw [Counts, steps_bind, Procedure.tallies_bind]
  refine Procedure.Tallies.imp (fun outcome n h => ?_) ha
  obtain rfl : n = _ := h
  -- where the first action ends, its count is the whole count
  rcases outcome with _ | (e | x)
  · rfl
  · exact tally_error (w := fun _ => 0) e
  · -- where it goes on, it has counted nothing
    simp only [tally, Nat.zero_add]
    exact hf x

/-! #### Ends -/

theorem calm_pure {x : α} (h : R x) : (pure x : Action α).Calm R :=
  ⟨rfl, h⟩

theorem calm_ofExcept {outcome : Except StoreError α} (h : ¬ Conflict outcome)
    (hR : ∀ x, outcome = .ok x → R x) : (ofExcept outcome).Calm R := by
  cases outcome with
  | error e => exact ⟨rfl, h⟩
  | ok x => exact ⟨rfl, hR x rfl⟩

theorem Calm.imp {S : α → Prop} (hRS : ∀ x, R x → S x) (h : a.Calm R) : a.Calm S := by
  refine Procedure.Tallies.imp (fun outcome n hn => ⟨hn.1, ?_⟩) h
  rcases outcome with _ | (e | x)
  · trivial
  · exact hn.2
  · exact hRS x hn.2

/-- What is calm counts nothing. -/
theorem Calm.counts (h : a.Calm R) : a.Counts k fun _ => 0 := by
  refine Procedure.Tallies.imp (fun outcome n hn => ?_) h
  obtain ⟨rfl, hR⟩ := hn
  rcases outcome with _ | (e | x)
  · rfl
  · exact (tally_of_not_conflict hR).symm
  · rfl

/-- An attempt at what is calm has a result or an error that is no conflict. -/
theorem calm_attempt (h : a.Calm R) : a.attempt.Calm fun outcome => Peaceful R (some outcome) := by
  refine Procedure.tallies_bind.2 (Procedure.Tallies.imp (fun outcome n hn => ?_) h)
  obtain ⟨rfl, hR⟩ := hn
  refine ⟨rfl, ?_⟩
  rcases outcome with _ | outcome
  · trivial
  · exact hR

/-! #### Requests -/

/-- A reply that is permitted ends an action calmly. -/
theorem peaceful_reply {reply : Reply α} (h : ∀ e, reply = some (.error e) → ¬ e.Taken) :
    Peaceful (fun _ => True) (reply.map (Except.mapError StoreError.ofBackend)) := by
  rcases reply with _ | (e | x)
  · trivial
  · exact mt conflict_ofBackend_iff.1 (h e rfl)
  · trivial

theorem calm_find (q : Query) : (find q).Calm fun _ => True :=
  fun _ hreply => ⟨rfl, peaceful_reply hreply⟩

theorem calm_insertIf (d : Document) (condition : Predicate) :
    (insertIf d condition).Calm fun _ => True :=
  fun _ hreply => ⟨rfl, peaceful_reply hreply⟩

theorem calm_insertAll (documents : List Document) : (insertAll documents).Calm fun _ => True :=
  fun _ hreply => ⟨rfl, peaceful_reply hreply⟩

theorem calm_now : now.Calm fun _ => True :=
  fun _ _ => ⟨rfl, trivial⟩

theorem calm_record {m : Measurement} (h : (Request.record m).tally = 0) :
    (record m).Calm fun _ => True :=
  fun _ _ => ⟨h, trivial⟩

/-- **A document is added without anything being counted**, also where its version is taken and the
answer is a conflict. -/
theorem counts_insert (d : Document) : (insert d).Counts 0 fun _ => 0 := by
  intro reply _
  exact (tally_zero (reply.map (Except.mapError StoreError.ofBackend))).symm

/-! #### Monitors -/

theorem counts_holding (key : Key) (h : a.Counts k w) : (holding key a).Counts k w := by
  intro granted _
  cases granted with
  | true =>
    -- taking and giving back the monitor adds nothing to the count
    change Procedure.Tallies _ (a.steps.bind _)
    refine Procedure.tallies_bind.2 (Procedure.Tallies.imp (fun outcome n hn => ?_) h)
    intro _ _
    change 0 + (n + (0 + 0)) = _
    rw [Nat.zero_add, Nat.add_zero]
    exact hn
  -- without the monitor nothing is done
  | false => rfl

theorem counts_holdingAll (keys : List Key) (h : a.Counts k w) :
    (holdingAll keys a).Counts k w := by
  induction keys with
  | nil => exact h
  | cons key keys ih => exact counts_holding key ih

end Action

/-! ### Calls -/

namespace Call

/-- The call counts `k` for a conflict that it answers, and for a result what `w` says. -/
def Counts (k : Nat) (w : α → Nat) (c : Call α) : Prop :=
  c.steps.Tallies fun outcome n => n = tally k w (some outcome)

variable {k : Nat} {w : α → Nat}

theorem counts_throw {e : StoreError} (h : ¬ Conflict (.error e : Except StoreError α)) :
    (throw e : Call α).Counts k w :=
  (tally_of_not_conflict h).symm

/-- A measurement goes in front of what counts. -/
theorem counts_record_bind {m : Measurement} (hm : (Request.record m).tally = 0)
    {f : Unit → Call α} (hf : (f ()).Counts k w) : (record m >>= f).Counts k w := by
  intro _ _
  simp only [hm, Nat.zero_add]
  exact hf

end Call

/-- **A deadline** changes nothing: what is cut off counted nothing and answers no conflict. -/
theorem Action.Counts.bounded {k : Nat} {w : α → Nat} {a : Action α} (operation : Operation)
    (h : a.Counts k w) : (bounded operation a).Counts k w := by
  refine Procedure.tallies_bind.2 (Procedure.Tallies.imp (fun outcome n hn => ?_) h)
  intro _ _ _ _
  change n + (0 + (0 + 0)) = _
  rw [Nat.add_zero, show n = _ from hn]
  rcases outcome with _ | outcome
  · exact (tally_of_not_conflict (by rintro ⟨detail, h⟩; cases h)).symm
  · rfl

end ConfigLedger
