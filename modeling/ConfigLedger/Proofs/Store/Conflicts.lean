import ConfigLedger.Proofs.Store.GuardedCalls

/-!
# Conflicts

A version is refused if it is taken, and the store answers that as a conflict. Can it come about
because two calls compute the next version of one key at the same time?

It cannot, where calls wait for the monitors of their keys and the versions can be told apart
(`Crew.excused_of_steps`). Whatever the collection held at first, whatever calls were started and in
whatever order their steps were made, a conflict is answered only to a write with a precondition,
and only if the newest version of its key did not live or did not meet the precondition when the
write saw it under the monitor.
-/

namespace ConfigLedger

/-- A cache that has one mutex for each key, which the key itself stands for. -/
def Cache.byKey : Cache Key :=
  fun t key m => m = key ∧ ∀ w ∈ t.workers, ∀ m', (key, m') ∈ w.uses → m' = key

theorem Cache.steady_byKey : Cache.byKey.Steady := by
  rintro t key m ⟨rfl, hsame⟩
  exact hsame

namespace Crew

variable {M : Type} {cache : Cache M} {c : Collection} {t : Crew M}

/-- **A conflict is never the result of a race.** -/
theorem excused_of_steps (hcache : cache.Steady) (h : Steps cache ⟨c, []⟩ t)
    (hexact : t.collection.Exact) {call : StoreCall} {outcome : Except StoreError call.Answer}
    {awaits : Option (Key × M)} {holds : List (Key × M)} {sightings : List Sighting}
    (hended : ⟨call, .done outcome, awaits, holds, sightings⟩ ∈ t.workers)
    (hconflict : call.Conflicts outcome) :
    ∃ author key value f, call = .write author key value (some f) ∧
      ∃ seen, sightings = [seen] ∧ seen.query = key.latestQuery ∧ key ∈ seen.held ∧
        ¬ seen.collection.Meets key f :=
  guarded_of_steps hcache StoreCall.guarded_worker h hexact _ hended hconflict

/-- A write with a precondition finds no version, while a deletion waits for the monitor. -/
theorem steps_write_delete :
    let key : Key := ⟨⟨"name", "space", "tenant"⟩, "context"⟩
    let author : Author := ⟨"id", "email"⟩
    let call : StoreCall := .write author key (.string "next")
      (some (.relational "level" .equalTo (.string "high")))
    Steps .byKey ⟨.empty, []⟩ ⟨.empty,
      [⟨.delete author key, (Store.delete author key).steps.elementwise, some (key, key), [], []⟩,
        ⟨call, .done (.error (.conflict ("precondition failed for " ++ key.label))), none, [],
          [⟨key.latestQuery, [key], .empty⟩]⟩]⟩ := by
  intro key author call
  -- how the requests of the write are served, at time zero
  let idle : Setting := ⟨.memory .empty none, fun _ => 0, {}, ⟨1, []⟩⟩
  have hfind : Collection.empty.find key.latestQuery = [] := by
    simp [Collection.find, Query.select, Collection.empty, Key.latestQuery, sortBy]
  have hfound : Collection.empty.Served (.find key.latestQuery) (some (.ok [])) .empty :=
    ⟨idle, _, rfl, rfl, by rw [← hfind]; rfl⟩
  have hnow : Collection.empty.Served .now (0 : UInt64) .empty := ⟨idle, _, rfl, rfl, rfl⟩
  have hrecord (m : Measurement) : Collection.empty.Served (.record m) () .empty :=
    ⟨idle, _, rfl, rfl, rfl⟩
  let seen : Sighting := ⟨key.latestQuery, [key], .empty⟩
  let waiting : Worker Key :=
    ⟨.delete author key, (Store.delete author key).steps.elementwise, some (key, key), [], []⟩
  -- the write is given the mutex of the key, takes it, and finds that there is no version
  have h₁ : Steps .byKey ⟨.empty, []⟩ ⟨.empty, [⟨call, _, some (key, key), [], []⟩]⟩ :=
    (Relation.ReflTransGen.single (.start _ call)).tail
      (.work [] [] (.await ⟨rfl, by simp [Worker.uses]⟩ _ [] []))
  have h₂ : Steps .byKey ⟨.empty, []⟩ ⟨.empty, [⟨call, _, none, [(key, key)], []⟩]⟩ :=
    h₁.tail (.work [] [] (.acquire (by simp [Worker.mutexes]) _ [] []))
  have h₃ : Steps .byKey ⟨.empty, []⟩ ⟨.empty, [⟨call, _, none, [(key, key)], [seen]⟩]⟩ :=
    h₂.tail (.work [] [] (.serve rfl hfound _ _ []))
  -- the deletion is given the mutex that the write holds, and has to wait
  have h₄ : Steps .byKey ⟨.empty, []⟩ ⟨.empty, [waiting, ⟨call, _, none, [(key, key)], [seen]⟩]⟩ :=
    (h₃.tail (.start _ (.delete author key))).tail
      (.work [] [_] (.await ⟨rfl, by simp [Worker.uses, StoreCall.worker]⟩ _ [] []))
  -- while it waits, the write goes on to its end: it reads the clock and counts the conflict
  have h₅ : Steps .byKey ⟨.empty, []⟩ ⟨.empty, [waiting, ⟨call, _, none, [(key, key)], [seen]⟩]⟩ :=
    h₄.tail (.work [waiting] [] (.serve rfl hnow _ _ _))
  have h₆ : Steps .byKey ⟨.empty, []⟩ ⟨.empty, [waiting, ⟨call, _, none, [(key, key)], [seen]⟩]⟩ :=
    h₅.tail (.work [waiting] [] (.serve rfl (hrecord _) _ _ _))
  -- it gives the monitor back
  have h₇ : Steps .byKey ⟨.empty, []⟩ ⟨.empty, [waiting, ⟨call, _, none, [], [seen]⟩]⟩ :=
    h₆.tail (.work [waiting] [] (.release _ _ _))
  -- and reports how long it took and how it ended
  have h₈ : Steps .byKey ⟨.empty, []⟩ ⟨.empty, [waiting, ⟨call, _, none, [], [seen]⟩]⟩ :=
    h₇.tail (.work [waiting] [] (.serve rfl (hrecord _) _ _ _))
  exact h₈.tail (.work [waiting] [] (.serve rfl (hrecord _) _ _ _))

theorem excused_of_steps_write_delete :
    ∃ (t : Crew Key) (call : StoreCall) (outcome : Except StoreError call.Answer)
      (sightings : List Sighting),
      Cache.byKey.Steady ∧ Steps .byKey ⟨.empty, []⟩ t ∧ t.collection.Exact ∧
        ⟨call, .done outcome, none, [], sightings⟩ ∈ t.workers ∧ call.Conflicts outcome ∧
          ∃ author key value f, call = .write author key value (some f) ∧
            ∃ seen, sightings = [seen] ∧ seen.query = key.latestQuery ∧ key ∈ seen.held ∧
              ¬ seen.collection.Meets key f := by
  have hsteps := steps_write_delete
  have hexact : Collection.empty.Exact := fun d hd => nomatch hd
  refine ⟨_, _, _, _, Cache.steady_byKey, hsteps, hexact, List.mem_cons_of_mem _ List.mem_cons_self,
    ⟨_, rfl⟩, ?_⟩
  -- the theorem is applied to the state that was reached
  exact excused_of_steps Cache.steady_byKey hsteps hexact
    (List.mem_cons_of_mem _ List.mem_cons_self) ⟨_, rfl⟩

end Crew
end ConfigLedger
