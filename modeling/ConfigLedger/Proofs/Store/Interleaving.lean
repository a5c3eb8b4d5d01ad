import ConfigLedger.Proofs.Store.Refinement
import ConfigLedger.Proofs.Store.SecureCalls

/-!
# Every order of steps

However the steps of any calls interleave, starting with an empty collection, the collection is
well formed at every time and nothing that is stored is ever lost
(`Traffic.wellFormed_of_reachable`). Every call that has ended is justified by what it has stored,
and together the calls have stored what the collection holds (`Traffic.justified_of_reachable`).

Calls that are made one after the other are one of these orders
(`Traffic.exists_reachable_runAll`).
-/

namespace ConfigLedger

variable {c c' : Collection} {s : Setting}

/-- The call has ended with an outcome. -/
def RunningCall.Ended (running : RunningCall) (answer : StoreCall.Answered) : Prop :=
  ∃ stored, running = ⟨answer.1, .done answer.2, stored⟩

namespace Traffic

/-! ### Calls one after the other -/

/-- What is left of a call may be run without any other call in between. -/
theorem steps_run {call : StoreCall} (p : Procedure (Except StoreError call.Answer))
    (hs : s.medium = .memory c none) (stored : List Document) (others : List RunningCall) :
    ∃ c' stored', (p.run Setting.serve s).2.medium = .memory c' none ∧
      Steps ⟨c, ⟨call, p, stored⟩ :: others⟩
        ⟨c', ⟨call, .done (p.run Setting.serve s).1, stored'⟩ :: others⟩ := by
  induction p generalizing s c stored with
  | done a => exact ⟨c, stored, hs, .refl⟩
  | ask r next ih =>
    -- the next request is served as the run serves it
    obtain ⟨c₁, hs₁, -⟩ := Setting.serve_memory hs r
    obtain ⟨c₂, stored₂, hs₂, hsteps⟩ := ih (s.serve r).1 hs₁ (stored ++ c.added c₁)
    refine ⟨c₂, stored₂, hs₂, .head ?_ hsteps⟩
    exact .serve ⟨s, (s.serve r).2, hs, hs₁, rfl⟩ [] others call next stored

/-- **Calls that are made one after the other** are one of the ways in which calls interleave. -/
theorem exists_steps_runAll (calls : List StoreCall) (hs : s.medium = .memory c none)
    (earlier : List RunningCall) :
    ∃ t, Steps ⟨c, earlier⟩ t ∧ (StoreCall.runAll calls s).2.medium = .memory t.collection none ∧
      earlier ⊆ t.calls ∧
      ∀ answer ∈ (StoreCall.runAll calls s).1, ∃ running ∈ t.calls, running.Ended answer := by
  induction calls generalizing s c earlier with
  | nil => exact ⟨_, .refl, hs, List.Subset.refl _, by simp [StoreCall.runAll]⟩
  | cons call rest ih =>
    have hstart : Step ⟨c, earlier⟩ ⟨c, call.started :: earlier⟩ := .start ⟨c, earlier⟩ call
    -- the call is started and run to its end before the next one starts
    -- run by itself the call ends as in the traffic, as its batch is taken apart in both
    obtain ⟨c₁, stored, hs₁, hcall⟩ := steps_run call.call.steps.elementwise hs [] earlier
    rw [Procedure.run_elementwise _ hs] at hs₁ hcall
    obtain ⟨t, hrest, hend, hsub, hended⟩ :=
      ih hs₁ (⟨call, .done (call.call.run s).1, stored⟩ :: earlier)
    refine ⟨t, .head hstart (hcall.trans hrest), hend, ?_, ?_⟩
    · exact List.Subset.trans (List.subset_cons_self _ _) hsub
    · -- its own answer stands among those of the earlier calls by the time the rest ends
      intro answer hanswer
      rcases List.mem_cons.1 hanswer with rfl | hanswer
      · exact ⟨_, hsub List.mem_cons_self, stored, rfl⟩
      · exact hended answer hanswer

/-! ### Any order -/

/-- What the calls have stored is what the collection holds. -/
theorem perm_stored_of_reachable {t : Traffic} (h : Reachable t) :
    (t.calls.flatMap RunningCall.stored).Perm t.collection.documents := by
  induction h with
  | refl => exact .nil
  | tail _ hstep ih =>
    cases hstep with
    -- a call that starts has stored nothing
    | start t c => exact ih
    | @serve c c' r answer hserved before after call next stored =>
      -- what the step added is what the call has stored in addition
      have hmoved : ((before ++ ⟨call, next answer, stored ++ c.added c'⟩ :: after).flatMap
          RunningCall.stored).Perm ((before ++ ⟨call, .ask r next, stored⟩ :: after).flatMap
            RunningCall.stored ++ c.added c') := by
        simp only [List.flatMap_append, List.flatMap_cons, List.append_assoc]
        exact (List.perm_append_comm.append_left _).append_left _
      exact (hmoved.trans (ih.append_right _)).trans (Collection.perm_append_added hserved.subset)

/-- A key is written and deleted. -/
theorem exists_reachable_write_delete :
    let key : Key := ⟨⟨"name", "space", "tenant"⟩, "context"⟩
    let author : Author := ⟨"id", "email"⟩
    let written : Record := ⟨key, 1, .bool true, author, 7, 7⟩
    ∃ t, Reachable t ∧ t.collection.Few ∧ (t.collection.history key).length = 2 ∧
      ∃ stored, ⟨.delete author key, .done (.ok (some written)), stored⟩ ∈ t.calls := by
  intro key author written
  have hlow : (Ledger.answerAll { readings := fun _ => 7 }
      [.write author key (.bool true) none, .delete author key]).2.Low :=
    Ledger.Low.advance (Ledger.Low.advance (Ledger.low_empty _) (by decide) _) (by decide) none
  -- what is answered is known from the ledger
  obtain ⟨hanswers, hend⟩ := StoreCall.simulates_runAll
    (StoreCall.simulates_empty (fun _ => 7) ⟨1, []⟩) _ (.inr hlow)
  -- the same calls as steps of a traffic
  obtain ⟨t, hreachable, hmedium, -, hended⟩ := exists_steps_runAll
    [.write author key (.bool true) none, .delete author key]
    (s := ⟨.memory .empty none, fun _ => 7, {}, ⟨1, []⟩⟩) rfl []
  -- the ledger counts few versions, so the collection has few as well
  have hfew := hend.few_iff.2 hlow
  obtain ⟨c, hc, hrepresents⟩ := hend.medium
  rw [hmedium] at hfew hc
  cases hc
  refine ⟨t, hreachable, hfew, (hrepresents.counter key).symm.trans rfl, ?_⟩
  obtain ⟨_, hmem, stored, rfl⟩ := hended ⟨.delete author key, .ok (some written)⟩ (by
    rw [hanswers]
    exact List.mem_cons_of_mem _ List.mem_cons_self)
  exact ⟨stored, hmem⟩

/-- **Histories stay well formed.** Whatever calls were started and in whatever order their steps
were made, every history is numbered from one on without gaps, its first version lives, each
version succeeds the one directly below it, and what is stored once is stored for ever. -/
theorem wellFormed_of_reachable {t : Traffic} (h : Reachable t) (hfew : t.collection.Few) :
    t.collection.WellFormed ∧
      (∀ d ∈ t.collection.documents, d.version = 1 → d.isTombstone = false) ∧
      ∀ t', Steps t t' → t.collection.documents ⊆ t'.collection.documents := by
  have hsafe := safe_of_reachable StoreCall.Justified.stable
    (fun call c hwell hfew => StoreCall.secure_started (.refl hwell hfew) call) h hfew
  refine ⟨hsafe.wellFormed, fun d hd hone => ?_, fun t' hsteps => hsteps.subset⟩
  exact hsafe.wellFormed.live_of_version_eq_one hd hone

theorem wellFormed_of_reachable_write_delete :
    ∃ t key, Reachable t ∧ (t.collection.history key).length = 2 ∧ t.collection.WellFormed := by
  obtain ⟨t, hreachable, hfew, hlength, -⟩ := exists_reachable_write_delete
  exact ⟨t, _, hreachable, hlength, (wellFormed_of_reachable hreachable hfew).1⟩

/-- **No update is lost.** Whatever calls were started and in whatever order their steps were made,
each version comes from one of the calls, and every call that has ended is justified by the versions
that it has stored. -/
theorem justified_of_reachable {t : Traffic} (h : Reachable t) (hfew : t.collection.Few) :
    (t.calls.flatMap RunningCall.stored).Perm t.collection.documents ∧
      ∀ (call : StoreCall) (outcome : Except StoreError call.Answer) (stored : List Document),
        ⟨call, .done outcome, stored⟩ ∈ t.calls → call.Justified outcome stored t.collection := by
  have hsafe := safe_of_reachable StoreCall.Justified.stable
    (fun call c hwell hfew => StoreCall.secure_started (.refl hwell hfew) call) h hfew
  exact ⟨perm_stored_of_reachable h, fun call outcome stored hmem => hsafe.secure _ hmem⟩

theorem justified_of_reachable_write_delete :
    ∃ t author key r stored, Reachable t ∧
      ⟨.delete author key, .done (.ok (some r)), stored⟩ ∈ t.calls ∧
        DeleteJustified key (.ok (some r)) stored t.collection := by
  obtain ⟨t, hreachable, hfew, -, stored, hmem⟩ := exists_reachable_write_delete
  exact ⟨t, _, _, _, stored, hreachable, hmem,
    (justified_of_reachable hreachable hfew).2 _ _ _ hmem⟩

end Traffic
end ConfigLedger
