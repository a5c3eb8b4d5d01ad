import ConfigLedger.Proofs.Store.Traffic

/-!
# Procedures among others

`Procedure.Secure Q p stored c` says of a procedure that has stored some versions already: as
long as everyone keeps the collection well formed and only adds to it (`Collection.Grows`), each
addition of the procedure keeps the collection well formed too, and when it is done, its result,
the versions that it has stored and the collection satisfy `Q`. It follows the procedure request
by request, and in front of each request the collection may have grown.

The rules for the combinators reduce this to single requests (`Procedure.secure_bind` and those
named after the combinators of `Action`). `Traffic.safe_of_reachable` is the reason for it all:
if every call is secure at its start, then whatever the order of steps, the collection is well
formed and what is left of each call is secure.
-/

namespace ConfigLedger

variable {α β : Type} {c c' c'' : Collection} {stored : List Document}

/-- A well-formed collection may become another one while others work on it. -/
structure Collection.Grows (c c' : Collection) : Prop where
  before : c.WellFormed
  after : c'.WellFormed
  few : c'.Few
  subset : c.documents ⊆ c'.documents

namespace Collection

theorem Grows.trans (h : c.Grows c') (h' : c'.Grows c'') : c.Grows c'' :=
  ⟨h.before, h'.after, h'.few, List.Subset.trans h.subset h'.subset⟩

theorem Grows.refl (h : c.WellFormed) (hfew : c.Few) : c.Grows c :=
  ⟨h, h, hfew, List.Subset.refl _⟩

theorem Grows.self (h : c.Grows c') : c'.Grows c' :=
  .refl h.after h.few

theorem Grows.below (h : c.Grows c') {d : Document} (hd : d ∈ c.documents) :
    c'.below d = c.below d :=
  h.before.numbered.below_of_subset h.after.numbered h.subset hd

theorem Few.of_subset (h : c'.Few) (hsub : c.documents ⊆ c'.documents) : c.Few := by
  intro key
  exact (length_history_le hsub key).trans_lt (h key)

end Collection

/-- What a procedure is to achieve; it may look at the result, the stored versions and the
collection. -/
abbrev Goal (α : Type) : Type :=
  α → List Document → Collection → Prop

/-- A goal that others cannot undo. -/
def Goal.Stable (Q : Goal α) : Prop :=
  ∀ ⦃a stored c c'⦄, Q a stored c → Collection.Grows c c' → Q a stored c'

namespace Procedure

/-- Among others that keep the collection well formed, the procedure keeps it well formed too and
achieves a goal. -/
def Secure (Q : Goal α) : Procedure α → List Document → Collection → Prop
  | done a, stored, c => Q a stored c
  | ask r next, stored, c => ∀ c' answer c'', c.Grows c' → c'.Served r answer c'' → c''.Few →
    c''.WellFormed ∧ (next answer).Secure Q (stored ++ c'.added c'') c''

theorem Secure.of_grows {Q : Goal α} (hQ : Q.Stable) {p : Procedure α} (h : p.Secure Q stored c)
    (hgrows : c.Grows c') : p.Secure Q stored c' := by
  cases p with
  | done a => exact hQ h hgrows
  | ask r next =>
    intro c₁ answer c₂ hgrows₁
    exact h c₁ answer c₂ (hgrows.trans hgrows₁)

theorem Secure.imp {Q R : Goal α} (hQR : ∀ a stored c, Q a stored c → R a stored c)
    {p : Procedure α} (h : p.Secure Q stored c) : p.Secure R stored c := by
  induction p generalizing stored c with
  | done a => exact hQR a stored c h
  | ask r next ih =>
    -- the same surroundings answer, so only the end is another one
    intro c₁ answer c₂ hgrows hserved hfew
    obtain ⟨hwell, hnext⟩ := h c₁ answer c₂ hgrows hserved hfew
    exact ⟨hwell, ih answer hnext⟩

/-- **Sequencing.** What comes first has to make what comes next secure. -/
theorem secure_bind {Q : Goal β} {p : Procedure α} {f : α → Procedure β} :
    (p.bind f).Secure Q stored c ↔ p.Secure (fun a => (f a).Secure Q) stored c := by
  induction p generalizing stored c with
  | done a => exact Iff.rfl
  | ask r next ih =>
    simp only [bind, Secure, ih]

/-- A request that adds nothing. -/
theorem secure_ask {Q : Goal α} {r : Request} {next : r.Answer → Procedure α}
    (hr : ∀ s : Setting, (s.serve r).2.medium = s.medium)
    (h : ∀ c' answer, c.Grows c' → c'.Served r answer c' → (next answer).Secure Q stored c') :
    (ask r next).Secure Q stored c := by
  intro c₁ answer c₂ hgrows hserved _
  obtain rfl := hserved.eq_of_noAddition hr
  rw [Collection.added_self, List.append_nil]
  exact ⟨hgrows.after, h _ answer hgrows hserved⟩

end Procedure

/-! ### Traffic of secure calls -/

/-- What is left of a call is secure. -/
def RunningCall.Secure (Q : (c : StoreCall) → Goal (Except StoreError c.Answer))
    (running : RunningCall) (c : Collection) : Prop :=
  running.rest.Secure (Q running.call) running.stored c

namespace Traffic

variable {Q : (c : StoreCall) → Goal (Except StoreError c.Answer)}

/-- The collection is well formed, and what is left of the calls is secure. -/
structure Safe (Q : (c : StoreCall) → Goal (Except StoreError c.Answer)) (t : Traffic) : Prop where
  wellFormed : t.collection.WellFormed
  secure : ∀ running ∈ t.calls, running.Secure Q t.collection

/-- **One step.** -/
theorem Safe.step (hQ : ∀ call, (Q call).Stable)
    (hstart : ∀ (call : StoreCall) (c : Collection), c.WellFormed → c.Few → call.started.Secure Q c)
    {t t' : Traffic} (h : t.Safe Q) (hstep : Step t t') (hfew : t'.collection.Few) : t'.Safe Q := by
  cases hstep with
  | start t call =>
    -- a call that begins is secure where it begins, and nothing has changed for the others
    refine ⟨h.wellFormed, fun running hrunning => ?_⟩
    rcases List.mem_cons.1 hrunning with rfl | hrunning
    · exact hstart call _ h.wellFormed hfew
    · exact h.secure running hrunning
  | @serve c c' r answer hserved before after call next stored =>
    -- versions were few before, since the collection only grows
    have hfew' : c.Few := hfew.of_subset hserved.subset
    have hown := h.secure ⟨call, .ask r next, stored⟩ (by simp)
    obtain ⟨hwell, hnext⟩ := hown c answer c' (.refl h.wellFormed hfew') hserved hfew
    have hgrows : c.Grows c' := ⟨h.wellFormed, hwell, hfew, hserved.subset⟩
    refine ⟨hwell, fun running hrunning => ?_⟩
    -- the call that was served has its next step behind it, the others see the collection grow
    rcases List.mem_append.1 hrunning with hbefore | hrunning
    · exact (h.secure running (List.mem_append_left _ hbefore)).of_grows (hQ _) hgrows
    · rcases List.mem_cons.1 hrunning with rfl | hafter
      · exact hnext
      · exact (h.secure running (by simp [hafter])).of_grows (hQ _) hgrows

/-- **All steps.** If every call is secure at its start, then every reachable traffic is safe. -/
theorem safe_of_reachable (hQ : ∀ call, (Q call).Stable)
    (hstart : ∀ (call : StoreCall) (c : Collection), c.WellFormed → c.Few → call.started.Secure Q c)
    {t : Traffic} (h : Reachable t) (hfew : t.collection.Few) : t.Safe Q := by
  induction h with
  | refl => exact ⟨.empty, by simp [empty]⟩
  | tail _ hstep ih => exact (ih (hfew.of_subset hstep.subset)).step hQ hstart hstep hfew

end Traffic
end ConfigLedger
