import ConfigLedger.Proofs.Store.Crew

/-!
# Procedures under monitors

`Procedure.Guarded Q p held log c` says of a procedure that holds the monitors of some keys: as long
as the others leave the histories of these keys alone (`Collection.Kept`), the procedure leaves the
histories of all other keys alone, and when it is done, `Q` holds of its result, of the monitors
that it then holds, of what it saw and of the collection. It follows the procedure request by
request, and in front of each request the collection may have become another one.

What the procedure relies on and what it guarantees fit together because no key is held twice.
So if every call is guarded at its start, then whatever the order of steps, what is left of each
call is guarded (`Crew.guarded_of_steps`). As in `Procedure.Secure`, there is a rule for each
combinator, which reduces calls to single requests.
-/

namespace ConfigLedger

variable {α β : Type} {c c' c'' : Collection} {held : List Key} {log : List Sighting} {key : Key}

/-! ### What is relied on -/

/-- The histories of keys whose monitors are held stay as they are. -/
structure Collection.Kept (c : Collection) (held : List Key) (c' : Collection) : Prop where
  exact : c'.Exact
  history : ∀ key ∈ held, c'.history key = c.history key

namespace Collection

theorem Kept.refl (h : c.Exact) : c.Kept held c :=
  ⟨h, fun _ _ => rfl⟩

theorem Kept.trans (h : c.Kept held c') (h' : c'.Kept held c'') : c.Kept held c'' :=
  ⟨h'.exact, fun key hkey => (h'.history key hkey).trans (h.history key hkey)⟩

theorem Kept.newest (h : c.Kept held c') (hkey : key ∈ held) : c'.newest key = c.newest key := by
  rw [Collection.newest, Collection.newest, h.history key hkey]

theorem Exact.of_subset (h : c'.Exact) (hsub : c.documents ⊆ c'.documents) : c.Exact :=
  fun d hd => h d (hsub hd)

end Collection

/-- What a procedure is to achieve; it may look at the result, the keys that are held, what was seen
and the collection. -/
abbrev Aim (α : Type) : Type :=
  α → List Key → List Sighting → Collection → Prop

/-- An aim that others cannot undo. -/
def Aim.Stable (Q : Aim α) : Prop :=
  ∀ ⦃a held log c c'⦄, Q a held log c → Collection.Kept c held c' → Q a held log c'

/-- An aim that looks at the result and at what was seen. -/
def Aim.ofResult (R : α → List Sighting → Prop) : Aim α :=
  fun a _ log _ => R a log

theorem Aim.stable_ofResult (R : α → List Sighting → Prop) : (Aim.ofResult R).Stable :=
  fun _ _ _ _ _ h _ => h

namespace Request

/-- The keys that are held once a request was served. -/
def heldAfter (held : List Key) : Request → List Key
  | lockKey key => key :: held
  | unlockKey key => held.erase key
  | _ => held

/-- Who asks for a monitor is never turned away. -/
def Granted : (r : Request) → r.Answer → Prop
  | lockKey _, granted => (granted : Bool) = true
  | _, _ => True

theorem heldAfter_eq {r : Request} (hr : r.onMonitor = false) : r.heldAfter held = held := by
  cases r <;> first | rfl | cases hr

theorem granted {r : Request} (hr : r.onMonitor = false) (answer : r.Answer) :
    r.Granted answer := by
  cases r <;> first | exact trivial | cases hr

end Request

namespace Procedure

/-- Among others that leave the keys alone whose monitors it holds, the procedure leaves all other
keys alone and achieves an aim. -/
def Guarded (Q : Aim α) : Procedure α → List Key → List Sighting → Collection → Prop
  | done a, held, log, c => Q a held log c
  | ask r next, held, log, c => ∀ c' answer c'', c.Kept held c' → r.Granted answer →
    c'.Served r answer c'' → c''.Exact → (∀ key ∉ held, c''.history key = c'.history key) ∧
      (next answer).Guarded Q (r.heldAfter held) (log ++ r.sightings held c') c''

theorem Guarded.of_kept {Q : Aim α} (hQ : Q.Stable) {p : Procedure α} (h : p.Guarded Q held log c)
    (hkept : c.Kept held c') : p.Guarded Q held log c' := by
  cases p with
  | done a => exact hQ h hkept
  | ask r next =>
    intro c₁ answer c₂ hkept₁
    exact h c₁ answer c₂ (hkept.trans hkept₁)

theorem Guarded.imp {Q R : Aim α} (hQR : ∀ a held log c, Q a held log c → R a held log c)
    {p : Procedure α} (h : p.Guarded Q held log c) : p.Guarded R held log c := by
  induction p generalizing held log c with
  | done a => exact hQR a held log c h
  | ask r next ih =>
    intro c₁ answer c₂ hkept hgranted hserved hexact
    obtain ⟨hown, hnext⟩ := h c₁ answer c₂ hkept hgranted hserved hexact
    exact ⟨hown, ih answer hnext⟩

/-- **Sequencing.** -/
theorem guarded_bind {Q : Aim β} {p : Procedure α} {f : α → Procedure β} :
    (p.bind f).Guarded Q held log c ↔ p.Guarded (fun a => (f a).Guarded Q) held log c := by
  induction p generalizing held log c with
  | done a => exact Iff.rfl
  | ask r next ih => simp only [bind, Guarded, ih]

/-- A request that neither adds anything nor is about a monitor. -/
theorem guarded_ask {Q : Aim α} {r : Request} {next : r.Answer → Procedure α}
    (hr : r.onMonitor = false) (hserve : ∀ s : Setting, (s.serve r).2.medium = s.medium)
    (h : ∀ c' answer, c.Kept held c' → c'.Served r answer c' →
      (next answer).Guarded Q held (log ++ r.sightings held c') c') :
    (ask r next).Guarded Q held log c := by
  intro c₁ answer c₂ hkept _ hserved _
  obtain rfl := hserved.eq_of_noAddition hserve
  rw [Request.heldAfter_eq hr]
  exact ⟨fun _ _ => rfl, h _ answer hkept hserved⟩

end Procedure

/-! ### Crews of guarded calls -/

section

variable {M : Type} {cache : Cache M} {t t' : Crew M} {w w' : Worker M}
  {R : (call : StoreCall) → Except StoreError call.Answer → List Sighting → Prop}

/-- What is left of a call is guarded. -/
def Worker.Guarded (R : (call : StoreCall) → Except StoreError call.Answer → List Sighting → Prop)
    (w : Worker M) (c : Collection) : Prop :=
  w.rest.Guarded (.ofResult (R w.call)) w.held w.sightings c

/-- A call keeps its guarantee and goes on guarded. -/
theorem Worker.Guarded.step (h : w.Guarded R t.collection) (hstep : w.Step cache t w' c)
    (hexact : t.collection.Exact) (hexact' : c.Exact) :
    w'.Guarded R c ∧ ∀ key ∉ w.held, c.history key = t.collection.history key := by
  -- whoever is served about a monitor leaves the collection as it is
  let idle : Setting := ⟨.memory t.collection none, fun _ => 0, {}, ⟨1, []⟩⟩
  cases hstep with
  -- a call that waits asks for nothing of the store
  | await hget next holds sightings => exact ⟨h, fun _ _ => rfl⟩
  | @acquire call key m hfree next holds sightings =>
    -- the monitor is granted, and the key counts as held from now on
    have hserved : t.collection.Served (.lockKey key) true t.collection :=
      ⟨idle, _, rfl, rfl, Action.serve_lockKey List.not_mem_nil⟩
    obtain ⟨hown, hnext⟩ := h _ true _ (.refl hexact) rfl hserved hexact
    simp only [Request.sightings, List.append_nil] at hnext
    exact ⟨hnext, hown⟩
  | @release call key next holds sightings =>
    have hserved : t.collection.Served (.unlockKey key) () t.collection :=
      ⟨idle, _, rfl, rfl, rfl⟩
    obtain ⟨hown, hnext⟩ := h _ () _ (.refl hexact) trivial hserved hexact
    -- the mutex of the key is given back, and no other
    have hheld : (holds.eraseP fun use => use.1 = key).map Prod.fst =
        (holds.map Prod.fst).erase key := by
      rw [List.erase_eq_eraseP', List.eraseP_map]
      rfl
    simp only [Request.sightings, List.append_nil, Request.heldAfter] at hnext
    refine ⟨?_, hown⟩
    rw [Guarded, held, hheld]
    exact hnext
  | @serve call r answer c hr hserved next holds sightings =>
    -- any other request is served as it is in the guarantee
    obtain ⟨hown, hnext⟩ := h _ answer c (.refl hexact) (Request.granted hr answer) hserved hexact'
    rw [Request.heldAfter_eq hr] at hnext
    exact ⟨hnext, hown⟩

namespace Crew

/-- **One step.** The call that makes it goes on guarded. The others hold other keys, which it
leaves alone. -/
theorem Step.guarded (hnodup : (t.workers.flatMap Worker.held).Nodup)
    (hguarded : ∀ w ∈ t.workers, w.Guarded R t.collection)
    (hstart : ∀ (call : StoreCall) (c : Collection), (call.worker : Worker M).Guarded R c)
    (hstep : Step cache t t') (hexact : t'.collection.Exact) :
    ∀ w ∈ t'.workers, w.Guarded R t'.collection := by
  -- versions that are exact in the end were exact before
  have hexact₀ : t.collection.Exact := hexact.of_subset hstep.subset
  cases hstep with
  -- a call that starts is guarded whatever it finds
  | start t call => exact List.forall_mem_cons.2 ⟨hstart call _, hguarded⟩
  | @work c c' w w' before after hwork =>
    obtain ⟨hnext, hown⟩ := (hguarded w (by simp)).step hwork hexact₀ hexact
    -- nobody else holds a key of the call that makes the step
    have hdisjoint : ∀ u ∈ before ++ after, List.Disjoint w.held u.held :=
      (List.pairwise_cons.1 ((List.pairwise_middle List.Disjoint.symm).1
        (List.nodup_flatMap.1 hnodup).2)).1
    -- so the histories of their keys are as they were
    have hothers : ∀ u ∈ before ++ after, u.Guarded R c' := by
      intro u hu
      have hkept : c.Kept u.held c' :=
        ⟨hexact, fun key hkey => hown key (List.disjoint_right.1 (hdisjoint u hu) hkey)⟩
      have hmem : u ∈ before ++ w :: after := by
        rw [List.mem_append, List.mem_cons] at *
        tauto
      exact Procedure.Guarded.of_kept (Aim.stable_ofResult _) (hguarded u hmem) hkept
    intro u hu
    rcases List.mem_append.1 hu with hbefore | hu
    · exact hothers u (List.mem_append_left _ hbefore)
    · rcases List.mem_cons.1 hu with rfl | hafter
      · exact hnext
      · exact hothers u (List.mem_append_right _ hafter)

/-- **All steps.** If every call is guarded at its start, then what is left of it is guarded at any
time. -/
theorem guarded_of_steps (hcache : cache.Steady)
    (hstart : ∀ (call : StoreCall) (c : Collection), (call.worker : Worker M).Guarded R c)
    (h : Steps cache ⟨c, []⟩ t) (hexact : t.collection.Exact) :
    ∀ w ∈ t.workers, w.Guarded R t.collection := by
  induction h with
  | refl => simp
  | tail hsteps hstep ih =>
    have hexact₀ := hexact.of_subset hstep.subset
    exact hstep.guarded (nodup_held_of_steps hcache hsteps) (ih hexact₀) hstart hexact

end Crew

end

end ConfigLedger
