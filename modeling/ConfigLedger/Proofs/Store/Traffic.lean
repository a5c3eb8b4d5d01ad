import ConfigLedger.Proofs.Backend.WellFormed
import ConfigLedger.Proofs.Store.Calls
import ConfigLedger.Proofs.Store.InMemory
import Mathlib.Logic.Relation

/-!
# Calls that interleave

Any number of calls work on one collection at the same time. Between two requests of one call
others may act, and a bulk addition is a request for each of its documents
(`Procedure.elementwise`), so that others may act between these too. Apart from the collection
nothing is shared: each request finds the clock and the locks in some state or other
(`Collection.Served`). In particular no monitor ever keeps a call from another one.

A `Traffic` is the collection and the calls that were started, each with what is left of it and
with the versions that it has stored. `Traffic.Step` starts a call or serves one request.
-/

namespace ConfigLedger

variable {α β : Type} {c c' : Collection} {d : Document} {r : Request}

namespace Procedure

/-- Adds documents by a request for each of them. -/
def insertEach : List Document → Procedure (Reply (List (Except BackendError Unit)))
  | [] => done (some (.ok []))
  | d :: rest => ask (.insert d) fun answer : Reply Unit => match answer with
    | none => done none
    | some outcome => (insertEach rest).bind fun answer =>
      done (answer.map (Except.map (outcome :: ·)))

/-- The procedure with each bulk addition taken apart. -/
def elementwise : Procedure α → Procedure α
  | done a => done a
  | ask (.insertAll documents) next => (insertEach documents).bind fun answer =>
    (next answer).elementwise
  | ask r next => ask r fun answer => (next answer).elementwise

theorem elementwise_bind (p : Procedure α) (f : α → Procedure β) :
    (p.bind f).elementwise = p.elementwise.bind fun a => (f a).elementwise := by
  induction p with
  | done a => rfl
  | ask r next ih =>
    -- only a bulk addition is taken apart
    cases r with
    | insertAll documents =>
      simp only [bind, elementwise, bind_bind]
      exact congrArg _ (funext ih)
    | _ => simp only [bind, elementwise, ih]

theorem run_insertEach {s : Setting} (hs : s.medium = .memory c none) (documents : List Document) :
    (insertEach documents).run Setting.serve s =
      (some (.ok (Memory.outcomes documents (c.insertAll documents).1)),
        { s with medium := .memory (c.insertAll documents).2 none }) := by
  induction documents generalizing s c with
  -- nothing is added, and nothing is outstanding
  | nil => exact congrArg (Prod.mk _) (by rw [Collection.insertAll, ← hs])
  | cons d rest ih =>
    -- one document is added in memory
    have hserve : s.serve (.insert d) =
        (some (Memory.insert c d).1, { s with medium := .memory (Memory.insert c d).2 none }) := by
      rw [Setting.serve, hs]
      rfl
    simp only [insertEach, run, hserve]
    refine (run_bind _ _ _ _).trans ?_
    rw [ih rfl, Memory.insert, Collection.insertAll]
    cases c.insert? d <;> rfl

/-- **Nothing is lost by taking a procedure apart.** Where no one else comes in between, it does
what it did before. -/
theorem run_elementwise (p : Procedure α) {s : Setting} (hs : s.medium = .memory c none) :
    p.elementwise.run Setting.serve s = p.run Setting.serve s := by
  induction p generalizing s c with
  | done a => rfl
  | ask r next ih =>
    -- a request in memory leaves the medium in memory
    obtain ⟨c', hs', -⟩ := Setting.serve_memory hs r
    cases r with
    | insertAll documents =>
      refine (run_bind _ _ _ _).trans ?_
      rw [run_insertEach hs, run, Setting.serve, hs]
      exact ih _ rfl
    -- every other request is served as it stands
    | _ => exact ih _ hs'

end Procedure

/-- A collection in memory serves a request, in a setting that is arbitrary otherwise. -/
def Collection.Served (c : Collection) (r : Request) (answer : r.Answer) (c' : Collection) : Prop :=
  ∃ s s' : Setting, s.medium = .memory c none ∧ s'.medium = .memory c' none ∧
    s.serve r = (answer, s')

/-- The documents that one collection has and another one lacks. -/
def Collection.added (c c' : Collection) : List Document :=
  c'.documents.filter fun d => !c.taken d

namespace Collection

theorem added_self (c : Collection) : c.added c = [] := by
  rw [added, List.filter_eq_nil_iff]
  intro d hd
  have : c.taken d = true := taken_iff.2 ⟨d, hd, rfl, rfl⟩
  simp [this]

theorem added_of_insert? (h : c.insert? d = some c') : c.added c' = [d] := by
  -- what the larger collection has in addition is the document only
  have hmem (e : Document) : e ∈ c.added c' ↔ e = d := by
    rw [added, List.mem_filter, mem_of_insert?_eq_some h, Bool.not_eq_true', Bool.eq_false_iff]
    constructor
    · rintro ⟨rfl | he, hfree⟩
      · -- the document is in the larger collection, and its number was free
        rfl
      · exact absurd (taken_iff.2 ⟨e, he, rfl, rfl⟩) hfree
    · rintro rfl
      refine ⟨.inl rfl, fun htaken => ?_⟩
      obtain ⟨f, hf, hkey, hversion⟩ := taken_iff.1 htaken
      exact not_mem_of_insert?_eq_some h hf hkey hversion
  -- a list with one member, which occurs once
  have hperm : (c.added c').Perm [d] :=
    (List.perm_ext_iff_of_nodup (c'.nodup_documents.filter _) (by simp)).2 fun e =>
      (hmem e).trans List.mem_singleton.symm
  exact List.perm_singleton.1 hperm

/-- A larger collection is the smaller one and what was added to it. -/
theorem perm_append_added (h : c.documents ⊆ c'.documents) :
    (c.documents ++ c.added c').Perm c'.documents := by
  -- of the larger collection, the smaller one has exactly those that it takes
  have htaken : (c'.documents.filter c.taken).Perm c.documents := by
    refine (List.perm_ext_iff_of_nodup (c'.nodup_documents.filter _) c.nodup_documents).2
      fun d => ?_
    rw [List.mem_filter, taken_iff]
    constructor
    · rintro ⟨hd, e, he, hkey, hversion⟩
      rw [eq_of_sameVersion hd (h he) (Document.sameVersion_iff.2 ⟨hkey.symm, hversion.symm⟩)]
      exact he
    · exact fun hd => ⟨h hd, d, hd, rfl, rfl⟩
  -- so it is split into what it shares with the smaller one and what was added
  exact (htaken.symm.append_right _).trans (List.filter_append_perm _ _)

/-- How a request is served does not depend on the rest of the setting. -/
theorem Served.eq_of_serve {answer answer' : r.Answer} {c'' : Collection}
    (h : c.Served r answer c')
    (hr : ∀ s : Setting, s.medium = .memory c none →
      (s.serve r).1 = answer' ∧ (s.serve r).2.medium = .memory c'' none) :
    answer = answer' ∧ c' = c'' := by
  obtain ⟨s, s', hs, hs', hserve⟩ := h
  -- the setting that served it is as good as any other
  obtain ⟨hanswer, hmedium⟩ := hr s hs
  rw [hserve] at hanswer hmedium
  rw [hs'] at hmedium
  cases hmedium
  exact ⟨hanswer, rfl⟩

theorem Served.subset {answer : r.Answer} (h : c.Served r answer c') :
    c.documents ⊆ c'.documents := by
  obtain ⟨s, s', hs, hs', hserve⟩ := h
  obtain ⟨c₁, hs₁, hsub⟩ := Setting.serve_memory hs r
  rw [hserve, hs'] at hs₁
  cases hs₁
  exact hsub

/-- What is no addition leaves the collection as it is. -/
theorem Served.eq_of_noAddition {answer : r.Answer} (h : c.Served r answer c')
    (hr : ∀ s : Setting, (s.serve r).2.medium = s.medium) : c' = c := by
  obtain ⟨s, s', hs, hs', hserve⟩ := h
  have := hr s
  rw [hserve, hs, hs'] at this
  cases this
  rfl

theorem served_find {q : Query} {answer : Reply (List Document)}
    (h : c.Served (.find q) answer c') : answer = some (.ok (c.find q)) ∧ c' = c :=
  h.eq_of_serve fun s hs => by
    rw [Setting.serve, hs]
    exact ⟨rfl, rfl⟩

theorem served_insert {answer : Reply Unit} (h : c.Served (.insert d) answer c') :
    answer = some (Memory.insert c d).1 ∧ c' = (Memory.insert c d).2 :=
  h.eq_of_serve fun s hs => by
    rw [Setting.serve, hs]
    exact ⟨rfl, rfl⟩

theorem served_insertIf {condition : Predicate} {answer : Reply Bool}
    (h : c.Served (.insertIf d condition) answer c') :
    answer = some (.ok (Memory.insertIf c d condition).1) ∧
      c' = (Memory.insertIf c d condition).2 :=
  h.eq_of_serve fun s hs => by
    rw [Setting.serve, hs]
    exact ⟨rfl, rfl⟩

end Collection

/-- A call that was started. -/
structure RunningCall where
  call : StoreCall
  /-- What is left of it. -/
  rest : Procedure (Except StoreError call.Answer)
  /-- The versions that it has stored, the first one first. -/
  stored : List Document

/-- A call at its start. -/
def StoreCall.started (c : StoreCall) : RunningCall :=
  ⟨c, c.call.steps.elementwise, []⟩

/-- Calls on their way, and the collection that they work on. -/
structure Traffic where
  collection : Collection
  calls : List RunningCall

namespace Traffic

/-- No calls and no documents. -/
def empty : Traffic :=
  ⟨.empty, []⟩

/-- One step of one of the calls, or the start of another call. -/
inductive Step : Traffic → Traffic → Prop where
  | start (t : Traffic) (c : StoreCall) : Step t { t with calls := c.started :: t.calls }
  | serve {c c' : Collection} {r : Request} {answer : r.Answer} (h : c.Served r answer c')
      (before after : List RunningCall) (call : StoreCall)
      (next : r.Answer → Procedure (Except StoreError call.Answer)) (stored : List Document) :
      Step ⟨c, before ++ ⟨call, .ask r next, stored⟩ :: after⟩
        ⟨c', before ++ ⟨call, next answer, stored ++ c.added c'⟩ :: after⟩

/-- Any number of steps, in any order. -/
def Steps : Traffic → Traffic → Prop :=
  Relation.ReflTransGen Step

/-- What can come of an empty collection. -/
def Reachable (t : Traffic) : Prop :=
  Steps empty t

/-- **No stored document ever changes or disappears.** -/
theorem Step.subset {t t' : Traffic} (h : Step t t') :
    t.collection.documents ⊆ t'.collection.documents := by
  cases h with
  | start t c => exact List.Subset.refl _
  | serve h => exact h.subset

theorem Steps.subset {t t' : Traffic} (h : Steps t t') :
    t.collection.documents ⊆ t'.collection.documents := by
  induction h with
  | refl => exact List.Subset.refl _
  | tail _ hstep ih => exact List.Subset.trans ih hstep.subset

end Traffic
end ConfigLedger
