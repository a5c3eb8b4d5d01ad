import ConfigLedger.Objects
import ConfigLedger.Proofs.Store.Additions
import ConfigLedger.Proofs.Store.Querying

/-!
# Objects that are read

To decode a record nothing is asked of the surroundings but to count a failure. A procedure that
only counts is settled at once: whoever else is at work, it is done with the same result
(`Procedure.Settles`). So the objects that are listed and got are functions of the records that are
shown (`ObjectStore.objects`, `ObjectStore.decoded`), and an operation on objects adds what the
operation of the store adds that it makes use of.

A list holds the object of every record that is shown of a tenant and that decodes
(`ObjectStore.mem_objects_listed`).
-/

namespace ConfigLedger

variable {α β τ : Type} {c : Collection} {s : Setting} {V : Value → Prop}

/-! ### Procedures that only count -/

namespace Procedure

/-- The procedure counts, asks for nothing else, and is done with a result. -/
inductive Settles : Procedure α → α → Prop where
  | done (a : α) : Settles (done a) a
  | record {m : Measurement} {next : (Request.record m).Answer → Procedure α} {a : α}
      (h : (next ()).Settles a) : Settles (ask (.record m) next) a

namespace Settles

variable {p : Procedure α} {a : α}

theorem bind {f : α → Procedure β} {b : β} (hp : p.Settles a) (hf : (f a).Settles b) :
    (p.bind f).Settles b := by
  induction hp with
  | done a => exact hf
  | record h ih => exact .record (ih hf)

theorem run (h : p.Settles a) (s : Setting) : p.run Setting.serve s = (a, s) := by
  induction h with
  | done a => rfl
  | record h ih => exact ih

theorem adds (h : p.Settles a) : p.Adds V fun _ => True := by
  induction h with
  | done a => trivial
  | record h ih => exact ⟨by simp [Request.additions], fun _ => ih⟩

end Settles
end Procedure

namespace Call

/-- The call counts, asks for nothing else, and has an outcome. -/
def Settles (call : Call α) (outcome : Except StoreError α) : Prop :=
  call.steps.Settles outcome

theorem steps_bind (call : Call α) (f : α → Call β) :
    (call >>= f).steps = call.steps.bind fun outcome =>
      match outcome with
      | .ok a => (f a).steps
      | .error e => .done (.error e) := by
  change Procedure.bind _ _ = _
  congr 1
  funext outcome
  cases outcome <;> rfl

theorem settles_pure (a : α) : (pure a : Call α).Settles (.ok a) := .done _

theorem settles_bind {call : Call α} {f : α → Call β} {a : α} {outcome : Except StoreError β}
    (hcall : call.Settles (.ok a)) (hf : (f a).Settles outcome) : (call >>= f).Settles outcome := by
  rw [Settles, steps_bind]
  exact Procedure.Settles.bind hcall hf

theorem settles_bind_error {call : Call α} {f : α → Call β} {e : StoreError}
    (hcall : call.Settles (.error e)) : (call >>= f).Settles (.error e) := by
  rw [Settles, steps_bind]
  exact Procedure.Settles.bind hcall (.done _)

theorem settles_ofProcedure {p : Procedure α} {a : α} (h : p.Settles a) :
    (ofProcedure p).Settles (.ok a) :=
  Procedure.Settles.bind h (.done _)

/-- Going on without asking for anything changes the outcome alone. -/
theorem run_bind_of_settles (call : Call α) {f : α → Call β} {finish : α → Except StoreError β}
    (h : ∀ a, (f a).Settles (finish a)) (s : Setting) :
    (call >>= f).run s = ((call.run s).1.bind finish, (call.run s).2) := by
  rw [run_bind]
  obtain ⟨outcome, s', hrun⟩ : ∃ outcome s', call.run s = (outcome, s') := ⟨_, _, rfl⟩
  rw [hrun]
  cases outcome with
  | error e => rfl
  | ok a => exact (h a).run s'

theorem Settles.addsOnly {call : Call α} {outcome : Except StoreError α}
    (h : call.Settles outcome) : AddsOnly V call :=
  Procedure.Settles.adds h

end Call

/-! ### Decoding -/

namespace ObjectStore

variable (store : ObjectStore τ)

/-- The object of a record, or the error if it does not decode. -/
def decoded (r : Record) : Except StoreError (Object τ) :=
  match store.codec.decode r.value with
  | .ok data => .ok ⟨r.key.context, data, r.version, r.created, r.updated⟩
  | .error reason => .error (.internal ("could not decode " ++ r.key.label ++ ": " ++ reason))

theorem decoded_of_decode {r : Record} {x : τ} (h : store.codec.decode r.value = .ok x) :
    store.decoded r = .ok ⟨r.key.context, x, r.version, r.created, r.updated⟩ := by
  rw [decoded, h]

theorem decode_of_decoded {r : Record} {o : Object τ} (h : store.decoded r = .ok o) :
    store.codec.decode r.value = .ok o.data := by
  rw [decoded] at h
  split at h
  · next hdecode =>
    cases h
    exact hdecode
  · cases h

theorem toOption_decoded {r : Record} {o : Object τ} :
    (store.decoded r).toOption = some o ↔ store.decoded r = .ok o := by
  cases store.decoded r <;> simp [Except.toOption]

/-- The objects of those records that decode. -/
def objects (records : List Record) : List (Object τ) :=
  records.filterMap fun r => (store.decoded r).toOption

theorem mem_objects {records : List Record} {o : Object τ} :
    o ∈ store.objects records ↔ ∃ r ∈ records, store.decoded r = .ok o := by
  rw [objects, List.mem_filterMap]
  exact exists_congr fun r => and_congr_right fun _ => store.toOption_decoded

theorem settles_decode (r : Record) : (store.decode r).Settles (store.decoded r) := by
  rw [decode, decoded]
  cases store.codec.decode r.value with
  | ok data => exact Call.settles_pure _
  | error reason => exact Call.settles_bind (a := ()) (.record (.done _)) (.done _)

theorem settles_decodeSome (found : Option Record) :
    (store.decodeSome found).Settles
      (match found with
        | none => .ok none
        | some r => (store.decoded r).map some) := by
  cases found with
  | none => exact Call.settles_pure _
  | some r =>
    have hdecode := store.settles_decode r
    -- whether it is an object or an error depends on the codec alone
    rw [decodeSome]
    dsimp only
    cases hdecoded : store.decoded r with
    | ok o =>
      rw [hdecoded] at hdecode
      exact Call.settles_bind hdecode (Call.settles_pure _)
    | error e =>
      rw [hdecoded] at hdecode
      exact Call.settles_bind_error hdecode

theorem settles_decode? (r : Record) :
    (store.decode? r).Settles (.ok (store.decoded r).toOption) :=
  Call.settles_bind (Call.settles_ofProcedure (store.settles_decode r)) (Call.settles_pure _)

theorem settles_decodeAll (records : List Record) :
    (store.decodeAll records).Settles (.ok (store.objects records)) := by
  induction records with
  | nil => exact Call.settles_pure _
  | cons r rest ih =>
    have hobjects : store.objects (r :: rest) =
        (store.decoded r).toOption.toList ++ store.objects rest := by
      rw [objects, List.filterMap_cons]
      cases (store.decoded r).toOption <;> rfl
    rw [hobjects]
    exact Call.settles_bind (store.settles_decode? r) (Call.settles_bind ih (Call.settles_pure _))

/-- The answer to an upsert whose version is written. -/
def upsertedOf (w : Written) : Except StoreError (Upserted τ) :=
  (store.decoded w.record).map fun o => ⟨o, w.previous.bind fun r => (store.decoded r).toOption⟩

theorem settles_upserted (w : Written) : (store.upserted w).Settles (store.upsertedOf w) := by
  -- what is left once the previous object is known
  have hrest (previous : Option (Object τ)) : (do
      return ⟨← store.decode w.record, previous⟩ : Call (Upserted τ)).Settles
        ((store.decoded w.record).map fun o => ⟨o, previous⟩) := by
    have hrecord := store.settles_decode w.record
    cases hdecoded : store.decoded w.record with
    | ok o =>
      rw [hdecoded] at hrecord
      exact Call.settles_bind hrecord (Call.settles_pure _)
    | error e =>
      rw [hdecoded] at hrecord
      exact Call.settles_bind_error hrecord
  rw [upserted, upsertedOf]
  -- the previous object is decoded first, and what it fails with is dropped
  cases w.previous with
  | none => exact Call.settles_bind (Call.settles_pure none) (hrest none)
  | some r => exact Call.settles_bind (store.settles_decode? r) (hrest _)

/-- Answers by key are gone through one by one, without asking for anything. -/
theorem settles_answer {next : α → Call β} {finish : α → Except StoreError β}
    (hnext : ∀ a, (next a).Settles (finish a)) (answers : Answers α) :
    (answer next answers).Settles
      (.ok (answers.map fun element => (element.1.context, element.2.bind finish))) := by
  induction answers with
  | nil => exact Call.settles_pure _
  | cons element rest ih =>
    obtain ⟨key, outcome⟩ := element
    -- an error of one element is its answer, and the others go on
    have hdone : (do next (← Call.ofExcept outcome) : Call β).Settles (outcome.bind finish) := by
      cases outcome with
      | ok a => exact Call.settles_bind (a := a) (.done _) (hnext a)
      | error e => exact Call.settles_bind_error (.done _)
    exact Call.settles_bind (Call.settles_ofProcedure hdone)
      (Call.settles_bind ih (Call.settles_pure _))

theorem exists_settles_answer {next : α → Call β} (hnext : ∀ a, ∃ outcome, (next a).Settles outcome)
    (answers : Answers α) : ∃ outcome, (answer next answers).Settles outcome := by
  choose finish hfinish using hnext
  exact ⟨_, settles_answer hfinish answers⟩

/-! ### Operations on objects -/

theorem run_get (hs : s.medium.Shows c) (tenant context : String) :
    (store.get tenant context).run s =
      (match c.shown ((store.resource tenant).key context) with
        | none => .ok none
        | some r => (store.decoded r).map some, s) := by
  rw [get, Call.run_bind, hs.run_read]
  exact (store.settles_decodeSome _).run s

theorem run_list (hs : s.medium.Shows c) (tenant : String) :
    (store.list tenant {}).run s =
      (.ok (store.objects
        (Store.page {} (0, none) (c.newestLive (store.resource tenant) none))), s) := by
  rw [list, Call.run_bind, hs.run_query]
  exact (store.settles_decodeAll _).run s

/-- **A list holds the object of every record** that is shown of a tenant and that decodes. -/
theorem mem_objects_listed {tenant : String} {o : Object τ} :
    o ∈ store.objects (Store.page {} (0, none) (c.newestLive (store.resource tenant) none)) ↔
      ∃ key r, key.resource = store.resource tenant ∧ c.shown key = some r ∧
        store.decoded r = .ok o := by
  -- the records of the list are those that are shown, in whatever surroundings
  have hshows : (Setting.idle c).medium.Shows c := Medium.shows_memory c
  have hlists := Store.lists_all hshows (store.resource tenant)
  rw [mem_objects]
  constructor
  · rintro ⟨r, hr, hdecoded⟩
    obtain ⟨hresource, hread, -⟩ := (hlists.mem_iff r).1 hr
    exact ⟨r.key, r, hresource, hshows.run_read_iff.1 hread, hdecoded⟩
  · rintro ⟨key, r, hresource, hshown, hdecoded⟩
    obtain rfl := Collection.key_of_shown hshown
    exact ⟨r, (hlists.mem_iff r).2 ⟨hresource, hshows.run_read_iff.2 hshown, rfl⟩, hdecoded⟩

theorem addsOnly_get (tenant context : String) : AddsOnly V (store.get tenant context) :=
  addsOnly_bind (Store.addsOnly_read _) fun found => (store.settles_decodeSome found).addsOnly

theorem addsOnly_list (tenant : String) (options : QueryOptions) :
    AddsOnly V (store.list tenant options) :=
  addsOnly_bind (Store.addsOnly_query _ _) fun _ => (store.settles_decodeAll _).addsOnly

theorem addsOnly_delete (author : Author) (tenant context : String) (h : V .null) :
    AddsOnly V (store.delete author tenant context) :=
  addsOnly_bind (Store.addsOnly_delete author _ h) fun found =>
    (store.settles_decodeSome found).addsOnly

theorem addsOnly_deleteAll (author : Author) (tenant : String) (contexts : List String)
    (h : V .null) : AddsOnly V (store.deleteAll author tenant contexts) := by
  refine addsOnly_bind (Store.addsOnly_bulkDelete author _ h) fun answers => ?_
  obtain ⟨outcome, houtcome⟩ :=
    exists_settles_answer (fun found => ⟨_, store.settles_decodeSome found⟩) answers
  exact houtcome.addsOnly

end ObjectStore
end ConfigLedger
