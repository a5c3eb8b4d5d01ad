import ConfigLedger.Proofs.Objects.Decoding
import ConfigLedger.Proofs.Store.Endings

/-!
# Upserts that fail

An upsert stores the value of an object and answers with the object. Does an error leave the store
as it was, so that a caller may give up or try again?

An upsert has three steps: the object is encoded, the value is written, and the record that was
written is decoded for the answer. An error of the first two leaves every document as it was, also
if the write failed because the file could not be saved. The third comes after the version is
stored. Nothing is asked of a codec, so what it makes of an object may be a value that it does not
read back; then the upsert answers an error over a version that stays
(`ObjectStore.not_sparesOnError_unreadable`).

**An upsert that fails changes nothing exactly if the codec decodes what it encodes the object to**,
once the upsert gets as far as to store something (`ObjectStore.sparesOnError_upsert_iff`).
-/

namespace ConfigLedger

variable {α τ : Type} {c c' : Collection} {s : Setting}

namespace ObjectStore

variable (store : ObjectStore τ)

/-- The key that an object of a tenant is kept under. -/
def keyOf (tenant : String) (x : τ) : Key :=
  (store.resource tenant).key (store.codec.contextOf x)

/-- **An upsert** adds the version behind the one that is found in the context of the object, and
answers it as far as it decodes. Or it answers an error and adds nothing. -/
theorem ends_upsert {author : Author} {tenant : String} {x : τ} {precondition : Option Filter}
    {P : Except StoreError (Upserted τ) → Collection → Prop}
    (hadded : ∀ value now w c', store.codec.encode x = .ok value → value.isNull = false →
      let p := Pending.ofWrite author (store.keyOf tenant x) value
        (c.latest (store.keyOf tenant x)) now
      c.insert? p.document = some c' → w.record.document = p.document →
        w.previous = c.shown (store.keyOf tenant x) → P (store.upsertedOf w) c')
    (hfailed : ∀ e, P (.error e) c) : (store.upsert author tenant x precondition).Ends c P := by
  -- encoding asks for nothing, and an object that does not encode ends it
  unfold upsert
  apply Call.ends_bind
  refine Call.ends_of_run fun s _ => ?_
  refine ⟨store.encode x, s, rfl, rfl, ?_⟩
  rw [encode]
  cases hencode : store.codec.encode x with
  | error reason => exact hfailed _
  | ok value =>
    -- the write adds the version or fails, and decoding its answer adds nothing more
    apply Call.ends_bind
    apply Store.ends_write _ fun e _ => hfailed e
    intro now w c' hvalue p hinsert hw hprevious
    refine Call.ends_of_run fun s _ => ?_
    exact ⟨_, s, (store.settles_upserted w).run s, rfl,
      hadded value now w c' hencode hvalue hinsert hw hprevious⟩

/-! ### Errors -/

/-- An operation spares what is stored if it fails: an error means that the documents are those
from before. -/
def SparesOnError (before after : List Document) (outcome : Except StoreError α) : Prop :=
  ∀ e, outcome = .error e → after = before

/-- The codec decodes what it encodes an object to. -/
def ReadsBack (x : τ) : Prop :=
  ∃ value y, store.codec.encode x = .ok value ∧ store.codec.decode value = .ok y

variable {store} {tenant : String} {x : τ}

theorem readsBack_iff {value : Value} (hencode : store.codec.encode x = .ok value) :
    store.ReadsBack x ↔ ∃ y, store.codec.decode value = .ok y := by
  constructor
  · rintro ⟨value', y, hencode', hdecode⟩
    obtain rfl := Except.ok.inj (hencode.symm.trans hencode')
    exact ⟨y, hdecode⟩
  · rintro ⟨y, hdecode⟩
    exact ⟨value, y, hencode, hdecode⟩

theorem exists_upsertedOf_eq_error {w : Written} {reason : String}
    (h : store.codec.decode w.record.value = .error reason) :
    ∃ e, store.upsertedOf w = .error e := by
  rw [upsertedOf, decoded, h]
  exact ⟨_, rfl⟩

/-- What is answered once a version is stored is no error exactly if the codec reads it back. -/
theorem upsertedOf_ne_error_iff {value : Value} {w : Written}
    (hencode : store.codec.encode x = .ok value) (hw : w.record.value = value) :
    (∀ e, store.upsertedOf w ≠ .error e) ↔ store.ReadsBack x := by
  rw [readsBack_iff hencode]
  cases hdecode : store.codec.decode value with
  | error reason =>
    obtain ⟨e, he⟩ := exists_upsertedOf_eq_error (hw ▸ hdecode)
    exact iff_of_false (fun hne => hne e he) (by simp)
  | ok y =>
    refine iff_of_true (fun e he => ?_) ⟨y, rfl⟩
    rw [upsertedOf, store.decoded_of_decode (hw ▸ hdecode)] at he
    cases he

/-- Readings of a gauge by its name. A gauge may show nothing, which is written as null, and null is
no reading. -/
def sampleGauges : ObjectStore (String × Option String) where
  name := "gauges"
  space := "monitoring"
  codec := {
    encode := fun x => .ok (.list [.string x.1, x.2.elim .null .string])
    decode := fun v => match v with
      | .list [.string name, .string reading] => .ok (name, some reading)
      | _ => .error "no reading"
    contextOf := Prod.fst }

/-- **An upsert that fails spares what is stored exactly if it stores nothing or the codec decodes
what it encodes the object to**, whatever the store holds and whatever the precondition is,
whichever locks are held and whichever saves fail. -/
theorem sparesOnError_upsert_iff (hs : s.medium.Holds c) (author : Author) (tenant : String) (x : τ)
    (precondition : Option Filter) :
    let run := (store.upsert author tenant x precondition).run s
    SparesOnError s.medium.documents run.2.medium.documents run.1 ↔
      (run.2.medium.documents ≠ s.medium.documents → store.ReadsBack x) := by
  -- an upsert adds one version or none, and the two cases are told apart
  have hends : (store.upsert author tenant x precondition).Ends c fun outcome c' =>
      (SparesOnError c.documents c'.documents outcome ↔
        (c'.documents ≠ c.documents → store.ReadsBack x)) := by
    apply ends_upsert
    · intro value now w c' hencode hvalue p hinsert hw hprevious
      -- the version is stored by now, so what matters is whether the answer can be an error
      have hadded : c'.documents ≠ c.documents := Collection.documents_ne_of_insert? hinsert
      have hrecord : w.record.value = value := congrArg Document.value hw
      rw [← upsertedOf_ne_error_iff hencode hrecord]
      exact ⟨fun hspares _ e he => hadded (hspares e he), fun hok e he => absurd he (hok hadded e)⟩
    · -- an error that adds nothing spares everything
      intro e
      exact iff_of_true (fun _ _ => rfl) fun hne => absurd rfl hne
  obtain ⟨c', hc', hiff⟩ := hends s hs
  intro run
  rw [hs.documents_eq, hc'.documents_eq]
  exact hiff

/-- Where nothing lives, no precondition is met. -/
theorem sparesOnError_upsert_iff_refused :
    let s := Setting.idle .empty
    let precondition := Filter.relational "0" .present .null
    let run := (sampleGauges.upsert ⟨"ada", "ada@example.com"⟩ "tenant-1" ("cpu", some "3")
      (some precondition)).run s
    s.medium.Holds .empty ∧ outcomeCode run.1 = "conflict" ∧
      SparesOnError s.medium.documents run.2.medium.documents run.1 := by
  intro s precondition run
  have hs : s.medium.Holds .empty := .memory .empty
  have hreads : sampleGauges.ReadsBack ("cpu", some "3") := ⟨_, ("cpu", some "3"), rfl, rfl⟩
  exact ⟨hs, by decide +kernel, (sparesOnError_upsert_iff hs _ _ _ _).2 fun _ => hreads⟩

/-- **A gauge that shows nothing** is stored, and the answer is an error all the same. -/
theorem not_sparesOnError_unreadable :
    let s := Setting.idle .empty
    let run := (sampleGauges.upsert ⟨"ada", "ada@example.com"⟩ "tenant-1" ("cpu", none) none).run s
    outcomeCode run.1 = "internal" ∧ run.2.medium.documents.map (·.version) = [1] ∧
      ¬ SparesOnError s.medium.documents run.2.medium.documents run.1 := by
  intro s run
  have hcode : outcomeCode run.1 = "internal" := by decide +kernel
  have hstored : run.2.medium.documents.map (·.version) = [1] := by decide +kernel
  -- the version is there in spite of the error
  refine ⟨hcode, hstored, fun hspares => ?_⟩
  cases hrun : run.1 with
  | ok u =>
    rw [hrun, outcomeCode] at hcode
    exact absurd hcode (by decide)
  | error e =>
    rw [hspares e hrun] at hstored
    cases hstored

end ObjectStore
end ConfigLedger
