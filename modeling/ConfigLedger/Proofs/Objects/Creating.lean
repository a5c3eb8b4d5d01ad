import ConfigLedger.Proofs.Objects.Upserting

/-!
# Insertions that only create

`ObjectStore.insertUnique` creates an object unless one of the tenant's objects agrees with it in an
aspect. Does it leave everything alone that lives already?

Not always. What it looks for is the aspect, among the objects that decode, but what it stores to is
the context of the object, and the two have nothing to do with each other. Where the context is that
of an object which differs in the aspect, or of a value which does not decode, the insertion takes
its place as an upsert does (`ObjectStore.not_onlyCreates_replacing`).

An insertion that adds something only creates exactly if nothing lives in the context of the object,
the codec decodes what it encodes the object to, and the version that is made is found afterwards
(`ObjectStore.onlyCreates_iff`). An insertion that adds nothing answers an error and leaves every
document as it was.
-/

namespace ConfigLedger

variable {α τ κ : Type} {c c' : Collection} {s : Setting}

/-! ### Under the lock of a tenant -/

/-- A call whose errors do not end what surrounds it. -/
theorem Call.ends_ofProcedure {call : Call α}
    {P : Except StoreError (Except StoreError α) → Collection → Prop}
    (h : call.Ends c fun outcome c' => P (.ok outcome) c') :
    (Call.ofProcedure call.steps).Ends c P := by
  intro s hs
  have hrun : (Call.ofProcedure call.steps).run s = (.ok (call.run s).1, (call.run s).2) :=
    Procedure.run_bind _ _ _ _
  rw [hrun]
  exact h s hs

/-- A request that leaves the medium alone. -/
theorem Call.ends_request {r : Request} {P : Except StoreError r.Answer → Collection → Prop}
    (hserve : ∀ s : Setting, (s.serve r).2.medium = s.medium) (h : ∀ answer, P (.ok answer) c) :
    (Call.ofProcedure (.request r)).Ends c P :=
  Call.ends_of_run fun s _ => ⟨.ok (s.serve r).1, (s.serve r).2, rfl, hserve s, h _⟩

/-- **Under the lock of a tenant** a call ends as it does without, or the lock was not to be had. -/
theorem Store.ends_holdingTenant {call : Call α} {P : Except StoreError α → Collection → Prop}
    (h : call.Ends c P) (hlocked : ∀ e, P (.error e) c) (tenant : String) :
    (holdingTenant tenant call).Ends c P := by
  -- what is done with the lock, and how the lock is given back
  have hheld : (do
      let outcome ← Call.ofProcedure call.steps
      Call.ofProcedure (.request (.unlockTenant tenant))
      Call.ofExcept outcome : Call α).Ends c P := by
    apply Call.ends_bind
    apply Call.ends_ofProcedure
    intro s hs
    obtain ⟨c', hc', hP⟩ := h s hs
    refine ⟨c', hc', ?_⟩
    apply Call.ends_bind
    apply Call.ends_request
    · exact fun _ => rfl
    · intro _
      exact Call.ends_of_run fun s _ => ⟨_, s, rfl, rfl, hP⟩
  -- the lock is asked for, and what follows depends on whether it is granted
  unfold holdingTenant
  apply Call.ends_bind
  unfold lockTenant
  apply Call.ends_bind
  apply Call.ends_request
  · exact fun s => Action.serve_lockTenant_medium s tenant
  · intro granted
    cases (granted : Bool) with
    | true => exact Call.ends_of_run fun s _ => ⟨.ok (), s, rfl, rfl, hheld⟩
    | false => exact Call.ends_bind (Call.ends_record (Call.ends_throw (hlocked _)))

namespace ObjectStore

variable (store : ObjectStore τ)

/-! ### What an insertion adds -/

/-- **An insertion** adds the version behind the one that is found in the context of the object, and
answers it as far as it decodes. Or it answers an error and adds nothing. -/
theorem ends_insertUnique [BEq κ] {author : Author} {tenant : String} {x : τ} {aspect : τ → κ}
    {P : Except StoreError (Upserted τ) → Collection → Prop}
    (hadded : ∀ value now w c', store.codec.encode x = .ok value → value.isNull = false →
      let p := Pending.ofWrite author (store.keyOf tenant x) value
        (c.latest (store.keyOf tenant x)) now
      c.insert? p.document = some c' → w.record.document = p.document →
        w.previous = c.shown (store.keyOf tenant x) → P (store.upsertedOf w) c')
    (hfailed : ∀ e, P (.error e) c) : (store.insertUnique author tenant x aspect).Ends c P := by
  -- the list of the tenant's objects is read, which adds nothing
  unfold insertUnique
  apply Store.ends_holdingTenant _ hfailed
  apply Call.ends_bind
  refine Call.ends_of_run fun s hs => ?_
  refine ⟨_, s, store.run_list hs.shows tenant, rfl, ?_⟩
  show Call.Ends c P _
  dsimp only
  split
  · -- an object with the same aspect was found
    exact Call.ends_throw (hfailed _)
  · -- the check found nothing, so the object is stored whatever its context holds
    exact store.ends_upsert hadded hfailed

/-! ### What lives afterwards -/

/-- An insertion only created: what lived before lives on as it was, and exactly one key came to
life. If it answered an error, it changed nothing. -/
def OnlyCreates (c c' : Collection) : Except StoreError (Upserted τ) → Prop
  | .ok u => u.previous = none ∧ (∀ key r, c.shown key = some r → c'.shown key = some r) ∧
      ∃! key, c.shown key = none ∧ ∃ r, c'.shown key = some r
  | .error _ => c' = c

/-- An object has a place of its own: nothing lives under its key, what is stored decodes, and the
next version of the key will be found. -/
structure HasPlace (c : Collection) (tenant : String) (x : τ) : Prop where
  vacant : c.shown (store.keyOf tenant x) = none
  decodes : ∃ value y, store.codec.encode x = .ok value ∧ store.codec.decode value = .ok y
  rises : c.NextRises (store.keyOf tenant x)

variable {store} {tenant : String} {x : τ} {d : Document}

/-- The only key that an addition can bring to life is its own. -/
theorem eq_key_of_comes_to_life {key : Key} {r : Record} (h : c.insert? d = some c')
    (hbefore : c.shown key = none) (hafter : c'.shown key = some r) : key = d.key := by
  rcases Collection.shown_of_insert? h key with hsame | ⟨hkey, -⟩
  · rw [hsame, hbefore] at hafter
    cases hafter
  · exact hkey.symm

/-- **A version that is added to a key without a record** brings that key to life and changes
nothing else, if it is found. -/
theorem exists_unique_comes_to_life (h : c.insert? d = some c') (hvacant : c.shown d.key = none)
    (hlive : d.isTombstone = false) (hfound : c'.latest d.key = some d) :
    (∀ key r, c.shown key = some r → c'.shown key = some r) ∧
      ∃! key, c.shown key = none ∧ ∃ r, c'.shown key = some r := by
  constructor
  · intro key r hr
    -- a record that was shown is shown still, as its key had one and the addition's had none
    rcases Collection.shown_of_insert? h key with hsame | ⟨hkey, -⟩
    · rw [hsame, hr]
    · rw [← hkey, hvacant] at hr
      cases hr
  · obtain ⟨r, hr⟩ : ∃ r, c'.shown d.key = some r := by
      rw [Collection.shown, hfound, Option.bind_some, Document.record?, hlive]
      exact ⟨_, rfl⟩
    -- no other key can have come to life, as nothing was added to it
    refine ⟨d.key, ⟨hvacant, r, hr⟩, ?_⟩
    rintro key ⟨hbefore, r', hafter⟩
    exact eq_key_of_comes_to_life h hbefore hafter

/-- **An addition for an object only creates** exactly if the object has a place of its own. -/
theorem onlyCreates_insert?_iff {author : Author} {value : Value} {now : UInt64} {w : Written}
    (hencode : store.codec.encode x = .ok value) (hvalue : value.isNull = false)
    (hinsert : c.insert? (Pending.ofWrite author (store.keyOf tenant x) value
      (c.latest (store.keyOf tenant x)) now).document = some c')
    (hw : w.record.document = (Pending.ofWrite author (store.keyOf tenant x) value
      (c.latest (store.keyOf tenant x)) now).document)
    (hprevious : w.previous = c.shown (store.keyOf tenant x)) :
    OnlyCreates c c' (store.upsertedOf w) ↔ store.HasPlace c tenant x := by
  -- the version that is added, by a name
  obtain ⟨d, hd⟩ : ∃ d, d = (Pending.ofWrite author (store.keyOf tenant x) value
    (c.latest (store.keyOf tenant x)) now).document := ⟨_, rfl⟩
  rw [← hd] at hinsert hw
  have hkey : d.key = store.keyOf tenant x := by rw [hd]; rfl
  have hstored : d.value = value := by rw [hd]; rfl
  have hrecord : w.record.value = value := (congrArg Document.value hw).trans hstored
  -- it is found afterwards exactly if its number rises
  have hfound : c'.latest d.key = some d ↔ c.NextRises d.key := by
    refine Collection.latest_of_insert?_iff hinsert fun e he => ?_
    rw [hkey] at he
    rw [hd, Pending.ofWrite, he]
    rfl
  rw [← hkey] at hprevious
  cases hdecode : store.codec.decode value with
  | error reason =>
    -- the answer is an error, though the version is stored
    obtain ⟨e, he⟩ := exists_upsertedOf_eq_error (hrecord ▸ hdecode)
    rw [he]
    refine iff_of_false (Collection.ne_of_insert? hinsert) fun hplace => ?_
    obtain ⟨y, hdecode'⟩ := (readsBack_iff hencode).1 hplace.decodes
    rw [hdecode] at hdecode'
    cases hdecode'
  | ok y =>
    have hdecoded := store.decoded_of_decode (hrecord ▸ hdecode)
    rw [upsertedOf, hdecoded]
    constructor
    · rintro ⟨-, -, key, ⟨hbefore, r, hafter⟩, -⟩
      -- the key that came to life can only be that of the object
      obtain rfl := eq_key_of_comes_to_life hinsert hbefore hafter
      rcases Collection.latest_of_insert? hinsert d.key with hsame | ⟨-, hlatest⟩
      · rw [Collection.shown, hsame, ← Collection.shown, hbefore] at hafter
        cases hafter
      · exact ⟨hkey ▸ hbefore, ⟨value, y, hencode, hdecode⟩, hkey ▸ hfound.1 hlatest⟩
    · -- an object with a place of its own: nothing was replaced, and its key comes to life
      intro hplace
      have hvacant : c.shown d.key = none := hkey ▸ hplace.vacant
      have hlive : d.isTombstone = false := by rw [Document.isTombstone, hstored, hvalue]
      have hlatest := hfound.2 (hkey ▸ hplace.rises)
      refine ⟨?_, exists_unique_comes_to_life hinsert hvacant hlive hlatest⟩
      show w.previous.bind _ = none
      rw [hprevious, hvacant]
      rfl

/-- Pairs of an id and a name, of which the id is the context. -/
def samplePairs : ObjectStore (String × String) where
  name := "rules"
  space := "alerting"
  codec := {
    encode := fun x => .ok (.list [.string x.1, .string x.2])
    decode := fun v => match v with
      | .list [.string id, .string name] => .ok (id, name)
      | _ => .error "no pair"
    contextOf := Prod.fst }

/-- A stored pair. -/
def samplePair : Document :=
  ⟨samplePairs.keyOf "tenant-1" ("r1", "cpu"), 1, ⟨"ada", "ada@example.com"⟩,
    .list [.string "r1", .string "cpu"], 1000, 1000⟩

/-- **An insertion only creates exactly if it adds nothing or the object has a place of its own**,
whatever the store holds, whichever locks are held and whichever saves fail. -/
theorem onlyCreates_iff [BEq κ] (hs : s.medium.Holds c) (author : Author) (tenant : String) (x : τ)
    (aspect : τ → κ) :
    ∃ c', ((store.insertUnique author tenant x aspect).run s).2.medium.Holds c' ∧
      (OnlyCreates c c' ((store.insertUnique author tenant x aspect).run s).1 ↔
        (c' ≠ c → store.HasPlace c tenant x)) := by
  -- whatever the insertion does, it adds one version or none
  have hends : (store.insertUnique author tenant x aspect).Ends c fun outcome c' =>
      (OnlyCreates c c' outcome ↔ (c' ≠ c → store.HasPlace c tenant x)) := by
    apply ends_insertUnique
    · intro value now w c' hencode hvalue p hinsert hw hprevious
      have hne : c' ≠ c := Collection.ne_of_insert? hinsert
      rw [onlyCreates_insert?_iff hencode hvalue hinsert hw hprevious]
      exact ⟨fun hplace _ => hplace, fun hplace => hplace hne⟩
    · -- an error that adds nothing creates nothing
      intro e
      exact iff_of_true rfl fun hne => absurd rfl hne
  exact hends s hs

theorem onlyCreates_iff_other_context :
    let c : Collection := { documents := [samplePair] }
    let run := (samplePairs.insertUnique samplePair.author "tenant-1" ("r2", "mem")
      Prod.snd).run (Setting.idle c)
    (Setting.idle c).medium.Holds c ∧ ∃ c', run.2.medium.Holds c' ∧ OnlyCreates c c' run.1 := by
  intro c run
  have hs : (Setting.idle c).medium.Holds c := .memory c
  have hlatest : c.latest (samplePairs.keyOf "tenant-1" ("r2", "mem")) = none := by
    refine Collection.latest_of_newest_eq_none (Collection.newest_eq_none_iff.2 ?_)
    exact List.forall_mem_singleton.2 (by decide)
  have hplace : samplePairs.HasPlace c "tenant-1" ("r2", "mem") := by
    refine ⟨?_, ⟨_, ("r2", "mem"), rfl, rfl⟩, ?_⟩
    · rw [Collection.shown, hlatest]
      rfl
    · intro d hd
      rw [hlatest] at hd
      cases hd
  obtain ⟨c', hc', hiff⟩ := onlyCreates_iff hs samplePair.author "tenant-1" ("r2", "mem") Prod.snd
  exact ⟨hs, c', hc', hiff.2 fun _ => hplace⟩

theorem not_onlyCreates_replacing :
    let c : Collection := { documents := [samplePair] }
    let run := (samplePairs.insertUnique samplePair.author "tenant-1" ("r1", "mem")
      Prod.snd).run (Setting.idle c)
    (∃ u o, run.1 = .ok u ∧ (u.object.context, u.object.data) = ("r1", ("r1", "mem")) ∧
      u.previous = some o ∧ (o.context, o.data) = ("r1", ("r1", "cpu"))) ∧
      ∀ c', ¬ OnlyCreates c c' run.1 := by
  intro c run
  -- the answer tells of the object that was replaced
  have hanswer : (run.1.toOption.map fun u => ((u.object.context, u.object.data),
      u.previous.map fun o => (o.context, o.data))) =
        some (("r1", ("r1", "mem")), some ("r1", ("r1", "cpu"))) := by decide +kernel
  cases hrun : run.1 with
  | error e =>
    rw [hrun] at hanswer
    cases hanswer
  | ok u =>
    rw [hrun] at hanswer
    obtain ⟨hobject, hprevious⟩ := Prod.mk.inj (Option.some.inj hanswer)
    obtain ⟨o, ho, hdata⟩ := Option.map_eq_some_iff.1 hprevious
    refine ⟨⟨u, o, rfl, hobject, ho, hdata⟩, fun c' honly => ?_⟩
    rw [honly.1] at ho
    cases ho

end ObjectStore
end ConfigLedger
