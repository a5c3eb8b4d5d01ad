import ConfigLedger.Proofs.Objects.Orderly

/-!
# Unique insertions

An insertion looks through the objects of a tenant and writes a new one if none of them agrees with
it in an aspect. Much may happen in between: the check is a query, the write computes its version
from another query, other calls delete objects, and the key that is written may hold another object.
All of it is done under the lock of the tenant, and whoever else works on the tenant then can only
delete. So what was vacant at the time of the check is vacant still at the time of the write
(`ObjectStore.orderly_insertUnique`).

It follows that **however the steps of any calls interleave, the objects of a tenant always differ
in the aspect** (`ObjectTraffic.distinct_of_steps`).
-/

namespace ConfigLedger

variable {α τ κ : Type} {store : ObjectStore τ} {aspect : τ → κ} {c : Collection}
  {held : List String} {tenant : String}

namespace Store

/-! ### Reading -/

theorem orderly_latestLive {Q : Option (Except StoreError (List Document)) → List String →
      Collection → Prop} {resource : Resource} {filter : Option Predicate}
    (h : ∀ seen, store.Spares held c seen →
      Q (some (.ok (seen.newestLive resource filter))) held seen) :
    (latestLive resource filter).Orderly store aspect Q held c :=
  .bind (Action.orderly_find h)

/-- A query finds what was shown at one time, which may be in the past when it is done. -/
theorem orderly_query {Q : Except StoreError QueryResult → List String → Collection → Prop}
    {resource : Resource}
    (h : ∀ seen c', store.Spares held seen c' →
      Q (.ok ⟨page {} (0, none) (seen.newestLive resource none),
        (seen.newestLive resource none).length⟩) held c') :
    (query resource {}).Orderly store aspect Q held c := by
  -- the records are read at one time, and what is recorded afterwards takes some time more
  refine Call.orderly_bounded ?_
  change Action.Orderly store aspect _ (do
    let matching ← latestLive resource none
    Action.record (.queryResults matching.length)
    return (⟨page {} (0, none) matching, matching.length⟩ : QueryResult)) held c
  refine .bind (orderly_latestLive ?_)
  intro seen _
  refine Action.Orderly.bind (Action.orderly_record ?_)
  intro c₁ hspares₁ c₂ hspares₂
  exact h seen c₂ (hspares₁.trans hspares₂)

/-! ### Writing -/

/-- **A write under the lock of the tenant**, of an object whose value of the aspect is vacant. -/
theorem orderly_write {key : Key} {value : Value} {x : τ} (author : Author)
    (htenant : tenant ∈ held) (hkey : key.resource = store.resource tenant)
    (hvalue : store.codec.decode value = .ok x) (hvacant : store.Vacant aspect tenant x c) :
    (write author key value none).Orderly store aspect Procedure.Anything held c := by
  -- a write checks, asks for the monitor, and then writes what it has looked up
  rw [write_eq]
  refine Call.orderly_bounded_anything (.bind ?_)
  change Action.Onwards store aspect _ _ (some (checkWritable key value)) held c
  cases checkWritable key value with
  | error e => trivial
  | ok _ =>
    change (Action.holding key (writeLocked author key value none)).Orderly store aspect _ held c
    refine Action.orderly_holding ?_
    intro c₁ hspares₁
    -- whatever version is found and whatever the time is, the value and the key are those given
    rw [writeLocked, prepareWrite_eq, bind_assoc]
    refine .bind (.bind (Action.orderly_find ?_))
    intro c₂ hspares₂
    refine Action.Orderly.bind (.bind (Action.orderly_now ?_))
    intro c₃ time hspares₃
    have hspares := hspares₁.trans (hspares₂.trans hspares₃)
    refine Action.Orderly.bind ?_
    refine Procedure.orderly_insert htenant hkey hvalue
      (hvacant.of_fades (hspares tenant htenant)) ?_
    intro answer c₄
    rcases answer with _ | (e | _) <;> trivial

/-! ### Locking a tenant -/

/-- **What is done under the lock of a tenant.** The lock may be denied, and it is given back. -/
theorem orderly_holdingTenant {call : Call α}
    (h : ∀ c', call.Orderly store aspect Procedure.Anything (tenant :: held) c') :
    (holdingTenant tenant call).Orderly store aspect Procedure.Anything held c := by
  refine .bind ?_
  intro c₁ granted c₂ _ hserved
  obtain rfl := hserved.eq_of_noAddition fun s => Action.serve_lockTenant_medium s tenant
  refine ⟨.refl, ?_⟩
  cases (granted : Bool) with
  -- denied: what is left is to count that
  | false => exact Procedure.orderly_ask rfl (fun _ => rfl) fun _ _ _ _ => trivial
  | true =>
    change Call.Orderly store aspect Procedure.Anything (do
      let outcome ← Call.ofProcedure call.steps
      Call.ofProcedure (.request (.unlockTenant tenant))
      Call.ofExcept outcome) (tenant :: held) c₂
    -- granted: the call goes on, the lock is given back, and the outcome is passed on
    refine .bind (Call.orderly_ofProcedure (Procedure.Orderly.imp ?_ (h c₂)))
    intro outcome held c _ c₃ _ c₄ _ hserved
    obtain rfl := hserved.eq_of_noAddition fun _ => rfl
    exact ⟨.refl, trivial⟩

end Store

namespace ObjectStore

/-- A list holds what was shown at one time, which may be in the past when it is done. -/
theorem orderly_list {Q : Except StoreError (List (Object τ)) → List String → Collection → Prop}
    (h : ∀ seen c', store.Spares held seen c' →
      Q (.ok (store.objects
        (Store.page {} (0, none) (seen.newestLive (store.resource tenant) none)))) held c') :
    (store.list tenant {}).Orderly store aspect Q held c := by
  refine .bind (Store.orderly_query ?_)
  intro seen c₁ hspares₁
  refine Procedure.Settles.orderly (store.settles_decodeAll _) ?_
  intro c₂ hspares₂
  exact h seen c₂ (hspares₁.trans hspares₂)

theorem orderly_upsert {object : τ}
    (hcodec : ∀ x v, store.codec.encode x = .ok v → store.codec.decode v = .ok x) (author : Author)
    (htenant : tenant ∈ held) (hvacant : store.Vacant aspect tenant object c) :
    (store.upsert author tenant object none).Orderly store aspect Procedure.Anything held c := by
  -- an object that does not encode is not stored
  refine .bind ?_
  change Call.Onwards store aspect _ _ (store.encode object) held c
  rw [encode]
  cases hencode : store.codec.encode object with
  | error reason => trivial
  | ok value =>
    -- what is written decodes to the object, as the codec is faithful
    refine Call.Orderly.bind_anything
      (Store.orderly_write author htenant rfl (hcodec _ _ hencode) hvacant) ?_
    intro w held c
    exact Procedure.Settles.orderly (store.settles_upserted w) fun _ _ => trivial

/-- **An insertion is orderly.** What it finds vacant is vacant as long as it holds the lock of the
tenant. -/
theorem orderly_insertUnique [BEq κ] [LawfulBEq κ]
    (hcodec : ∀ x v, store.codec.encode x = .ok v → store.codec.decode v = .ok x) (author : Author)
    (tenant : String) (object : τ) :
    (store.insertUnique author tenant object aspect).Orderly store aspect Procedure.Anything
      held c := by
  refine Store.orderly_holdingTenant fun c₁ => .bind (orderly_list ?_)
  intro seen c₂ hspares
  -- the outcome of the check decides about the upsert
  dsimp only [Call.Onwards]
  split
  · trivial
  · next hnone =>
    refine orderly_upsert hcodec author List.mem_cons_self ?_
    have hvacant : store.Vacant aspect tenant object seen := by
      intro key y hkey ⟨r, hr, hdecode⟩ hsame
      -- the object would have been in the list
      have hmem := store.mem_objects_listed.2
        ⟨key, r, hkey, hr, store.decoded_of_decode hdecode⟩
      have hother := List.find?_eq_none.1 hnone _ hmem
      simp [hsame] at hother
    -- others only took objects away since
    exact hvacant.of_fades (hspares tenant List.mem_cons_self)

end ObjectStore

/-! ### Any calls -/

/-- **Every call is orderly at its start.** All but insertions add tombstones only. -/
theorem ObjectCall.orderly_worker [BEq κ] [LawfulBEq κ]
    (hcodec : ∀ x v, store.codec.encode x = .ok v → store.codec.decode v = .ok x)
    (call : ObjectCall τ) (c : Collection) :
    (call.worker store aspect).Orderly store aspect c := by
  cases call with
  | insertUnique author tenant object =>
    exact ObjectStore.orderly_insertUnique hcodec author tenant object
  | delete author tenant context =>
    exact Procedure.Adds.orderly (store.addsOnly_delete author tenant context rfl)
  | deleteAll author tenant contexts =>
    exact Procedure.Adds.orderly (store.addsOnly_deleteAll author tenant contexts rfl)
  | get tenant context => exact Procedure.Adds.orderly (store.addsOnly_get tenant context)
  | list tenant options => exact Procedure.Adds.orderly (store.addsOnly_list tenant options)

namespace ObjectTraffic

/-- **The objects of a tenant differ in the aspect at any time.** Whatever insertions, deletions and
readings of objects are started on a collection that shows none of them, however their steps
interleave, and whichever of them are turned away because they waited too long for the lock of a
tenant: a list of a tenant's objects is answered, no two objects in it have the same value of the
aspect, and what is got under any context is in the list. -/
theorem distinct_of_steps [BEq κ] [LawfulBEq κ]
    (hcodec : ∀ x v, store.codec.encode x = .ok v → store.codec.decode v = .ok x)
    (hempty : ∀ tenant key, key.resource = store.resource tenant → c.shown key = none)
    {stripes : Nat} {t : ObjectTraffic τ} (h : Steps store aspect ⟨c, stripes, []⟩ t)
    (tenant : String) {s : Setting} (hs : s.medium = .memory t.collection none) :
    ∃ objects, (store.list tenant {}).run s = (.ok objects, s) ∧
      (objects.map fun o => aspect o.data).Nodup ∧
      ∀ context, ∃ found, (store.get tenant context).run s = (.ok found, s) ∧
        ∀ o ∈ found, o ∈ objects := by
  -- nothing is shown at first, so there are no two objects to agree in anything
  have hsound : Sound store aspect ⟨c, stripes, []⟩ :=
    ⟨List.nodup_nil, fun tenant => .of_none (hempty tenant), by simp⟩
  have hdistinct := (hsound.steps (ObjectCall.orderly_worker hcodec) h).distinct tenant
  exact hdistinct.list (Store.shows hs)

theorem distinct_of_steps_rivals :
    let store : ObjectStore String := ⟨"rules", "alerting", {
      encode := fun name => .ok (.string name)
      decode := fun v => match v with
        | .string name => .ok name
        | _ => .error "no name"
      contextOf := id }⟩
    let insert (name : String) : ObjectCall String :=
      .insertUnique ⟨"ada", "ada@example.com"⟩ "tenant-1" name
    ∃ (t : ObjectTraffic String) (s : Setting) (objects : List (Object String)),
      Steps store String.length ⟨.empty, 1, []⟩ t ∧ s.medium = .memory t.collection none ∧
        (∃ u, ⟨insert "red", .done (.ok u), []⟩ ∈ t.workers) ∧
        ⟨insert "tan", .done (.error (TenantLocks.timedOut "tenant-1")), []⟩ ∈ t.workers ∧
        (store.list "tenant-1" {}).run s = (.ok objects, s) ∧
        objects.map (·.data) = ["red"] ∧ (objects.map fun o => o.data.length).Nodup := by
  intro store insert
  let s : Setting := .idle .empty
  let run := ((insert "red").call store String.length).steps.elementwise.run (serveAlone 1) (s, [])
  obtain ⟨next, hnext⟩ : ∃ next, ((insert "red").call store String.length).steps.elementwise =
      .ask (.lockTenant "tenant-1") next := ⟨_, rfl⟩
  -- the first call takes the lock, and the second one waits for it in vain
  have hlocked : Steps store String.length ⟨.empty, 1, []⟩
      ⟨.empty, 1, [(insert "tan").worker store String.length,
        ⟨insert "red", next true, ["tenant-1"]⟩]⟩ := by
    refine .head (.start _ (insert "red")) (.head (.start _ (insert "tan")) (.single ?_))
    rw [ObjectCall.worker, ObjectCall.worker, hnext]
    exact .work [_] [] (.lock rfl next [])
  have hdenied : Steps store String.length
      ⟨.empty, 1, [(insert "tan").worker store String.length,
        ⟨insert "red", next true, ["tenant-1"]⟩]⟩
      ⟨.empty, 1, [⟨insert "tan", .done (.error (TenantLocks.timedOut "tenant-1")), []⟩,
        ⟨insert "red", next true, ["tenant-1"]⟩]⟩ := by
    refine .head (.work [] [_] (.timeOut _ [])) (.single (.work [] [_] ?_))
    exact .serve rfl ⟨s, s, rfl, rfl, rfl⟩ _ []
  -- then the first call goes on alone
  obtain ⟨c, hmedium, halone⟩ := steps_alone store String.length
    [⟨insert "tan", .done (.error (TenantLocks.timedOut "tenant-1")), []⟩] [] (by simp) (next true)
    (s := s) rfl ["tenant-1"]
  have hrun : (next true).run (serveAlone 1) (s, ["tenant-1"]) = run := by
    simp only [run, hnext]
    rfl
  rw [hrun] at hmedium halone
  -- the first call ends well and gives its lock back
  have hended : run.1.isOk = true ∧ run.2.2 = [] := by decide +kernel
  have hlisted : ((store.list "tenant-1" {}).run run.2.1).1.toOption.map (List.map Object.data) =
      some ["red"] := by decide +kernel
  have hsteps := hlocked.trans (hdenied.trans halone)
  obtain ⟨objects, hlist, hnodup, -⟩ := distinct_of_steps (by rintro x v ⟨⟩; rfl)
    (fun _ _ _ => Collection.shown_empty _) hsteps "tenant-1" hmedium
  rw [hlist] at hlisted
  refine ⟨_, run.2.1, objects, hsteps, hmedium, ?_, ?_, hlist, Option.some.inj hlisted, hnodup⟩
  · cases houtcome : run.1 with
    | error e =>
      rw [houtcome] at hended
      cases hended.1
    | ok u => exact ⟨u, by simp [hended.2]⟩
  · exact List.mem_cons_self

end ObjectTraffic
end ConfigLedger
