import ConfigLedger.Proofs.Backend.Snapshot

/-!
# Snapshots that behave like memory

A snapshot answers every call as its collection would in memory, and holds the same documents
afterwards (`Turn.Refines`). The exception is a call that adds documents while the file cannot be
written: it answers the error of the medium, and what it added is taken out again.

Taking out is by version, so it must not reach a document that was there before, nor miss one of a
batch that was refused in part. It restores the collection because the documents that were added
are known one by one and their versions were free before (`Collection.foldl_remove_additions`).

That every call of a run refines the call in memory (`Snapshot.refines_of_mem_turns`) carries over
to the run as a whole: the documents at its end are those that memory holds after the same calls
without those whose write failed (`Snapshot.collection_runAll`).
-/

namespace ConfigLedger

/-! ### Taking additions back -/

namespace Collection

variable {c c' : Collection} {d e : Document}

theorem mem_foldl_remove {added : List Document} :
    e ∈ (added.foldl remove c).documents ↔
      e ∈ c.documents ∧ ∀ d ∈ added, d.sameVersion e = false := by
  induction added generalizing c with
  | nil => simp
  | cons d rest ih =>
    have hmem : e ∈ (c.remove d).documents ↔ e ∈ c.documents ∧ d.sameVersion e = false := by
      rw [remove, List.mem_filter, Bool.not_eq_true']
    rw [List.foldl_cons, ih, hmem, List.forall_mem_cons, and_assoc]

/-- **Additions whose versions were free** are taken back without a trace. -/
theorem foldl_remove_eq {added : List Document}
    (hmem : ∀ e, e ∈ c'.documents ↔ e ∈ added ∨ e ∈ c.documents)
    (hfree : ∀ d ∈ added, ∀ e ∈ c.documents, d.sameVersion e = false) :
    added.foldl remove c' = c := by
  refine eq_of_mem_iff fun e => ?_
  rw [mem_foldl_remove, hmem]
  constructor
  · rintro ⟨hadded | he, hkept⟩
    -- what was added has the version of an addition, namely its own
    · have hself : e.sameVersion e = true := Document.sameVersion_iff.2 ⟨rfl, rfl⟩
      rw [hkept e hadded] at hself
      cases hself
    · exact he
  · intro he
    exact ⟨.inr he, fun d hd => hfree d hd e he⟩

theorem sameVersion_eq_false_of_insert? (h : c.insert? d = some c') (he : e ∈ c.documents) :
    d.sameVersion e = false := by
  rw [Bool.eq_false_iff]
  intro hsame
  obtain ⟨hkey, hversion⟩ := Document.sameVersion_iff.1 hsame
  exact not_mem_of_insert?_eq_some h he hkey.symm hversion.symm

theorem foldl_remove_insert? (h : c.insert? d = some c') : [d].foldl remove c' = c := by
  refine foldl_remove_eq (fun e => ?_) fun f hf e he => ?_
  · rw [mem_of_insert?_eq_some h, List.mem_singleton]
  · rw [List.mem_singleton.1 hf]
    exact sameVersion_eq_false_of_insert? h he

theorem documents_ne_of_insert? (h : c.insert? d = some c') : c'.documents ≠ c.documents := by
  intro hsame
  have hmem : d ∈ c'.documents := (mem_of_insert?_eq_some h).2 (.inl rfl)
  rw [hsame] at hmem
  exact not_mem_of_insert?_eq_some h hmem rfl rfl

/-- A collection that was added to is not what it was. -/
theorem ne_of_insert? (h : c.insert? d = some c') : c' ≠ c :=
  fun hsame => documents_ne_of_insert? h (congrArg documents hsame)

/-- The documents of a bulk addition that were added. -/
def additions (c : Collection) (documents : List Document) : List Document :=
  Snapshot.additions documents (c.insertAll documents).1

@[simp] theorem additions_nil : c.additions [] = [] := rfl

theorem additions_cons (d : Document) (rest : List Document) :
    c.additions (d :: rest) =
      match c.insert? d with
      | some c' => d :: c'.additions rest
      | none => c.additions rest := by
  rw [additions, insertAll]
  cases c.insert? d <;> simp [additions, Snapshot.additions]

theorem insertAll_cons (d : Document) (rest : List Document) :
    (c.insertAll (d :: rest)).2 =
      match c.insert? d with
      | some c' => (c'.insertAll rest).2
      | none => (c.insertAll rest).2 := by
  rw [insertAll]
  cases c.insert? d <;> rfl

/-- What is there after a bulk addition was added by it, or was there before. -/
theorem mem_insertAll {documents : List Document} :
    e ∈ (c.insertAll documents).2.documents ↔ e ∈ c.additions documents ∨ e ∈ c.documents := by
  induction documents generalizing c with
  | nil => simp [insertAll]
  | cons d rest ih =>
    rw [additions_cons, insertAll_cons]
    cases hinsert : c.insert? d with
    | none => exact ih
    | some c' =>
      rw [ih, mem_of_insert?_eq_some hinsert, List.mem_cons]
      tauto

/-- The version of an addition was free, also if the batch names a version more than once. -/
theorem sameVersion_eq_false_of_mem_additions {documents : List Document}
    (hd : d ∈ c.additions documents) (he : e ∈ c.documents) : d.sameVersion e = false := by
  induction documents generalizing c with
  | nil => exact absurd hd List.not_mem_nil
  | cons f rest ih =>
    rw [additions_cons] at hd
    cases hinsert : c.insert? f with
    | none =>
      -- a version that is taken is skipped
      rw [hinsert] at hd
      exact ih hd he
    | some c' =>
      rw [hinsert] at hd
      rcases List.mem_cons.1 hd with rfl | hd
      · -- the others were added to a larger collection, and `e` stands in that one too
        exact sameVersion_eq_false_of_insert? hinsert he
      · exact ih hd (subset_insert? hinsert he)

/-- **A bulk addition is taken back without a trace**, whichever of its documents were added. -/
theorem foldl_remove_additions (c : Collection) (documents : List Document) :
    (c.additions documents).foldl remove (c.insertAll documents).2 = c :=
  foldl_remove_eq (fun _ => mem_insertAll) fun _ hd _ he =>
    sameVersion_eq_false_of_mem_additions hd he

/-- A bulk addition reports a success exactly if it changes the collection. -/
theorem any_insertAll_iff {documents : List Document} :
    (c.insertAll documents).1.any id = true ↔ (c.insertAll documents).2 ≠ c := by
  induction documents generalizing c with
  | nil => simp [insertAll]
  | cons d rest ih =>
    rw [insertAll_cons, insertAll]
    cases hinsert : c.insert? d with
    -- nothing was added, so the rest of the batch decides
    | none => exact ih
    | some c' =>
      refine iff_of_true rfl fun heq => ?_
      -- the first document is there to stay
      have hmem : d ∈ c'.documents := (mem_of_insert?_eq_some hinsert).2 (.inl rfl)
      have hstays := c'.subset_insertAll rest hmem
      change (c'.insertAll rest).2 = c at heq
      rw [heq] at hstays
      exact not_mem_of_insert?_eq_some hinsert hstays rfl rfl

end Collection

/-! ### Calls -/

/-- A call to what keeps documents. -/
inductive BackendCall where
  | find (query : Query)
  | insert (document : Document)
  | insertIf (document : Document) (condition : Predicate)
  | insertAll (documents : List Document)

namespace BackendCall

/-- What a call answers. -/
def Answer : BackendCall → Type
  | find _ => List Document
  | insert _ => Unit
  | insertIf _ _ => Bool
  | insertAll _ => List (Except BackendError Unit)

/-- The call to a collection in memory. -/
def onMemory (c : Collection) : (call : BackendCall) → Except BackendError call.Answer × Collection
  | find q => (.ok (c.find q), c)
  | insert d => Memory.insert c d
  | insertIf d condition =>
    (.ok (Memory.insertIf c d condition).1, (Memory.insertIf c d condition).2)
  | insertAll documents => (.ok (Memory.insertAll c documents).1, (Memory.insertAll c documents).2)

/-- The call to a snapshot, and the failure that it meets if it comes to write the file. -/
def onSnapshot (s : Snapshot) (failure : Option Failure) :
    (call : BackendCall) → Except BackendError call.Answer × Snapshot
  | find q => (.ok (s.collection.find q), s)
  | insert d => s.insert d failure
  | insertIf d condition => s.insertIf d condition failure
  | insertAll documents => s.insertAll documents failure

end BackendCall

/-- A call to a snapshot, with what it answered and what it left behind. -/
structure Turn where
  before : Snapshot
  call : BackendCall
  failure : Option Failure
  answer : Except BackendError call.Answer
  after : Snapshot

/-- Makes a call. -/
def Snapshot.turn (s : Snapshot) (call : BackendCall) (failure : Option Failure) : Turn :=
  ⟨s, call, failure, (call.onSnapshot s failure).1, (call.onSnapshot s failure).2⟩

namespace Turn

variable (t : Turn)

/-- The same call to the same documents in memory. -/
def memory : Except BackendError t.call.Answer × Collection :=
  t.call.onMemory t.before.collection

/-- The documents change, so the file is to be written. -/
def Writes : Prop :=
  t.memory.2 ≠ t.before.collection

/-- What comes of writing the file, and the disk after that. -/
def save : Option String × Disk :=
  t.before.disk.save t.before.path ⟨t.before.packed, Snapshot.textOf t.memory.2.documents⟩ t.failure

/-- The call does what it would do in memory, except that a write that fails undoes it. -/
structure Refines : Prop where
  /-- Where nothing is added nothing is written. -/
  idle : ¬ t.Writes → t.answer = t.memory.1 ∧ t.after = t.before
  saved : t.Writes → t.save.1 = none →
    t.answer = t.memory.1 ∧
      t.after = { t.before with collection := t.memory.2, disk := t.save.2 } ∧ t.after.Written
  failed : t.Writes → ∀ reason, t.save.1 = some reason →
    t.answer = .error (.io reason) ∧ t.after = { t.before with disk := t.save.2 }

end Turn

/-! ### One call -/

namespace Snapshot

variable {s : Snapshot} {call : BackendCall} {failure : Option Failure}

theorem refines_of_same (hsame : (call.onMemory s.collection).2 = s.collection)
    (hcall : call.onSnapshot s failure = ((call.onMemory s.collection).1, s)) :
    (s.turn call failure).Refines where
  idle _ := ⟨congrArg Prod.fst hcall, congrArg Prod.snd hcall⟩
  saved hwrites := absurd hsame hwrites
  failed hwrites := absurd hsame hwrites

/-- **A call that writes** leaves no trace of its additions if that fails. -/
theorem refines_of_persist {c : Collection} {added : List Document} {a : call.Answer}
    (hmemory : call.onMemory s.collection = (.ok a, c)) (hne : c ≠ s.collection)
    (hadded : added.foldl Collection.remove c = s.collection)
    (hcall : call.onSnapshot s failure =
      (({ s with collection := c }.persist added failure).1.map fun _ => a,
        ({ s with collection := c }.persist added failure).2)) :
    (s.turn call failure).Refines := by
  have hmemory' : (s.turn call failure).memory = (.ok a, c) := hmemory
  have hsave : (s.turn call failure).save =
      s.disk.save s.path ⟨s.packed, textOf c.documents⟩ failure := by
    rw [Turn.save, hmemory']
    rfl
  refine ⟨fun hidle => ?_, fun _ hnone => ?_, fun _ reason hreason => ?_⟩
  · -- a call that writes changes the documents
    rw [Turn.Writes, hmemory'] at hidle
    exact absurd hne hidle
  · -- what was saved is what the file holds
    rw [hsave] at hnone
    obtain ⟨rfl, hsaves⟩ := Disk.of_save_eq_none hnone
    obtain ⟨disk, hdisk, -, hfind⟩ := hsaves.save ⟨s.packed, textOf c.documents⟩
    have hturn : call.onSnapshot s none = (.ok a, { s with collection := c, disk }) := by
      rw [hcall, persist, hdisk]
      rfl
    rw [hmemory', hsave, hdisk]
    simp only [turn, hturn]
    exact ⟨trivial, trivial, hfind⟩
  · -- what was added is taken back
    rw [hsave] at hreason ⊢
    obtain ⟨disk, hdisk⟩ : ∃ disk, s.disk.save s.path ⟨s.packed, textOf c.documents⟩ failure =
        (some reason, disk) := ⟨_, Prod.ext hreason rfl⟩
    have hturn : call.onSnapshot s failure = (.error (.io reason), { s with disk }) := by
      rw [hcall, persist, hdisk]
      simp only [hadded]
      rfl
    rw [hdisk]
    simp only [turn, hturn]
    exact ⟨trivial, trivial⟩

/-- **Every call to a snapshot refines the call to memory.** -/
theorem refines_turn (s : Snapshot) (call : BackendCall) (failure : Option Failure) :
    (s.turn call failure).Refines := by
  cases call with
  | find q => exact refines_of_same rfl rfl
  | insert d =>
    -- the insertion writes exactly if the version is free
    cases hinsert : s.collection.insert? d with
    | none =>
      refine refines_of_same ?_ ?_
      · -- a duplicate: refused by both, and nothing is written
        change (Memory.insert s.collection d).2 = s.collection
        rw [Memory.insert, hinsert]
      · change s.insert d failure = ((Memory.insert s.collection d).1, s)
        rw [Snapshot.insert, Memory.insert, hinsert]
    | some c =>
      refine @refines_of_persist s (.insert d) failure c [d] () ?_
        (Collection.ne_of_insert? hinsert) (Collection.foldl_remove_insert? hinsert) ?_
      · -- added in memory, and what was added is that one document
        change Memory.insert s.collection d = (.ok (), c)
        rw [Memory.insert, hinsert]
      · change s.insert d failure = _
        rw [Snapshot.insert, hinsert]
        refine Prod.ext ?_ rfl
        -- a save that succeeds answers nothing, and neither does the insertion
        change ({ s with collection := c }.persist [d] failure).1 = _
        cases ({ s with collection := c }.persist [d] failure).1 <;> rfl
  | insertIf d condition =>
    -- the condition and the version are looked at together, so there are two cases again
    cases hinsert : s.collection.insertIf? d condition with
    | none =>
      refine refines_of_same ?_ ?_
      · -- not stored is an answer here, and no error
        change (Memory.insertIf s.collection d condition).2 = s.collection
        rw [Memory.insertIf, hinsert]
      · change s.insertIf d condition failure =
          (.ok (Memory.insertIf s.collection d condition).1, s)
        rw [Snapshot.insertIf, Memory.insertIf, hinsert]
    | some c =>
      have hfree := (Collection.insertIf?_eq_some condition hinsert).2
      refine @refines_of_persist s (.insertIf d condition) failure c [d] true ?_
        (Collection.ne_of_insert? hfree) (Collection.foldl_remove_insert? hfree) ?_
      · change (Except.ok (Memory.insertIf s.collection d condition).1,
          (Memory.insertIf s.collection d condition).2) = (.ok true, c)
        rw [Memory.insertIf, hinsert]
      · change s.insertIf d condition failure = _
        rw [Snapshot.insertIf, hinsert]
        rfl
  | insertAll documents =>
    -- the file is written if any document of the batch was added
    by_cases hany : (s.collection.insertAll documents).1.any id = true
    · refine refines_of_persist (a := (Memory.insertAll s.collection documents).1) rfl
        (Collection.any_insertAll_iff.1 hany)
        (s.collection.foldl_remove_additions documents) ?_
      simp only [BackendCall.onSnapshot, Snapshot.insertAll, if_pos hany]
      rfl
    · -- no addition, no change
      have hsame : (s.collection.insertAll documents).2 = s.collection :=
        not_not.1 (mt Collection.any_insertAll_iff.2 hany)
      refine refines_of_same hsame ?_
      simp only [BackendCall.onSnapshot, Snapshot.insertAll, if_neg hany]
      rfl

/-! ### Runs -/

/-- Makes calls one after the other. -/
def turns (s : Snapshot) : List (BackendCall × Option Failure) → List Turn
  | [] => []
  | (call, failure) :: rest => s.turn call failure :: (s.turn call failure).after.turns rest

/-- The snapshot after a run. -/
def runAll (s : Snapshot) (calls : List (BackendCall × Option Failure)) : Snapshot :=
  calls.foldl (fun s call => (s.turn call.1 call.2).after) s

/-- After a call the documents are those of memory, unless the file could not be written. -/
theorem collection_turn (s : Snapshot) (call : BackendCall) (failure : Option Failure) :
    (s.turn call failure).after.collection =
      if (s.turn call failure).save.1.isNone then (call.onMemory s.collection).2
      else s.collection := by
  obtain ⟨hidle, hsaved, hfailed⟩ := s.refines_turn call failure
  -- whatever the call, its refinement decides each of the three cases
  by_cases hwrites : (s.turn call failure).Writes
  · cases hsave : (s.turn call failure).save.1 with
    | none =>
      rw [(hsaved hwrites hsave).2.1]
      rfl
    | some reason =>
      rw [(hfailed hwrites reason hsave).2]
      rfl
  · -- the same documents either way
    have hsame : (call.onMemory s.collection).2 = s.collection := not_not.1 hwrites
    rw [(hidle hwrites).2, hsame, ite_self]
    rfl

/-- **After a run** the documents are those that memory holds after the calls whose write did not
fail. -/
theorem collection_runAll (s : Snapshot) (calls : List (BackendCall × Option Failure)) :
    (s.runAll calls).collection =
      ((s.turns calls).filter fun t => t.save.1.isNone).foldl
        (fun c t => (t.call.onMemory c).2) s.collection := by
  induction calls generalizing s with
  | nil => rfl
  | cons call rest ih =>
    -- the first call is one step, and the turns of the rest start where it ends
    have hstep := s.collection_turn call.1 call.2
    rw [runAll, List.foldl_cons, ← runAll, ih, turns, List.filter_cons]
    split
    · next hsave =>
      rw [hstep, if_pos hsave, List.foldl_cons]
      rfl
    · next hsave => rw [hstep, if_neg hsave]

/-- **Every call of a run refines the call to memory**, whatever documents it starts with and
whichever writes fail. -/
theorem refines_of_mem_turns (documents : List Document) (disk : Disk) (path : Path)
    (packed : Bool) (calls : List (BackendCall × Option Failure)) :
    ∀ t ∈ turns ⟨.ofList documents, disk, path, packed⟩ calls, t.Refines := by
  have hgeneral (s : Snapshot) : ∀ t ∈ s.turns calls, t.Refines := by
    induction calls generalizing s with
    | nil => simp [turns]
    | cons call rest ih =>
      rw [turns, List.forall_mem_cons]
      exact ⟨s.refines_turn call.1 call.2, ih _⟩
  exact hgeneral _

theorem refines_of_mem_turns_batch :
    let version (n : UInt64) : Document :=
      ⟨Resource.defaultKey ⟨"alerting", "rules", "tenant-1"⟩, n, ⟨"ada", "ada@example.com"⟩,
        .bool true, 1000, 1000⟩
    let s : Snapshot := ⟨.ofList [version 1], {}, Path.inDirectory "/" "configs.json", false⟩
    -- one document of the batch is there already, and another comes twice
    let call : BackendCall := .insertAll [version 1, version 2, version 2]
    let failure : Option Failure := some (.create "no space left")
    s.turn call failure ∈ s.turns [(call, failure)] ∧ (s.turn call failure).Writes ∧
      (s.turn call failure).Refines := by
  intro version s call failure
  have hmem : s.turn call failure ∈ s.turns [(call, failure)] := List.mem_singleton.2 rfl
  -- the second document is new, so the batch changes the collection
  have hwrites : (s.turn call failure).Writes := by
    change (s.collection.insertAll [version 1, version 2, version 2]).2 ≠ s.collection
    exact Collection.any_insertAll_iff.1 (by decide)
  exact ⟨hmem, hwrites, refines_of_mem_turns [version 1] {} _ false [(call, failure)] _ hmem⟩

end Snapshot

end ConfigLedger
