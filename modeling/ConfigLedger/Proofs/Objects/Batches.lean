import ConfigLedger.Proofs.Objects.Upserting
import ConfigLedger.Proofs.Store.Elements

/-!
# Upserts of many objects

Does `ObjectStore.upsertAll` do what single upserts do, one after the other?

First all objects are encoded, and if one does not encode, nothing is stored. What is encoded is
kept by key, so of objects that share a context the last one counts, at the place of the first
(`lastOfEach`); an empty context is the default one. Then the values are written together, and each
answer is decoded by itself.

**The answers, the documents and the times are those of single upserts** of the objects that count,
in that order, values that cannot be written and objects that do not decode included
(`ObjectStore.run_upsertAll`).
-/

namespace ConfigLedger

variable {α β ι τ : Type} {c : Collection} {s : Setting}

/-! ### One call after the other -/

namespace Call

/-- Calls that go on from others, without asking for anything, are made one after the other as
those are. -/
theorem runEach_map (key : ι → Key) {call : ι → Call α} {longer : ι → Call β}
    {finish : α → Except StoreError β} {xs : List ι}
    (h : ∀ x ∈ xs, ∀ s, (longer x).run s =
      (((call x).run s).1.bind finish, ((call x).run s).2)) (s : Setting) :
    runEach (xs.map fun x => (key x, longer x)) s =
      ((runEach (xs.map fun x => (key x, call x)) s).1.map fun answer =>
        (answer.1, answer.2.bind finish), (runEach (xs.map fun x => (key x, call x)) s).2) := by
  induction xs generalizing s with
  | nil => rfl
  | cons x rest ih =>
    obtain ⟨hx, hrest⟩ := List.forall_mem_cons.1 h
    simp only [List.map_cons, runEach, hx, ih hrest]

theorem keys_runEach (calls : List (Key × Call α)) (s : Setting) :
    (runEach calls s).1.map Prod.fst = calls.map Prod.fst := by
  induction calls generalizing s with
  | nil => rfl
  | cons call rest ih => simp only [runEach, List.map_cons, ih]

end Call

namespace ObjectStore

variable (store : ObjectStore τ)

/-! ### Encoding -/

/-- Objects that all encode leave the value of the last one under each key. -/
theorem encodeAll_of_ok {value : τ → Value} {tenant : String} {objects : List τ}
    (h : ∀ x ∈ objects, store.codec.encode x = .ok (value x)) :
    store.encodeAll tenant objects =
      .ok (.ofList (objects.map fun x => (store.keyOf tenant x, value x))) := by
  rw [encodeAll, Entries.ofList, List.foldl_map]
  generalize Entries.empty = entries
  induction objects generalizing entries with
  | nil => rfl
  | cons x rest ih =>
    obtain ⟨hx, hrest⟩ := List.forall_mem_cons.1 h
    rw [List.foldlM_cons, List.foldl_cons, encode, hx]
    exact ih hrest _

/-- An object that does not encode ends it. -/
theorem encodeAll_of_error (tenant : String) {objects : List τ}
    (h : ∃ x ∈ objects, ∃ reason, store.codec.encode x = .error reason) :
    ∃ x ∈ objects, ∃ reason, store.codec.encode x = .error reason ∧
      store.encodeAll tenant objects =
        .error (.invalidArgument ("could not encode object: " ++ reason)) := by
  -- what was encoded before does not matter, so this is said of any entries
  rw [encodeAll]
  generalize Entries.empty = entries
  induction objects generalizing entries with
  | nil => simp at h
  | cons x rest ih =>
    rw [List.foldlM_cons]
    cases hx : store.codec.encode x with
    | error reason =>
      refine ⟨x, List.mem_cons_self, reason, hx, ?_⟩
      rw [encode, hx]
      rfl
    | ok value =>
      -- the first object encodes, so it is one of the others that does not
      have hrest : ∃ y ∈ rest, ∃ reason, store.codec.encode y = .error reason := by
        simpa [hx] using h
      obtain ⟨y, hy, reason, herror, hencodeAll⟩ :=
        ih hrest (entries.put (store.keyOf tenant x) value)
      refine ⟨y, List.mem_cons_of_mem x hy, reason, herror, ?_⟩
      rw [encode, hx]
      exact hencodeAll

/-! ### Writing -/

/-- An upsert of an object that encodes is a write that goes on with the answer. -/
theorem run_upsert_of_encode (author : Author) (tenant : String) {x : τ} {value : Value}
    (hvalue : store.codec.encode x = .ok value) (s : Setting) :
    (store.upsert author tenant x none).run s =
      (((Store.write author (store.keyOf tenant x) value none).run s).1.bind store.upsertedOf,
        ((Store.write author (store.keyOf tenant x) value none).run s).2) := by
  have hencode : store.encode x = .ok value := by
    rw [encode, hvalue]
    rfl
  rw [upsert, Call.run_bind, Call.run_ofExcept, hencode]
  exact Call.run_bind_of_settles _ store.settles_upserted s

/-- The values of objects are written together as they are written one after the other, the last one
under each key. -/
theorem run_bulkWrite_objects (hs : s.medium = .memory c none) (author : Author) (tenant : String)
    {objects : List τ} (hobjects : objects ≠ [])
    (hfree : ∀ x ∈ objects, store.keyOf tenant x ∉ s.monitors.held) (value : τ → Value) :
    let each := Call.runEach ((lastOfEach (store.keyOf tenant) objects).map fun x =>
      (store.keyOf tenant x, Store.write author (store.keyOf tenant x) (value x) none)) s
    (Store.bulkWrite author
      (.ofList (objects.map fun x => (store.keyOf tenant x, value x)))).run s =
      (.ok each.1, each.2) := by
  -- the entries in order, under the keys of the objects
  obtain ⟨values, hvalues⟩ : ∃ values, values = Entries.ofList
    (objects.map fun x => (store.keyOf tenant x, value x)) := ⟨_, rfl⟩
  have htoList : values.toList = (lastOfEach (store.keyOf tenant) objects).map fun x =>
      (store.keyOf tenant x, value x) := by
    rw [hvalues, Entries.toList_ofList_map]
  have hkeys : values.keys = firstBy id (objects.map (store.keyOf tenant)) := by
    rw [hvalues, Entries.keys_ofList_map]
  -- every key of the entries is that of some object
  have hfreeKeys : ∀ key ∈ values.keys, key ∉ s.monitors.held := by
    intro key hkey
    rw [hkeys, mem_firstBy_id] at hkey
    obtain ⟨x, hx, rfl⟩ := List.mem_map.1 hkey
    exact hfree x hx
  have hnonempty : values.toList ≠ [] := by
    obtain ⟨x, hx⟩ := List.exists_mem_of_ne_nil objects hobjects
    have hkey : store.keyOf tenant x ∈ values.keys := by
      rw [hkeys, mem_firstBy_id]
      exact List.mem_map_of_mem hx
    intro hnil
    rw [Entries.keys, hnil] at hkey
    cases hkey
  -- the keys of entries are distinct, so no write finds what another one has stored
  have hsplits : Store.SplitsAll Pending.written
      (values.toList.map fun e => (e.1, Store.write author e.1 e.2 none))
      (Store.prepareWrites author values.toList) c c s :=
    Store.splitsAll_writes author values.toList values.distinct hs
      (fun e he => hfreeKeys e.1 (List.mem_map_of_mem he)) fun _ _ => rfl
  rw [← hvalues, hsplits.run_bulk hs hnonempty hfreeKeys, htoList, List.map_map]
  rfl

/-! ### Upserting -/

/-- Single upserts of the last objects under each key, one after the other. -/
def upsertEach (author : Author) (tenant : String) (objects : List τ) (s : Setting) :
    Answers (Upserted τ) × Setting :=
  Call.runEach ((lastOfEach (store.keyOf tenant) objects).map fun x =>
    (store.keyOf tenant x, store.upsert author tenant x none)) s

/-- They come in the order in which the contexts first come. -/
theorem contexts_upsertEach (author : Author) (tenant : String) (objects : List τ) (s : Setting) :
    (store.upsertEach author tenant objects s).1.map (·.1.context) =
      (objects.map fun x => (store.keyOf tenant x).context).eraseDups := by
  -- the keys are all of one resource, so their contexts tell them apart
  have hcontext : ∀ a ∈ objects.map (store.keyOf tenant), ∀ b ∈ objects.map (store.keyOf tenant),
      a.context = b.context → a = b := by
    intro a ha b hb hab
    obtain ⟨x, -, rfl⟩ := List.mem_map.1 ha
    obtain ⟨y, -, rfl⟩ := List.mem_map.1 hb
    exact congrArg (Key.mk (store.resource tenant)) hab
  have hkeys : (store.upsertEach author tenant objects s).1.map Prod.fst =
      firstBy id (objects.map (store.keyOf tenant)) := by
    rw [upsertEach, Call.keys_runEach, List.map_map]
    exact map_lastOfEach _ _
  -- the contexts of the keys, each once, in the order of their first objects
  calc
    (store.upsertEach author tenant objects s).1.map (·.1.context)
      = ((store.upsertEach author tenant objects s).1.map Prod.fst).map Key.context := by
        rw [List.map_map]
        rfl
    _ = firstBy id ((objects.map (store.keyOf tenant)).map Key.context) := by
        rw [hkeys, map_firstBy_id hcontext]
    _ = (objects.map fun x => (store.keyOf tenant x).context).eraseDups := by
        rw [List.map_map, firstBy_id_eq_eraseDups]
        rfl

/-- Objects that all encode are upserted one after the other. -/
theorem upsertAll_of_ok (hs : s.medium = .memory c none) (author : Author) (tenant : String)
    {objects : List τ} (hobjects : objects ≠ [])
    (hfree : ∀ x ∈ objects, store.keyOf tenant x ∉ s.monitors.held) {value : τ → Value}
    (hvalue : ∀ x ∈ objects, store.codec.encode x = .ok (value x)) :
    let each := store.upsertEach author tenant objects s
    (store.upsertAll author tenant objects).run s =
      (.ok (each.1.map fun answer => (answer.1.context, answer.2)), each.2) := by
  intro each
  -- the writes together are the single writes, and each answer is decoded where it stands
  have hbulk := store.run_bulkWrite_objects hs author tenant hobjects hfree value
  have hanswer := Call.run_bind_of_settles
    (Store.bulkWrite author (.ofList (objects.map fun x => (store.keyOf tenant x, value x))))
    (settles_answer store.settles_upserted) s
  -- single upserts go on from single writes in the same way
  have heach : each = _ := Call.runEach_map (store.keyOf tenant)
    (fun x hx => store.run_upsert_of_encode author tenant (hvalue x (mem_of_mem_lastOfEach hx))) s
  rw [upsertAll, Call.run_bind, Call.run_ofExcept, store.encodeAll_of_ok hvalue]
  refine hanswer.trans ?_
  rw [hbulk, heach, List.map_map]
  rfl

/-- An object that does not encode ends it before anything is written. -/
theorem upsertAll_of_error {author : Author} {tenant : String} {objects : List τ}
    (h : ∃ x ∈ objects, ∃ reason, store.codec.encode x = .error reason) (s : Setting) :
    ∃ x ∈ objects, ∃ reason, store.codec.encode x = .error reason ∧
      (store.upsertAll author tenant objects).run s =
        (.error (.invalidArgument ("could not encode object: " ++ reason)), s) := by
  obtain ⟨x, hx, reason, herror, hencodeAll⟩ := store.encodeAll_of_error tenant h
  refine ⟨x, hx, reason, herror, ?_⟩
  rw [upsertAll, Call.run_bind, Call.run_ofExcept, hencodeAll]

/-- **Objects that are upserted together** are upserted one after the other, the last one under each
context, and answered in the order in which the contexts first come. If one does not encode, its
error is the answer and nothing is stored. -/
theorem run_upsertAll (hs : s.medium = .memory c none) (author : Author) (tenant : String)
    {objects : List τ} (hobjects : objects ≠ [])
    (hfree : ∀ x ∈ objects, store.keyOf tenant x ∉ s.monitors.held) :
    let run := (store.upsertAll author tenant objects).run s
    let each := store.upsertEach author tenant objects s
    let answers := each.1.map fun answer => (answer.1.context, answer.2)
    ((∃ x ∈ objects, ∃ reason, store.codec.encode x = .error reason) →
        ∃ x ∈ objects, ∃ reason, store.codec.encode x = .error reason ∧
          run = (.error (.invalidArgument ("could not encode object: " ++ reason)), s)) ∧
      ((∀ x ∈ objects, ∃ value, store.codec.encode x = .ok value) →
        run = (.ok answers, each.2) ∧
          answers.map Prod.fst =
            (objects.map fun x => (store.keyOf tenant x).context).eraseDups) := by
  intro run each answers
  -- either some object does not encode, or a value can be chosen for each of them
  refine ⟨fun hfails => store.upsertAll_of_error hfails s, fun hencodes => ?_⟩
  choose! value hvalue using hencodes
  refine ⟨store.upsertAll_of_ok hs author tenant hobjects hfree hvalue, ?_⟩
  rw [List.map_map]
  exact store.contexts_upsertEach author tenant objects s

/-- An empty context is the default one, and a gauge that shows nothing does not read back. -/
theorem run_upsertAll_gauges :
    let objects := [("", some "1"), ("cpu", none), (defaultContext, some "3")]
    let s := Setting.idle .empty
    let run := (sampleGauges.upsertAll ⟨"ada", "ada@example.com"⟩ "tenant-1" objects).run s
    let each := sampleGauges.upsertEach ⟨"ada", "ada@example.com"⟩ "tenant-1" objects s
    let answers := each.1.map fun answer => (answer.1.context, answer.2)
    s.medium = .memory .empty none ∧ objects ≠ [] ∧
      (∀ x ∈ objects, sampleGauges.keyOf "tenant-1" x ∉ s.monitors.held) ∧
      run = (.ok answers, each.2) ∧ answers.map Prod.fst = [defaultContext, "cpu"] := by
  intro objects s run each answers
  have hobjects : objects ≠ [] := List.cons_ne_nil _ _
  have hfree : ∀ x ∈ objects, sampleGauges.keyOf "tenant-1" x ∉ s.monitors.held :=
    fun _ _ => List.not_mem_nil
  obtain ⟨-, hok⟩ := sampleGauges.run_upsertAll rfl ⟨"ada", "ada@example.com"⟩ "tenant-1" hobjects
    hfree
  obtain ⟨hrun, hcontexts⟩ := hok fun x _ => ⟨_, rfl⟩
  exact ⟨rfl, hobjects, hfree, hrun, hcontexts.trans (by decide)⟩

end ObjectStore
end ConfigLedger
