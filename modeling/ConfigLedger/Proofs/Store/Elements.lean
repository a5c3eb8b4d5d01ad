import ConfigLedger.Proofs.Locks.KeyMonitors
import ConfigLedger.Proofs.Store.InMemory
import ConfigLedger.Proofs.Store.Writing

/-!
# Bulk operations, element by element

A bulk operation prepares all its elements, stores what is pending in one request, and deals the
outcomes out to the elements that they belong to. Can a caller tell it from single calls that are
made for the elements one after the other (`Call.runEach`)?

The commit makes no difference: what is stored together is stored and answered as if each element
were committed on its own (`Store.run_commitAll_eq`). What is left is the preparation. A bulk
operation prepares all elements from the collection as it was at first, while a single call finds
what the calls before it have stored. But it looks at the history of its own key only, so a key that
comes for the first time finds the same in both (`Store.Splits`). The keys of a bulk write come
once. A key that is to be deleted may come again: a single deletion then finds a tombstone, and
answers what a bulk deletion answers without looking.
-/

namespace ConfigLedger

variable {α : Type} {c c₀ c' : Collection} {s : Setting} {key : Key}

/-- Makes a call for each of some keys, one after the other. -/
def Call.runEach : List (Key × Call α) → Setting → Answers α × Setting
  | [], s => ([], s)
  | (key, call) :: rest, s =>
    let (answer, s) := call.run s
    let (answers, s) := runEach rest s
    ((key, answer) :: answers, s)

/-! ### Commits -/

/-- Stores a prepared element, if it is pending, and answers it. -/
def Prepared.commit (finish : Pending → Except StoreError α) (c : Collection) :
    Prepared α → Except StoreError α × Collection
  | answered answer => (answer, c)
  | pending p =>
    (((Memory.insert c p.document).1.mapError StoreError.ofBackend).bind fun _ => finish p,
      (Memory.insert c p.document).2)

/-- An element that is committed leaves the histories of all keys but its own as they are. -/
theorem Prepared.history_commit {element : Prepared α} (finish : Pending → Except StoreError α)
    (hown : ∀ d, element.document? = some d → d.key ≠ key) :
    (element.commit finish c).2.history key = c.history key := by
  cases element with
  | answered answer => rfl
  | pending p =>
    change (Memory.insert c p.document).2.history key = _
    rw [Memory.insert]
    cases hinsert : c.insert? p.document with
    | none => rfl
    | some c' => exact Collection.history_of_insert?_of_ne hinsert (hown _ rfl)

namespace Store

variable {finish : Pending → Except StoreError α}

/-- Commits prepared elements one after the other. -/
def commitEach (finish : Pending → Except StoreError α) (c : Collection) :
    List (Key × Prepared α) → Answers α × Collection
  | [] => ([], c)
  | (key, element) :: rest =>
    let (answer, c) := element.commit finish c
    let (answers, c) := commitEach finish c rest
    ((key, answer) :: answers, c)

/-- **Outcomes reach the elements that they belong to.** -/
theorem settle_insertAll (finish : Pending → Except StoreError α)
    (prepared : List (Key × Prepared α)) (c : Collection) :
    let documents := prepared.filterMap (·.2.document?)
    commitEach finish c prepared =
      (settle finish prepared (Memory.outcomes documents (c.insertAll documents).1),
        (c.insertAll documents).2) := by
  induction prepared generalizing c with
  | nil => rfl
  | cons element rest ih =>
    obtain ⟨key, answer | p⟩ := element
    -- an element that was answered takes no outcome
    · simp only [commitEach, Prepared.commit, ih]
      rfl
    -- one that is pending takes the first one
    · simp only [commitEach, Prepared.commit, ih, Prepared.document?, List.filterMap_cons,
        Collection.insertAll, Memory.insert]
      cases c.insert? p.document <;> rfl

theorem run_commitAll_eq (hs : s.medium = .memory c none)
    (prepared : List (Key × Prepared α)) :
    (commitAll finish prepared).run s =
      (some (.ok (commitEach finish c prepared).1),
        { s with medium := .memory (commitEach finish c prepared).2 none }) := by
  rw [run_commitAll hs, settle_insertAll]

/-- **What is prepared under the monitors of some keys** is committed element by element. The
monitors do not matter to it. -/
theorem run_bounded_commitAll (hs : s.medium = .memory c none) (operation : Operation)
    {keys : List Key} (hfree : ∀ key ∈ keys, key ∉ s.monitors.held)
    {prepare : Action (List (Key × Prepared α))} {prepared : List (Key × Prepared α)}
    {readings : Nat → UInt64}
    (hprepare : ∀ monitors, prepare.run { s with monitors } =
      (some (.ok prepared), { s with monitors, readings })) :
    (bounded operation
      (Action.holdingAll (lockOrder keys) do commitAll finish (← prepare))).run s =
      (.ok (commitEach finish c prepared).1,
        { s with medium := .memory (commitEach finish c prepared).2 none, readings }) := by
  -- while the monitors are held, everything but them is as before
  let locked : Setting := { s with monitors := ⟨(lockOrder keys).reverse ++ s.monitors.held⟩ }
  have hbody : (do commitAll finish (← prepare)).run locked =
      (some (.ok (commitEach finish c prepared).1),
        { locked with medium := .memory (commitEach finish c prepared).2 none, readings }) := by
    rw [Action.run_bind, hprepare, Action.andThen_ok]
    exact run_commitAll_eq (s := { locked with readings }) hs prepared
  have hheld := Action.run_holdingAll (nodup_lockOrder keys)
    (fun key hkey => hfree key (mem_lockOrder.1 hkey)) hbody
  rw [Call.run_bounded, hheld]
  rfl

/-! ### Preparations -/

/-- A call for a key does what it does to prepare an element from a collection, under any monitors,
and to commit it at once. -/
structure Splits (finish : Pending → Except StoreError α) (key : Key) (call : Call α)
    (prepare : Action (Prepared α)) (c₀ c : Collection) (s : Setting) (element : Prepared α)
    (readings : Nat → UInt64) : Prop where
  call : call.run s = ((element.commit finish c).1,
    { s with medium := .memory (element.commit finish c).2 none, readings })
  prepare : ∀ monitors, prepare.run { s with medium := .memory c₀ none, monitors } =
    (some (.ok element), { s with medium := .memory c₀ none, monitors, readings })
  own : ∀ d, element.document? = some d → d.key = key

/-- Calls that are made one after the other do what it does to prepare all elements from one
collection and then to commit them. -/
def SplitsAll (finish : Pending → Except StoreError α) (calls : List (Key × Call α))
    (prepare : Action (List (Key × Prepared α))) (c₀ c : Collection) (s : Setting) : Prop :=
  ∃ prepared readings,
    Call.runEach calls s = ((commitEach finish c prepared).1,
      { s with medium := .memory (commitEach finish c prepared).2 none, readings }) ∧
    ∀ monitors, prepare.run { s with medium := .memory c₀ none, monitors } =
      (some (.ok prepared), { s with medium := .memory c₀ none, monitors, readings })

theorem SplitsAll.nil (hs : s.medium = .memory c none) :
    SplitsAll finish [] (pure []) c₀ c s := by
  refine ⟨[], s.readings, ?_, fun _ => rfl⟩
  rw [Call.runEach, commitEach, ← hs]

/-- One element in front of others. -/
theorem SplitsAll.cons {call : Call α} {calls : List (Key × Call α)}
    {prepare : Action (Prepared α)} {prepareRest : Action (List (Key × Prepared α))}
    {element : Prepared α} {readings : Nat → UInt64}
    (h : Splits finish key call prepare c₀ c s element readings)
    (hrest : SplitsAll finish calls prepareRest c₀ (element.commit finish c).2
      { s with medium := .memory (element.commit finish c).2 none, readings }) :
    SplitsAll finish ((key, call) :: calls)
      (do
        let element ← prepare
        return (key, element) :: (← prepareRest)) c₀ c s := by
  -- the rest is prepared in the same collection and committed behind the first element
  obtain ⟨prepared, readings', hcalls, hprepared⟩ := hrest
  refine ⟨(key, element) :: prepared, readings', ?_, fun monitors => ?_⟩
  · simp only [Call.runEach, h.call, hcalls, commitEach]
  · rw [Action.run_bind, h.prepare, Action.andThen_ok, Action.run_bind, hprepared,
      Action.andThen_ok, Action.run_pure]

/-- **What is prepared and committed together**, under the monitors of all keys, is answered as
single calls are. -/
theorem SplitsAll.run_bounded {calls : List (Key × Call α)}
    {prepare : Action (List (Key × Prepared α))} (h : SplitsAll finish calls prepare c c s)
    (hs : s.medium = .memory c none) (operation : Operation) {keys : List Key}
    (hfree : ∀ key ∈ keys, key ∉ s.monitors.held) :
    (bounded operation
      (Action.holdingAll (lockOrder keys) do commitAll finish (← prepare))).run s =
      (.ok (Call.runEach calls s).1, (Call.runEach calls s).2) := by
  obtain ⟨prepared, readings, hcalls, hprepare⟩ := h
  rw [← hs] at hprepare
  rw [run_bounded_commitAll hs operation hfree hprepare, hcalls]

/-! ### Writes -/

theorem splits_write (hs : s.medium = .memory c none) (hfree : key ∉ s.monitors.held)
    (hsame : c.history key = c₀.history key) (author : Author) (value : Value) :
    ∃ element readings, Splits Pending.written key (write author key value none)
      (prepareWriting author key value) c₀ c s element readings := by
  cases hcheck : checkWritable key value with
  | error e =>
    -- a value that must not be written is refused at once
    refine ⟨.answered (.error e), s.readings, ?_, fun monitors => ?_, fun d hd => by cases hd⟩
    · rw [write_eq, Call.run_bounded, Action.run_bind, hcheck, Action.run_ofExcept,
        Action.andThen_error]
      rw [Prepared.commit, ← hs]
      rfl
    · rw [(Medium.shows_memory c₀).run_prepareWriting, hcheck]
  | ok _ =>
    -- the single write finds what is found in the collection as it was, as nothing was added to its
    -- key
    let p := Pending.ofWrite author key value (c.latest key) (s.readings 0)
    refine ⟨.pending p, s.tick.readings, ?_, fun monitors => ?_, fun d hd => ?_⟩
    · rw [run_write (shows hs) hfree author (isNull_of_checkWritable hcheck), hs]
      rfl
    · rw [(Medium.shows_memory c₀).run_prepareWriting, hcheck, ← Collection.latest_congr hsame]
      rfl
    · obtain rfl : p.document = d := Option.some.inj hd
      rfl

/-- Writes are prepared from the collection as it was. Each finds what a single write finds that
comes after those before it, as long as these are writes of other keys. -/
theorem splitsAll_writes (author : Author) (elements : List (Key × Value))
    (hkeys : (elements.map Prod.fst).Nodup) (hs : s.medium = .memory c none)
    (hfree : ∀ e ∈ elements, e.1 ∉ s.monitors.held)
    (hsame : ∀ e ∈ elements, c.history e.1 = c₀.history e.1) :
    SplitsAll Pending.written (elements.map fun e => (e.1, write author e.1 e.2 none))
      (prepareWrites author elements) c₀ c s := by
  induction elements generalizing s c with
  | nil => exact .nil hs
  | cons e rest ih =>
    obtain ⟨key, value⟩ := e
    -- the other keys differ from the first one, so their elements still agree
    obtain ⟨hkey, hrestKeys⟩ := List.nodup_cons.1 hkeys
    obtain ⟨hfreeKey, hfreeRest⟩ := List.forall_mem_cons.1 hfree
    obtain ⟨hsameKey, hsameRest⟩ := List.forall_mem_cons.1 hsame
    obtain ⟨element, readings, hsplits⟩ := splits_write hs hfreeKey hsameKey author value
    rw [prepareWrites_cons]
    refine .cons hsplits (ih hrestKeys rfl hfreeRest ?_)
    intro e he
    -- the other keys keep their histories
    rw [Prepared.history_commit, hsameRest e he]
    intro d hd heq
    rw [hsplits.own d hd] at heq
    exact hkey (List.mem_map.2 ⟨e, he, heq.symm⟩)

/-- A bulk write of some entries is a commit of what is prepared for them. -/
theorem SplitsAll.run_bulk {author : Author} {values : Entries Key Value}
    {calls : List (Key × Call Written)}
    (h : SplitsAll Pending.written calls (prepareWrites author values.toList) c c s)
    (hs : s.medium = .memory c none) (hvalues : values.toList ≠ [])
    (hfree : ∀ key ∈ values.keys, key ∉ s.monitors.held) :
    (bulkWrite author values).run s = (.ok (Call.runEach calls s).1, (Call.runEach calls s).2) := by
  have hnonempty : values.toList.isEmpty = false := List.isEmpty_eq_false_iff.2 hvalues
  rw [bulkWrite, if_neg (by simp [hnonempty])]
  exact h.run_bounded hs .bulkWrite hfree

/-- **A bulk write** is answered as single writes are that come one after the other, and leads to
the same documents and times. -/
theorem run_bulkWrite (hs : s.medium = .memory c none) (author : Author)
    {values : Entries Key Value} (hvalues : values.toList ≠ [])
    (hfree : ∀ key ∈ values.keys, key ∉ s.monitors.held) :
    let each := Call.runEach (values.toList.map fun e => (e.1, write author e.1 e.2 none)) s
    (bulkWrite author values).run s = (.ok each.1, each.2) := by
  intro each
  have hsplits : SplitsAll Pending.written
      (values.toList.map fun e => (e.1, write author e.1 e.2 none))
      (prepareWrites author values.toList) c c s :=
    splitsAll_writes author values.toList values.distinct hs
      (fun e he => hfree e.1 (List.mem_map.2 ⟨e, he, rfl⟩)) fun _ _ => rfl
  exact hsplits.run_bulk hs hvalues hfree

theorem run_bulkWrite_mixed :
    let d := Document.sample 9007199254740992 (.string "first")
    let e := Document.sample 9007199254740993 (.string "second")
    let c := Collection.pair d e rfl (by decide)
    let values : Entries Key Value := ⟨[(e.key, .string "third"),
      (e.key.resource.key "a", .null), (e.key.resource.key "b", .string "new")], by decide⟩
    let each := Call.runEach (values.toList.map fun v => (v.1, write e.author v.1 v.2 none))
      (Setting.idle c)
    (Setting.idle c).medium = .memory c none ∧ values.toList ≠ [] ∧
      (∀ key ∈ values.keys, key ∉ (Setting.idle c).monitors.held) ∧
      (bulkWrite e.author values).run (Setting.idle c) = (.ok each.1, each.2) := by
  intro d e c values each
  have hvalues : values.toList ≠ [] := List.cons_ne_nil _ _
  have hfree : ∀ key ∈ values.keys, key ∉ (Setting.idle c).monitors.held :=
    fun _ _ => List.not_mem_nil
  exact ⟨rfl, hvalues, hfree, run_bulkWrite rfl e.author hvalues hfree⟩

/-! ### Deletions -/

theorem splits_delete_none (hs : s.medium = .memory c none) (hfree : key ∉ s.monitors.held)
    (author : Author) {seen : List Key} (hdead : c.shown key = none)
    (hsame : key ∉ seen → c.history key = c₀.history key) :
    Splits (fun p => .ok p.previous) key (delete author key) (prepareDeletion author seen key) c₀ c
      s (.answered (.ok none)) s.readings := by
  refine ⟨?_, fun monitors => ?_, fun d hd => by cases hd⟩
  · rw [run_delete_none (shows hs) hfree author hdead, Prepared.commit, ← hs]
  · rw [(Medium.shows_memory c₀).run_prepareDeletion]
    by_cases hmem : key ∈ seen
    · rw [if_pos hmem]
    · rw [if_neg hmem, ← Collection.shown_congr (hsame hmem), hdead]

theorem splits_delete_some (hs : s.medium = .memory c none) (hfree : key ∉ s.monitors.held)
    (author : Author) {seen : List Key} (hmem : key ∉ seen) {r : Record}
    (hr : c.shown key = some r) (hsame : c.history key = c₀.history key) :
    Splits (fun p => .ok p.previous) key (delete author key) (prepareDeletion author seen key) c₀ c
      s (.pending (.ofDelete author key r (s.readings 0))) s.tick.readings := by
  -- the key lives, so both read the clock once and make the same tombstone
  refine ⟨?_, fun monitors => ?_, fun d hd => ?_⟩
  · rw [run_delete_some (shows hs) hfree author hr, hs]
    rfl
  · rw [(Medium.shows_memory c₀).run_prepareDeletion, if_neg hmem, ← Collection.shown_congr hsame,
      hr]
    rfl
  · obtain rfl : (Pending.ofDelete author key r (s.readings 0)).document = d := Option.some.inj hd
    rfl

/-- A tombstone hides its key, if its version can be told apart from those below. -/
theorem shown_insert_ofDelete
    (hbound : ∀ d ∈ c.history key, d.version.toNat + 1 < Binary64.exactBound) {r : Record}
    (hr : c.shown key = some r) (author : Author) (now : UInt64) :
    (Memory.insert c (Pending.ofDelete author key r now).document).2.shown key = none := by
  -- the tombstone is the next version, so it becomes the newest one
  have hexact : c.ExactAt key := fun d hd => Nat.lt_of_succ_lt (hbound d hd)
  let d := (Pending.ofDelete author key r now).document
  have hversion : d.version = nextVersion (c.newest key) := by
    rw [Collection.shown, hexact.latest_eq] at hr
    exact Pending.version_ofDelete hr author key now
  obtain ⟨c', hinsert⟩ := hexact.insert?_next (d := d) rfl hversion
  have hhistory : c'.history key = c.history key ++ [d] :=
    hexact.history_of_insert?_next rfl hversion hinsert
  have hexact' : c'.ExactAt key := by
    intro e he
    rw [hhistory, List.mem_append, List.mem_singleton] at he
    rcases he with he | rfl
    · exact hexact e he
    -- the tombstone is numbered one above a version that was there
    · obtain ⟨hlatest, -⟩ := Collection.shown_eq_some_iff.1 hr
      have hbelow : r.version.toNat + 1 < Binary64.exactBound :=
        hbound r.document (Collection.mem_history.2 (Collection.mem_documents_of_latest hlatest))
      change (r.version + 1).toNat < Binary64.exactBound
      rw [UInt64.toNat_add, UInt64.toNat_one]
      exact (Nat.mod_le _ _).trans_lt hbelow
  -- the newest version is found and it is a tombstone
  have hnewest : c'.newest key = some d := by
    rw [Collection.newest, hhistory, List.getLast?_concat]
  change (Memory.insert c d).2.shown key = none
  rw [Memory.insert, hinsert, Collection.shown, hexact'.latest_eq, hnewest]
  rfl

/-- Deletions are prepared from the collection as it was. Each finds what a single deletion finds
that comes after those before it, unless the key came before. -/
theorem splitsAll_deletes (author : Author) (seen keys : List Key)
    (hs : s.medium = .memory c none) (hfree : ∀ key ∈ keys, key ∉ s.monitors.held)
    (hseen : ∀ key ∈ seen, c.shown key = none)
    (hsame : ∀ key ∈ keys, key ∉ seen → c.history key = c₀.history key)
    (hbound : ∀ key ∈ keys, ∀ d ∈ c₀.history key, d.version.toNat + 1 < Binary64.exactBound) :
    SplitsAll (fun p => .ok p.previous) (keys.map fun key => (key, delete author key))
      (prepareDeletes author seen keys) c₀ c s := by
  induction keys generalizing s c seen with
  | nil => exact .nil hs
  | cons key rest ih =>
    obtain ⟨hfreeKey, hfreeRest⟩ := List.forall_mem_cons.1 hfree
    obtain ⟨hsameKey, hsameRest⟩ := List.forall_mem_cons.1 hsame
    obtain ⟨hboundKey, hboundRest⟩ := List.forall_mem_cons.1 hbound
    rw [prepareDeletes_cons]
    cases hr : c.shown key with
    | none =>
      -- no record: the element is answered that there was nothing to delete
      refine .cons (splits_delete_none hs hfreeKey author hr hsameKey) ?_
      refine ih (key :: seen) rfl hfreeRest (List.forall_mem_cons.2 ⟨hr, hseen⟩) ?_ hboundRest
      intro other hother hnot
      exact hsameRest other hother fun hmem => hnot (List.mem_cons_of_mem _ hmem)
    | some r =>
      -- a key that came before does not live any more
      have hmem : key ∉ seen := by
        intro hmem
        rw [hseen key hmem] at hr
        cases hr
      have hsplits := splits_delete_some hs hfreeKey author hmem hr (hsameKey hmem)
      have hothers {other : Key} (hne : other ≠ key) :
          (Prepared.commit (fun p => .ok p.previous) c
            (.pending (.ofDelete author key r (s.readings 0)))).2.history other =
          c.history other := by
        refine Prepared.history_commit _ ?_
        intro d hd heq
        exact hne (heq.symm.trans (hsplits.own d hd))
      refine .cons hsplits (ih (key :: seen) rfl hfreeRest ?_ ?_ hboundRest)
      · -- the key of the tombstone does not live any more, and the others that came before still do
        -- not
        refine List.forall_mem_cons.2 ⟨?_, fun other hother => ?_⟩
        · rw [← hsameKey hmem] at hboundKey
          exact shown_insert_ofDelete hboundKey hr author _
        · have hne : other ≠ key := fun heq => hmem (heq ▸ hother)
          rw [Collection.shown_congr (hothers hne)]
          exact hseen other hother
      · -- keys that did not come before keep their histories
        intro other hother hnot
        rw [List.mem_cons, not_or] at hnot
        rw [hothers hnot.1, hsameRest other hother hnot.2]

/-- **A bulk deletion** is answered as single deletions are that come one after the other, and leads
to the same documents and times. -/
theorem run_bulkDelete (hs : s.medium = .memory c none) (author : Author) {keys : List Key}
    (hkeys : keys ≠ []) (hfree : ∀ key ∈ keys, key ∉ s.monitors.held)
    (hbound : ∀ key ∈ keys, ∀ d ∈ c.history key, d.version.toNat + 1 < Binary64.exactBound) :
    let each := Call.runEach (keys.map fun key => (key, delete author key)) s
    (bulkDelete author keys).run s = (.ok each.1, each.2) := by
  intro each
  have hsplits : SplitsAll (fun p => .ok p.previous)
      (keys.map fun key => (key, delete author key)) (prepareDeletes author [] keys) c c s :=
    splitsAll_deletes author [] keys hs hfree (by simp) (fun _ _ _ => rfl) hbound
  have hnonempty : keys.isEmpty = false := List.isEmpty_eq_false_iff.2 hkeys
  rw [bulkDelete, if_neg (by simp [hnonempty])]
  exact hsplits.run_bounded hs .bulkDelete hfree

theorem run_bulkDelete_repeated :
    let d := Document.sample 1 (.string "first")
    let e := Document.sample 3 (.string "second")
    let c := Collection.pair d e rfl (by decide)
    let keys := [e.key, e.key.resource.key "a", e.key]
    let each := Call.runEach (keys.map fun key => (key, delete e.author key)) (Setting.idle c)
    (Setting.idle c).medium = .memory c none ∧ keys ≠ [] ∧
      (∀ key ∈ keys, key ∉ (Setting.idle c).monitors.held) ∧
      (∀ key ∈ keys, ∀ f ∈ c.history key, f.version.toNat + 1 < Binary64.exactBound) ∧
      (bulkDelete e.author keys).run (Setting.idle c) = (.ok each.1, each.2) := by
  intro d e c keys each
  have hkeys : keys ≠ [] := List.cons_ne_nil _ _
  have hfree : ∀ key ∈ keys, key ∉ (Setting.idle c).monitors.held :=
    fun _ _ => List.not_mem_nil
  have hbound : ∀ key ∈ keys, ∀ f ∈ c.history key,
      f.version.toNat + 1 < Binary64.exactBound := by
    intro key _ f hf
    rcases List.mem_pair.1 (Collection.mem_history.1 hf).1 with rfl | rfl <;> decide
  exact ⟨rfl, hkeys, hfree, hbound, run_bulkDelete rfl e.author hkeys hfree hbound⟩

end Store
end ConfigLedger
