import ConfigLedger.Proofs.Locks.KeyMonitors
import ConfigLedger.Proofs.Store.Simulation

/-!
# The store is a ledger

Calls that run one after the other over a collection in memory, from an empty one and at any
times, are answered as a ledger answers them (`StoreCall.runAll_eq_answerAll`), as long as no
key gets as many versions as binary64 numbers can tell apart.

What is left is a bulk operation. It prepares all its elements before it stores the first one,
and the ledger knows of single elements only. That makes no difference: an element looks at the
history of its own key, which the elements before it leave alone. So a collection in which the
elements before are stored already takes the place of the one that all are prepared from
(`Settles`).
-/

namespace ConfigLedger

variable {c c' : Collection} {s : Setting} {ledger : Ledger} {key : Key} {α : Type}

/-! ### Bulk operations -/

/-- The versions that prepared elements are to store. -/
def pendingDocuments (prepared : List (Key × Prepared α)) : List Document :=
  prepared.filterMap (·.2.document?)

/-- Stored one after the other, prepared elements take a collection to where a ledger goes, and they
are answered as the ledger answers. -/
structure Settles (finish : Pending → Except StoreError α) (c : Collection)
    (prepared : List (Key × Prepared α)) (result : Answers α × Ledger) : Prop where
  represents : Represents (c.insertAll (pendingDocuments prepared)).2 result.2
  answers : Store.settle finish prepared (Memory.outcomes (pendingDocuments prepared)
    (c.insertAll (pendingDocuments prepared)).1) = result.1

namespace Settles

variable {finish : Pending → Except StoreError α} {prepared : List (Key × Prepared α)}
  {answers : Answers α}

theorem nil (h : Represents c ledger) : Settles finish c [] ([], ledger) :=
  ⟨h, rfl⟩

theorem answered (h : Settles finish c prepared (answers, ledger)) (answer : Except StoreError α) :
    Settles finish c ((key, .answered answer) :: prepared) ((key, answer) :: answers, ledger) :=
  ⟨h.represents, congrArg _ h.answers⟩

theorem pending {p : Pending} (hinsert : c.insert? p.document = some c')
    (h : Settles finish c' prepared (answers, ledger)) :
    Settles finish c ((key, .pending p) :: prepared) ((key, finish p) :: answers, ledger) := by
  -- storing the prepared documents begins with this one
  have hdocuments : pendingDocuments ((key, Prepared.pending p) :: prepared) =
      p.document :: pendingDocuments prepared := rfl
  have hinsertAll : c.insertAll (p.document :: pendingDocuments prepared) =
      (true :: (c'.insertAll (pendingDocuments prepared)).1,
        (c'.insertAll (pendingDocuments prepared)).2) := by
    rw [Collection.insertAll, hinsert]
  constructor
  · rw [hdocuments, hinsertAll]
    exact h.represents
  · rw [hdocuments, hinsertAll]
    exact congrArg _ h.answers

/-- **What is prepared is answered once it is committed.** -/
theorem refines {prepare : Action (List (Key × Prepared α))} {result : Answers α × Ledger}
    (h : Settles finish c prepared result) (hs : s.medium = .memory c none)
    (hrun : prepare.run s = (some (.ok prepared), { s with readings := result.2.readings })) :
    (do Store.commitAll finish (← prepare)).Refines s (.ok result.1, result.2) := by
  refine ⟨_, h.represents, ?_⟩
  rw [Action.run_bind, hrun, Action.andThen_ok,
    Store.run_commitAll (s := { s with readings := result.2.readings }) hs, ← h.answers]
  rfl

end Settles

/-! ### Writes -/

/-- Writes are prepared from the collection as it was, and settle in one that keeps the histories of
their keys. -/
theorem settles_prepareWrites {c₀ : Collection} (hexact : c₀.Exact) (hfew : c₀.Few)
    (author : Author) (elements : List (Key × Value)) (hkeys : (elements.map Prod.fst).Nodup)
    (hs : s.medium = .memory c₀ none) (htime : s.readings = ledger.readings)
    (hc : Represents c ledger) (hsame : ∀ e ∈ elements, c.history e.1 = c₀.history e.1) :
    ∃ prepared, Settles Pending.written c prepared (ledger.writeAll author elements) ∧
      (Store.prepareWrites author elements).run s =
        (some (.ok prepared),
          { s with readings := (ledger.writeAll author elements).2.readings }) := by
  induction elements generalizing s c ledger with
  | nil =>
    -- nothing is prepared and nothing stored
    refine ⟨[], .nil hc, ?_⟩
    rw [Ledger.writeAll, ← htime]
    rfl
  | cons element rest ih =>
    obtain ⟨key, value⟩ := element
    rw [List.map_cons, List.nodup_cons] at hkeys
    obtain ⟨hkey, hrest⟩ := List.forall_mem_cons.1 hsame
    rw [Store.prepareWrites_cons, Ledger.writeAll, Action.run_bind,
      (Store.shows hs).run_prepareWriting]
    -- an element that must not be written is answered at once and stores nothing
    cases hcheck : Store.checkWritable key value with
    | error e =>
      have hwrite : ledger.write author key value none = (.error e, ledger) := by
        rw [Ledger.write, hcheck]
      rw [hwrite]
      obtain ⟨prepared, hsettles, hrun⟩ := ih hkeys.2 hs htime hc hrest
      refine ⟨_, hsettles.answered (.error e), ?_⟩
      rw [Action.andThen_ok, Action.run_bind, hrun, Action.andThen_ok]
      rfl
    | ok _ =>
      -- the newest version is the same in both collections
      have hnewest : c₀.newest key = c.newest key := by rw [Collection.newest, ← hkey]; rfl
      have hfew' : (c.history key).length < Binary64.exactBound := hkey ▸ hfew key
      obtain ⟨p, hp⟩ : ∃ p, p = Pending.ofWrite author key value (c.newest key)
        (ledger.readings 0) := ⟨_, rfl⟩
      -- the insertion succeeds, and the ledger is followed in the collection after it
      obtain ⟨c', hinsert, hafter, hothers⟩ := hc.insert_ofWrite hfew' hp
      have hwrite : ledger.write author key value none =
          (p.written, ledger.advance key p.document.live?) := by
        rw [hc.write_eq hfew' (Store.isNull_of_checkWritable hcheck) rfl hp, Option.all_none]
        rfl
      -- the other keys keep their histories, as each key occurs once
      have hother : ∀ e ∈ rest, c'.history e.1 = c₀.history e.1 := by
        intro e he
        have hne : e.1 ≠ key := fun heq => hkeys.1 (List.mem_map.2 ⟨e, he, heq⟩)
        rw [hothers _ hne, hrest e he]
      -- what is left settles in the collection after the insertion
      obtain ⟨prepared, hsettles, hrun⟩ := ih (s := s.tick) (c := c') hkeys.2 hs
        (by rw [Setting.tick, htime]; rfl) hafter hother
      rw [hwrite]
      refine ⟨_, hsettles.pending hinsert, ?_⟩
      rw [hexact.latest_eq, hnewest, htime, ← hp, Action.andThen_ok, Action.run_bind, hrun,
        Action.andThen_ok]
      rfl

/-! ### Deletions -/

theorem record?_delete (ledger : Ledger) (key other : Key) :
    (ledger.delete key).2.record? other = if other = key then none else ledger.record? other := by
  rw [Ledger.delete]
  cases hr : ledger.record? key with
  | none =>
    -- a key that does not live stays as it is
    change ledger.record? other = _
    split
    · next heq => rw [heq, hr]
    · rfl
  | some r =>
    change (ledger.advance key none).record? other = _
    rw [Ledger.record?, Ledger.slot_advance]
    split <;> rfl

/-- The preparation of a deletion, where the newest versions of the collection are found. -/
theorem run_prepareDeletion {c₀ : Collection} (hs : s.medium = .memory c₀ none)
    (hexact : c₀.Exact) (author : Author) (seen : List Key) (key : Key) :
    (Store.prepareDeletion author seen key).run s =
      if key ∈ seen then (some (.ok (.answered (.ok none))), s)
      else match (c₀.newest key).bind Document.record? with
        | none => (some (.ok (.answered (.ok none))), s)
        | some r => (some (.ok (.pending (.ofDelete author key r (s.readings 0)))), s.tick) := by
  have hrun := (Store.shows hs).run_prepareDeletion author seen key
  rw [hexact.shown_eq] at hrun
  exact hrun

/-- Deletions are prepared from the collection as it was, and settle in one that keeps the histories
of the keys that are still to come for the first time. -/
theorem settles_prepareDeletes {c₀ : Collection} (hexact : c₀.Exact) (hfew : c₀.Few)
    (author : Author) (seen keys : List Key) (hs : s.medium = .memory c₀ none)
    (htime : s.readings = ledger.readings) (hc : Represents c ledger)
    (hseen : ∀ key ∈ seen, ledger.record? key = none)
    (hsame : ∀ key ∈ keys, key ∉ seen → c.history key = c₀.history key) :
    ∃ prepared, Settles (fun p => .ok p.previous) c prepared (ledger.deleteAll keys) ∧
      (Store.prepareDeletes author seen keys).run s =
        (some (.ok prepared), { s with readings := (ledger.deleteAll keys).2.readings }) := by
  induction keys generalizing s c ledger seen with
  | nil =>
    refine ⟨[], .nil hc, ?_⟩
    rw [Ledger.deleteAll, ← htime]
    rfl
  | cons key rest ih =>
    obtain ⟨hkey, hrest⟩ := List.forall_mem_cons.1 hsame
    -- no key that has come before lives after this step either
    have hseen' : ∀ other ∈ key :: seen, (ledger.delete key).2.record? other = none := by
      intro other hother
      rw [record?_delete]
      split
      · rfl
      · next hne => exact hseen other ((List.mem_cons.1 hother).resolve_left hne)
    -- for a key that comes for the first time, both collections know the same
    have hfound (hmem : key ∉ seen) : (c₀.newest key).bind Document.record? =
        ledger.record? key := by
      rw [hc.live, Collection.newest, Collection.newest, hkey hmem]
    rw [Store.prepareDeletes_cons, Ledger.deleteAll, Action.run_bind]
    cases hr : ledger.record? key with
    | none =>
      have hdelete : ledger.delete key = (none, ledger) := by rw [Ledger.delete, hr]
      -- the key came before, or nothing was found under it
      have hprepare : (Store.prepareDeletion author seen key).run s =
          (some (.ok (.answered (.ok none))), s) := by
        rw [run_prepareDeletion hs hexact]
        split
        · rfl
        · next hmem => rw [hfound hmem, hr]
      rw [hprepare]
      rw [hdelete] at hseen' ⊢
      obtain ⟨prepared, hsettles, hrun⟩ := ih (key :: seen) hs htime hc hseen'
        fun other hother hnot => hrest other hother fun h => hnot (List.mem_cons_of_mem _ h)
      refine ⟨_, hsettles.answered (.ok none), ?_⟩
      rw [Action.andThen_ok, Action.run_bind, hrun]
      rfl
    | some r =>
      -- only a key that comes for the first time lives
      have hmem : key ∉ seen := fun hmem => by
        rw [hseen key hmem] at hr
        cases hr
      have hdelete : ledger.delete key = (some r, ledger.advance key none) := by
        rw [Ledger.delete, hr]
      rw [hdelete] at hseen' ⊢
      rw [run_prepareDeletion hs hexact, if_neg hmem, hfound hmem, hr]
      obtain ⟨p, hp⟩ : ∃ p, p = Pending.ofDelete author key r (s.readings 0) := ⟨_, rfl⟩
      have hfew' : (c.history key).length < Binary64.exactBound := hkey hmem ▸ hfew key
      -- the tombstone is inserted, and all other keys keep their histories
      obtain ⟨c', hinsert, hafter, hothers⟩ := hc.insert_ofDelete hfew' hr hp
      have hrest' : ∀ other ∈ rest, other ∉ key :: seen →
          c'.history other = c₀.history other := by
        intro other hother hnot
        rw [List.mem_cons, not_or] at hnot
        rw [hothers other hnot.1, hrest other hother hnot.2]
      obtain ⟨prepared, hsettles, hrun⟩ := ih (s := s.tick) (key :: seen) hs
        (by rw [Setting.tick, htime]; rfl) hafter hseen' hrest'
      have hprevious : (some r : Option Record) = p.previous := by rw [hp]; rfl
      refine ⟨(key, .pending p) :: prepared, ?_, ?_⟩
      · rw [hprevious]
        exact hsettles.pending hinsert
      · simp only [← hp]
        rw [Action.andThen_ok, Action.run_bind, hrun]
        rfl

/-! ### Calls -/

namespace Simulates

theorem bulkWrite (h : Simulates s ledger) (hfew : s.medium.Few) (author : Author)
    (values : Entries Key Value) :
    (Store.bulkWrite author values).Refines s (ledger.answer (.bulkWrite author values)) := by
  obtain ⟨c, hs, hc, hfew⟩ := h.collection hfew
  rw [Store.bulkWrite, Ledger.answer]
  -- without elements no monitor is taken
  by_cases hempty : values.toList.isEmpty = true
  · rw [if_pos hempty, if_pos hempty]
    exact ⟨rfl, h⟩
  · rw [if_neg hempty, if_neg hempty]
    -- at the start, what is prepared from and what is stored to are the same
    obtain ⟨prepared, hsettles, hrun⟩ := settles_prepareWrites
      (s := { s with monitors := ⟨(lockOrder values.keys).reverse ++ s.monitors.held⟩ })
      (hc.numbered.exact hfew) hfew author values.toList values.distinct hs h.readings hc
      fun _ _ => rfl
    refine h.bounded .bulkWrite (.holdingAll (nodup_lockOrder _) (by simp [h.free]) ?_)
    exact hsettles.refines (s := { s with
      monitors := ⟨(lockOrder values.keys).reverse ++ s.monitors.held⟩ }) hs hrun

theorem bulkDelete (h : Simulates s ledger) (hfew : s.medium.Few) (author : Author)
    (keys : List Key) :
    (Store.bulkDelete author keys).Refines s (ledger.answer (.bulkDelete author keys)) := by
  obtain ⟨c, hs, hc, hfew⟩ := h.collection hfew
  rw [Store.bulkDelete, Ledger.answer]
  -- without keys no monitor is taken
  by_cases hempty : keys.isEmpty = true
  · rw [if_pos hempty, if_pos hempty]
    exact ⟨rfl, h⟩
  · rw [if_neg hempty, if_neg hempty]
    -- at the start no key has come before
    obtain ⟨prepared, hsettles, hrun⟩ := settles_prepareDeletes
      (s := { s with monitors := ⟨(lockOrder keys).reverse ++ s.monitors.held⟩ })
      (hc.numbered.exact hfew) hfew author [] keys hs h.readings hc (by simp) fun _ _ _ => rfl
    refine h.bounded .bulkDelete (.holdingAll (nodup_lockOrder _) (by simp [h.free]) ?_)
    exact hsettles.refines (s := { s with
      monitors := ⟨(lockOrder keys).reverse ++ s.monitors.held⟩ }) hs hrun

/-- **One call.** -/
theorem answer (h : Simulates s ledger) (hfew : s.medium.Few) (c : StoreCall) :
    c.call.Refines s (ledger.answer c) := by
  cases c with
  | write author key value filter => exact h.write hfew author key value filter
  | delete author key => exact h.delete hfew author key
  | bulkWrite author values => exact h.bulkWrite hfew author values
  | bulkDelete author keys => exact h.bulkDelete hfew author keys
  | read key => exact h.read hfew key
  | readMany keys => exact h.readMany hfew keys
  | query resource options => exact h.query hfew resource options
  | count resource filter => exact h.count hfew resource filter

end Simulates

/-! ### Lists of calls -/

namespace Ledger

/-- The counters of one ledger are no higher than those of another one. -/
def AtMost (l l' : Ledger) : Prop :=
  ∀ key, (l.slot key).counter ≤ (l'.slot key).counter

theorem AtMost.trans {l₁ l₂ l₃ : Ledger} (h : l₁.AtMost l₂) (h' : l₂.AtMost l₃) : l₁.AtMost l₃ :=
  fun key => (h key).trans (h' key)

theorem atMost_advance (ledger : Ledger) (key : Key) (live : Option Live) :
    ledger.AtMost (ledger.advance key live) := by
  intro other
  rw [slot_advance]
  split
  · next heq =>
    rw [heq]
    exact Nat.le_succ _
  · exact Nat.le_refl _

theorem atMost_write (ledger : Ledger) (author : Author) (key : Key) (value : Value)
    (filter : Option Filter) : ledger.AtMost (ledger.write author key value filter).2 := by
  rw [write]
  -- a refused value and a filter that does not compile change nothing
  split
  · exact fun _ => Nat.le_refl _
  · exact fun _ => Nat.le_refl _
  · simp only []
    -- of the others those count that meet their precondition
    split
    · exact ledger.atMost_advance _ _
    · exact fun _ => Nat.le_refl _

theorem atMost_delete (ledger : Ledger) (key : Key) : ledger.AtMost (ledger.delete key).2 := by
  rw [delete]
  split
  · exact ledger.atMost_advance _ _
  · exact fun _ => Nat.le_refl _

theorem atMost_writeAll (ledger : Ledger) (author : Author) (elements : List (Key × Value)) :
    ledger.AtMost (ledger.writeAll author elements).2 := by
  induction elements generalizing ledger with
  | nil => exact fun _ => Nat.le_refl _
  | cons element rest ih => exact (ledger.atMost_write _ _ _ _).trans (ih _)

theorem atMost_deleteAll (ledger : Ledger) (keys : List Key) :
    ledger.AtMost (ledger.deleteAll keys).2 := by
  induction keys generalizing ledger with
  | nil => exact fun _ => Nat.le_refl _
  | cons key rest ih => exact (ledger.atMost_delete key).trans (ih _)

/-- **Counters never fall.** -/
theorem atMost_answer (ledger : Ledger) (c : StoreCall) : ledger.AtMost (ledger.answer c).2 := by
  cases c with
  | write author key value filter => exact ledger.atMost_write author key value filter
  | delete _ key => exact ledger.atMost_delete key
  | bulkWrite author values =>
    rw [answer]
    split
    · exact fun _ => Nat.le_refl _
    · exact ledger.atMost_writeAll author values.toList
  | bulkDelete _ keys =>
    rw [answer]
    split
    · exact fun _ => Nat.le_refl _
    · exact ledger.atMost_deleteAll keys
  | _ => exact fun _ => Nat.le_refl _

theorem atMost_answerAll (ledger : Ledger) (calls : List StoreCall) :
    ledger.AtMost (ledger.answerAll calls).2 := by
  induction calls generalizing ledger with
  | nil => exact fun _ => Nat.le_refl _
  | cons c rest ih => exact (ledger.atMost_answer c).trans (ih _)

/-- No counter is as high as binary64 numbers can tell apart. -/
def Low (ledger : Ledger) : Prop :=
  ∀ key, (ledger.slot key).counter < Binary64.exactBound

theorem AtMost.low {l l' : Ledger} (h : l.AtMost l') (hlow : l'.Low) : l.Low :=
  fun key => (h key).trans_lt (hlow key)

theorem low_empty (readings : Nat → UInt64) : Ledger.Low { readings } :=
  fun _ => show 0 < Binary64.exactBound by decide

/-- One more version of one key. -/
theorem Low.advance (h : ledger.Low)
    (hkey : (ledger.slot key).counter + 1 < Binary64.exactBound) (live : Option Live) :
    (ledger.advance key live).Low := by
  intro other
  rw [slot_advance]
  split
  · exact hkey
  · exact h other

end Ledger

/-- Versions are few in the collection if the counters of the ledger are low. -/
theorem Simulates.few_iff (h : Simulates s ledger) : s.medium.Few ↔ ledger.Low := by
  obtain ⟨c, hs, hc⟩ := h.medium
  rw [hs]
  exact forall_congr' fun key => by rw [hc.counter]; rfl

namespace StoreCall

theorem runAll_memory (hs : s.medium = .memory c none) (calls : List StoreCall) :
    ∃ c', (runAll calls s).2.medium = .memory c' none ∧ c.documents ⊆ c'.documents := by
  induction calls generalizing s c with
  | nil => exact ⟨c, hs, List.Subset.refl _⟩
  | cons call rest ih =>
    obtain ⟨c₁, hs₁, hsub₁⟩ := call.call.steps.run_memory hs
    obtain ⟨c₂, hs₂, hsub₂⟩ := ih hs₁
    exact ⟨c₂, hs₂, List.Subset.trans hsub₁ hsub₂⟩

/-- If versions are few in the end, they have been few all the time. -/
theorem few_of_runAll (hs : s.medium = .memory c none) {calls : List StoreCall}
    (hfew : (runAll calls s).2.medium.Few) : s.medium.Few := by
  -- histories only grow
  obtain ⟨c', hs', hsub⟩ := runAll_memory hs calls
  rw [hs'] at hfew
  rw [hs]
  intro key
  exact (Collection.length_history_le hsub key).trans_lt (hfew key)

/-- **Runs of calls.** As long as versions are few, all answers are those of the ledger. -/
theorem simulates_runAll (h : Simulates s ledger) (calls : List StoreCall)
    (hfew : (runAll calls s).2.medium.Few ∨ (ledger.answerAll calls).2.Low) :
    (runAll calls s).1 = (ledger.answerAll calls).1 ∧
      Simulates (runAll calls s).2 (ledger.answerAll calls).2 := by
  induction calls generalizing s ledger with
  | nil => exact ⟨rfl, h⟩
  | cons call rest ih =>
    obtain ⟨c, hs, -⟩ := h.medium
    -- versions only become more, so they are few at the first call
    have hfirst : s.medium.Few := by
      rcases hfew with hfew | hlow
      · exact few_of_runAll hs hfew
      · exact h.few_iff.2 ((ledger.atMost_answerAll (call :: rest)).low hlow)
    obtain ⟨hanswer, hafter⟩ := h.answer hfirst call
    obtain ⟨hanswers, hend⟩ := ih hafter hfew
    refine ⟨?_, hend⟩
    -- the answers agree at the first call, and behind it by induction
    change (⟨call, (call.call.run s).1⟩ :: (runAll rest (call.call.run s).2).1 : List Answered) =
      ⟨call, (ledger.answer call).1⟩ :: ((ledger.answer call).2.answerAll rest).1
    rw [hanswer, hanswers]

/-- A collection in memory that is empty simulates a ledger that is empty. -/
theorem simulates_empty (readings : Nat → UInt64) (tenants : TenantLocks) :
    Simulates ⟨.memory .empty none, readings, {}, tenants⟩ { readings } :=
  ⟨⟨.empty, rfl, .empty readings⟩, rfl, rfl⟩

/-- **The store answers as a ledger.** Calls that are made one after the other over a collection in
memory, which is empty at first, are answered as a ledger without any entries answers them. -/
theorem runAll_eq_answerAll (calls : List StoreCall) (readings : Nat → UInt64)
    (tenants : TenantLocks)
    (hfew : (runAll calls ⟨.memory .empty none, readings, {}, tenants⟩).2.medium.Few) :
    (runAll calls ⟨.memory .empty none, readings, {}, tenants⟩).1 =
      (Ledger.answerAll { readings } calls).1 :=
  (simulates_runAll (simulates_empty readings tenants) calls (.inl hfew)).1

/-- A key is written, deleted and read again. -/
theorem runAll_write_delete_read :
    let key : Key := ⟨⟨"name", "space", "tenant"⟩, "context"⟩
    let author : Author := ⟨"id", "email"⟩
    let written : Record := ⟨key, 1, .bool true, author, 7, 7⟩
    (runAll [.write author key (.bool true) none, .delete author key, .read key]
        ⟨.memory .empty none, fun _ => 7, {}, ⟨1, []⟩⟩).1 =
      [⟨.write author key (.bool true) none, .ok ⟨written, none⟩⟩,
        ⟨.delete author key, .ok (some written)⟩, ⟨.read key, .ok none⟩] := by
  intro key author written
  -- two versions of one key are few
  have hlow : (Ledger.answerAll { readings := fun _ => 7 }
      [.write author key (.bool true) none, .delete author key, .read key]).2.Low :=
    Ledger.Low.advance (Ledger.Low.advance (Ledger.low_empty _) (by decide) _) (by decide) none
  have hend := (simulates_runAll (simulates_empty _ ⟨1, []⟩) _ (.inr hlow)).2
  exact (runAll_eq_answerAll _ _ _ (hend.few_iff.2 hlow)).trans rfl

end StoreCall

end ConfigLedger
