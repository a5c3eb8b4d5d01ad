import ConfigLedger.Proofs.Backend.Snapshot
import ConfigLedger.Proofs.Store.Reading

/-!
# Writing to any collection

A write without a precondition is made of two answers of the medium: what the query for the latest
version of the key finds decides which document is to be added, and the addition decides the
outcome (`Store.run_write`).

Where the medium keeps what is added (`Medium.Keeps`), the addition fails only if the version is
taken. So reads and writes go by the newest version of a key, that is a read answers its record and
a write makes the version behind it, exactly if no other version of the key is rounded to the same
binary64 number (`Store.goesByNewest_iff`). Otherwise an older version is found. It is answered by a
read, and a write is refused as soon as the version behind it is taken.
-/

namespace ConfigLedger

variable {c c' : Collection} {m : Medium} {s : Setting} {key : Key} {d : Document}

/-! ### Media that keep what is added -/

/-- The medium keeps a collection: queries are answered from it, and what is added is kept. -/
inductive Medium.Keeps : Collection → Medium → Prop
  | memory (c : Collection) : Keeps c (.memory c none)
  | file {f : Snapshot} (hf : f.Savable) : Keeps f.collection (.file f [])

namespace Medium.Keeps

theorem shows (h : m.Keeps c) : m.Shows c := by
  cases h with
  | memory c => exact Medium.shows_memory c
  | file hf => exact Medium.shows_file _ []

theorem documents_eq (h : m.Keeps c) : m.documents = c.documents := by
  cases h <;> rfl

/-- **A version that is free** is added. -/
theorem insert (h : m.Keeps c) (hinsert : c.insert? d = some c') :
    ∃ m', m.insert d = (.ok (), m') ∧ m'.Keeps c' := by
  -- in memory a free version is all that is asked for
  cases h with
  | memory c =>
    refine ⟨.memory c' none, ?_, .memory c'⟩
    simp only [Medium.insert, Faulty.insert, Faulty.insertError?, Faulty.raced, Memory.insert,
      hinsert]
  | @file f hf =>
    -- a file is saved as well, which does not fail here
    obtain ⟨disk, hpersist, hsavable⟩ := hf.persist c' [d]
    refine ⟨.file { f with collection := c', disk } [], ?_, .file hsavable⟩
    simp only [Medium.insert, Snapshot.insert, hinsert, List.headD_nil, List.tail_nil, hpersist]

/-- A version that is taken is refused. -/
theorem insert_taken (h : m.Keeps c) (hinsert : c.insert? d = none) :
    (m.insert d).1 = .error (Memory.duplicate d) := by
  cases h with
  | memory c =>
    simp only [Medium.insert, Faulty.insert, Faulty.insertError?, Faulty.raced, Memory.insert,
      hinsert]
  | file hf => simp only [Medium.insert, Snapshot.insert, hinsert]

end Medium.Keeps

/-! ### Writes -/

/-- The answer to a write that was stored. -/
theorem Pending.written_ofWrite {value : Value} (hvalue : value.isNull = false) (author : Author)
    (key : Key) (newest : Option Document) (now : UInt64) :
    ∃ w, (ofWrite author key value newest now).written = .ok w ∧
      w.record.document = (ofWrite author key value newest now).document := by
  obtain ⟨p, hp⟩ : ∃ p, p = ofWrite author key value newest now := ⟨_, rfl⟩
  have hlive : p.document.value.isNull = false := by
    rw [hp]
    exact hvalue
  -- the version that is stored has a record, as its value is not null
  cases hrecord : p.document.record? with
  | none =>
    rw [Document.record?, Document.isTombstone, hlive] at hrecord
    cases hrecord
  | some r =>
    refine ⟨⟨r, p.previous⟩, ?_, ?_⟩
    · rw [← hp, written, hrecord]
    · rw [← hp, (Document.record?_eq_some_iff.1 hrecord).2]

namespace Store

/-- **A write without a precondition** adds the version behind the one that is found. -/
theorem run_write (hs : s.medium.Shows c) (hfree : key ∉ s.monitors.held) (author : Author)
    {value : Value} (hvalue : value.isNull = false) :
    let p := Pending.ofWrite author key value (c.latest key) (s.readings 0)
    let added := s.medium.insert p.document
    (write author key value none).run s =
      ((added.1.mapError StoreError.ofBackend).bind fun _ => p.written,
        { s with medium := added.2, readings := s.tick.readings }) := by
  intro p added
  -- the value is not null
  have hcheck : checkWritable key value = .ok () := by
    rw [checkWritable, if_neg (by simp [hvalue])]
  -- what is done under the monitor
  have hheld : (Action.holding key (writeLocked author key value none)).run s =
        (some ((added.1.mapError StoreError.ofBackend).bind fun _ => p.written),
          { s with medium := added.2, readings := s.tick.readings }) := by
    refine Action.run_holding hfree ?_
    let locked : Setting := { s with monitors := ⟨key :: s.monitors.held⟩ }
    have hlocked : locked.medium.Shows c := hs
    change Action.run _ locked = _
    -- the version that is found under the monitor is the one before it
    rw [writeLocked, Action.run_bind, hlocked.run_prepareWrite, Action.andThen_ok,
      Action.run_bind, commit, Action.run_insert]
    change Action.andThen (some (added.1.mapError StoreError.ofBackend), _) _ = _
    cases added.1 <;> rfl
  rw [write_eq, Call.run_bounded, Action.run_bind, hcheck, Action.run_ofExcept,
    Action.andThen_ok, Action.run_bind, run_condition, compiled, Action.andThen_ok, hheld]
  rfl

/-- A write behind a version that is free is stored. -/
theorem run_write_free (hs : s.medium.Keeps c) (hfree : key ∉ s.monitors.held) (author : Author)
    {value : Value} (hvalue : value.isNull = false)
    (hinsert : c.insert?
      (Pending.ofWrite author key value (c.latest key) (s.readings 0)).document = some c') :
    ∃ w next, (write author key value none).run s = (.ok w, next) ∧ next.medium.Keeps c' ∧
      w.record.document = (Pending.ofWrite author key value (c.latest key)
        (s.readings 0)).document := by
  obtain ⟨m, hadded, hm⟩ := hs.insert hinsert
  obtain ⟨w, hwritten, hw⟩ :=
    Pending.written_ofWrite hvalue author key (c.latest key) (s.readings 0)
  refine ⟨w, { s with medium := m, readings := s.tick.readings }, ?_, hm, hw⟩
  rw [run_write hs.shows hfree author hvalue, hadded, hwritten]
  rfl

/-- A write behind a version whose successor is taken is refused. -/
theorem run_write_taken (hs : s.medium.Keeps c) (hfree : key ∉ s.monitors.held) (author : Author)
    {value : Value} (hvalue : value.isNull = false)
    (hinsert : c.insert?
      (Pending.ofWrite author key value (c.latest key) (s.readings 0)).document = none) :
    ∃ detail, ((write author key value none).run s).1 = .error (.conflict detail) := by
  rw [run_write hs.shows hfree author hvalue, hs.insert_taken hinsert]
  exact ⟨_, rfl⟩

theorem run_delete_none (hs : s.medium.Shows c) (hfree : key ∉ s.monitors.held) (author : Author)
    (hdead : c.shown key = none) : (delete author key).run s = (.ok none, s) := by
  -- nothing is done under the monitor either
  have hheld : (Action.holding key (deleteLocked author key)).run s = (some (.ok none), s) := by
    refine @Action.run_holding _ _ _ _ _ s.medium s.readings hfree ?_
    let locked : Setting := { s with monitors := ⟨key :: s.monitors.held⟩ }
    have hprepare := Medium.Shows.run_prepareDelete (s := locked) hs author key
    rw [hdead] at hprepare
    change Action.run _ locked = _
    rw [deleteLocked, Action.run_bind, hprepare]
    rfl
  rw [delete_eq, Call.run_bounded, hheld]
  rfl

/-- **A deletion** adds a tombstone behind the version that is found, if that lives. -/
theorem run_delete_some (hs : s.medium.Shows c) (hfree : key ∉ s.monitors.held) (author : Author)
    {r : Record} (hr : c.shown key = some r) :
    let p := Pending.ofDelete author key r (s.readings 0)
    let added := s.medium.insert p.document
    (delete author key).run s =
      ((added.1.mapError StoreError.ofBackend).bind fun _ => .ok p.previous,
        { s with medium := added.2, readings := s.tick.readings }) := by
  intro p added
  -- under the monitor the record is found again, and a tombstone is added above it
  have hheld : (Action.holding key (deleteLocked author key)).run s =
        (some ((added.1.mapError StoreError.ofBackend).bind fun _ => .ok p.previous),
          { s with medium := added.2, readings := s.tick.readings }) := by
    refine Action.run_holding hfree ?_
    let locked : Setting := { s with monitors := ⟨key :: s.monitors.held⟩ }
    have hprepare := Medium.Shows.run_prepareDelete (s := locked) hs author key
    rw [hr] at hprepare
    change Action.run _ locked = _
    rw [deleteLocked, Action.run_bind, hprepare, Action.andThen_ok, Action.run_bind,
      Action.run_insert]
    change Action.andThen (some (added.1.mapError StoreError.ofBackend), _) _ = _
    cases added.1 <;> rfl
  rw [delete_eq, Call.run_bounded, hheld]
  rfl

/-! ### The newest version -/

/-- Reads and writes of a key go by its newest version: a read answers its record, and a write
stores the version behind it. -/
structure GoesByNewest (s : Setting) (c : Collection) (key : Key) : Prop where
  read : (read key).run s = (.ok ((c.newest key).bind Document.record?), s)
  write : ∀ (author : Author) (value : Value), value.isNull = false →
    ∃ w next, (write author key value none).run s = (.ok w, next) ∧
      w.record.document ∈ next.medium.documents ∧
      w.record.version.toNat = ((c.newest key).map fun d => d.version.toNat).getD 0 + 1

/-- A write behind an older version does not make the version behind the newest one. -/
theorem GoesByNewest.latest_eq (h : GoesByNewest s c key) (hs : s.medium.Keeps c)
    (hfree : key ∉ s.monitors.held)
    (hbound : ∀ d ∈ c.history key, d.version.toNat + 1 < 2 ^ 64) : c.latest key = c.newest key := by
  -- without a version both are none
  cases hnewest : c.newest key with
  | none => exact Collection.latest_of_newest_eq_none hnewest
  | some e =>
    obtain ⟨d, hlatest, -⟩ := Collection.exists_latest hnewest
    obtain ⟨hd, hdkey⟩ := Collection.mem_documents_of_latest hlatest
    -- any write will do, as it tells which version was found
    let unknown : Author := ⟨unknownAuthor, unknownAuthor⟩
    have hvalue : (Value.bool true).isNull = false := rfl
    obtain ⟨w, next, hrun, -, hversion⟩ := h.write unknown (.bool true) hvalue
    -- the write drew the version above the one that is found
    have hnext : w.record.version = d.version + 1 := by
      cases hinsert : c.insert? (Pending.ofWrite unknown key (.bool true) (c.latest key)
          (s.readings 0)).document with
      | none =>
        -- if that were taken, the write would have been refused
        obtain ⟨detail, htaken⟩ := run_write_taken hs hfree unknown hvalue hinsert
        rw [hrun] at htaken
        cases htaken
      | some c' =>
        -- so it was free, and it was stored
        obtain ⟨w', next', hrun', -, hdocument⟩ := run_write_free hs hfree unknown hvalue hinsert
        rw [hrun] at hrun'
        cases hrun'
        rw [hlatest] at hdocument
        exact congrArg Document.version hdocument
    -- the write also made the version above the newest one, so the two found are one
    rw [hnext, hnewest, UInt64.toNat_add, UInt64.toNat_one,
      Nat.mod_eq_of_lt (hbound d (Collection.mem_history.2 ⟨hd, hdkey⟩))] at hversion
    have hsame : d.version = e.version := UInt64.toNat_inj.1 (Nat.succ.inj hversion)
    obtain ⟨he, hekey⟩ := Collection.mem_documents_of_newest hnewest
    rw [hlatest, Collection.eq_of_sameVersion hd he
      (Document.sameVersion_iff.2 ⟨hdkey.trans hekey.symm, hsame⟩)]

/-- **Reads and writes of a key go by its newest version exactly if its history is settled.** -/
theorem goesByNewest_iff (hs : s.medium.Keeps c) (hfree : key ∉ s.monitors.held)
    (hbound : ∀ d ∈ c.history key, d.version.toNat + 1 < 2 ^ 64) :
    GoesByNewest s c key ↔ c.Settled key := by
  rw [← Collection.latest_eq_newest_iff]
  constructor
  · -- one direction has been shown, with any write that is stored
    exact fun h => h.latest_eq hs hfree hbound
  · intro hlatest
    refine ⟨?_, fun author value hvalue => ?_⟩
    · -- what is read is the record of the version that is found
      rw [hs.shows.run_read, Collection.shown, hlatest]
    · let p := Pending.ofWrite author key value (c.latest key) (s.readings 0)
      have hnext : p.document.version = nextVersion (c.newest key) := by
        rw [← hlatest]
        rfl
      obtain ⟨c', hinsert⟩ := Collection.insert?_behind_newest hbound rfl hnext
      obtain ⟨w, next, hrun, hkeeps, hdocument⟩ := run_write_free hs hfree author hvalue hinsert
      -- the version is free, since none is above the newest
      refine ⟨w, next, hrun, ?_, ?_⟩
      · rw [hkeeps.documents_eq, hdocument]
        exact (Collection.mem_of_insert?_eq_some hinsert).2 (.inl rfl)
      · have hversion : w.record.version = p.document.version :=
          congrArg Document.version hdocument
        rw [hversion, hnext, Collection.toNat_nextVersion_newest hbound]

theorem goesByNewest_iff_first_versions :
    let d := Document.sample 1 (.string "first")
    let e := Document.sample 2 (.string "second")
    let c := Collection.pair d e rfl (by decide)
    (Setting.idle c).medium.Keeps c ∧ e.key ∉ (Setting.idle c).monitors.held ∧
      (∀ f ∈ c.history e.key, f.version.toNat + 1 < 2 ^ 64) ∧
      GoesByNewest (Setting.idle c) c e.key := by
  intro d e c
  have hkeeps : (Setting.idle c).medium.Keeps c := .memory c
  have hfree : e.key ∉ (Setting.idle c).monitors.held := List.not_mem_nil
  -- no version is near the end of the words
  have hbound : ∀ f ∈ c.history e.key, f.version.toNat + 1 < 2 ^ 64 := by
    rw [show c.history e.key = [d, e] from Collection.history_pair (d := d) (e := e) rfl _]
    decide
  -- the two are different numbers to the comparison as well
  have hsettled : c.Settled e.key :=
    Collection.settled_pair (d := d) (e := e) rfl _ (by decide +kernel)
  exact ⟨hkeeps, hfree, hbound, (goesByNewest_iff hkeeps hfree hbound).2 hsettled⟩

theorem not_goesByNewest_tied :
    let d := Document.sample 9007199254740992 (.string "first")
    let e := Document.sample 9007199254740993 (.string "second")
    let c := Collection.pair d e rfl (by decide)
    c.newest e.key = some e ∧ (read e.key).run (Setting.idle c) = (.ok d.record?, Setting.idle c) ∧
      (∃ detail, ((write e.author e.key (.string "third") none).run (Setting.idle c)).1 =
        .error (.conflict detail)) ∧
      ¬ GoesByNewest (Setting.idle c) c e.key := by
  intro d e c
  have hkeeps : (Setting.idle c).medium.Keeps c := .memory c
  have hnewest : c.newest e.key = some e := Collection.newest_pair (d := d) (e := e) rfl _
  -- the two are one number to the comparison, which keeps the first document
  have hlatest : c.latest e.key = some d :=
    Collection.latest_pair (d := d) (e := e) rfl _ Collection.ofUInt64_exactBound
  have hread : (read e.key).run (Setting.idle c) = (.ok d.record?, Setting.idle c) := by
    rw [hkeeps.shows.run_read, Collection.shown, hlatest]
    rfl
  refine ⟨hnewest, hread, ?_, fun h => ?_⟩
  · -- the version above the first document is the second one, which is taken
    refine run_write_taken hkeeps List.not_mem_nil e.author rfl ?_
    rw [hlatest]
    exact Collection.insert?_eq_none_iff.2 ⟨e, by simp [c, Collection.pair], rfl, rfl⟩
  · -- the records differ in their versions
    have hsame := h.read
    rw [hread, hnewest] at hsame
    simp [d, e, Document.sample, Document.record?, Document.isTombstone, Value.isNull] at hsame

end Store

end ConfigLedger
