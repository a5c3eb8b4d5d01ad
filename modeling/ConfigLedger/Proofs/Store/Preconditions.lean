import ConfigLedger.Proofs.Filter.Meaning
import ConfigLedger.Proofs.Store.InMemory
import ConfigLedger.Proofs.Store.Writing

/-!
# Writes with a precondition

A write with a precondition is stored exactly if the newest version of its key lives and the filter
accepts its value (`Collection.Meets`). What decides is an addition under a condition, which is put
to all stored documents and which exactly one of them has to satisfy. The condition names the key
and the version that the write was computed from, so no other document satisfies it, whatever the
filter accepts: tombstones, older versions and other keys do not count.

`Store.run_write_conditional` says so of every collection in which the versions of the key can be
told apart. There may be gaps between them, and the versions of other keys do not matter.
-/

namespace ConfigLedger

variable {c : Collection} {s : Setting} {key : Key}

/-! ### What is checked first

What is checked before anything is asked of the collection fails for its arguments only. -/

/-- The error is about an argument. -/
def StoreError.OfArgument (e : StoreError) : Prop :=
  ∃ detail, e = .invalidArgument detail

/-- What is checked one after the other fails for its arguments if each of them does. -/
theorem ofArgument_of_bind {α β : Type} {x : Except StoreError α} {f : α → Except StoreError β}
    (hx : ∀ e, x = .error e → e.OfArgument) (hf : ∀ a e, f a = .error e → e.OfArgument)
    {e : StoreError} (h : x >>= f = .error e) : e.OfArgument := by
  cases x with
  | error e' =>
    obtain rfl : e' = e := Except.error.inj h
    exact hx e' rfl
  | ok a => exact hf a e h

theorem Store.ofArgument_of_checkWritable {value : Value} {e : StoreError}
    (h : checkWritable key value = .error e) : e.OfArgument := by
  rw [checkWritable] at h
  split at h
  · cases h
    exact ⟨_, rfl⟩
  · cases h

theorem ofArgument_of_compiled {filter : Option Filter} {e : StoreError}
    (h : compiled filter = .error e) : e.OfArgument := by
  cases filter with
  | none => cases h
  | some f =>
    rw [compiled] at h
    -- the only error is that of the filter
    cases hcompile : f.compile with
    | error e' =>
      rw [hcompile] at h
      cases h
      exact ⟨_, rfl⟩
    | ok q =>
      rw [hcompile] at h
      cases h

theorem Page.ofArgument_of_bounds {page : Page} {e : StoreError} (h : page.bounds = .error e) :
    e.OfArgument := by
  rw [bounds] at h
  -- an offset or a limit below zero is refused, and nothing else
  split at h
  · cases h
    exact ⟨_, rfl⟩
  · split at h
    · cases h
    · split at h
      · cases h
        exact ⟨_, rfl⟩
      · cases h

/-! ### Preconditions -/

/-- The newest version of a key lives, and a filter accepts its value. -/
def Collection.Meets (c : Collection) (key : Key) (f : Filter) : Prop :=
  ∃ r, (c.newest key).bind Document.record? = some r ∧ f.accepts r.value = true

/-- A record satisfies a filter that was compiled if the filter accepts its value. -/
theorem Record.satisfies_compile {f : Filter} {q : Predicate} (hf : f.compile = .ok q)
    (r : Record) : r.satisfies q = f.accepts r.value :=
  Filter.holds_compile (d := r.document) hf

theorem Collection.meets_iff {f : Filter} {q : Predicate} (hf : f.compile = .ok q) :
    c.Meets key f ↔
      ((c.newest key).bind Document.record?).any (·.satisfies q) = true := by
  rw [Meets, Option.any_eq_true]
  refine exists_congr fun r => and_congr_right fun _ => ?_
  rw [r.satisfies_compile hf]

namespace Store

/-- A write in terms of what it does under the monitor of its key. -/
theorem run_write_compiled (hfree : key ∉ s.monitors.held) (author : Author) {value : Value}
    (hvalue : value.isNull = false) {filter : Option Filter} {precondition : Option Predicate}
    (hfilter : compiled filter = .ok precondition) {outcome : Except StoreError Written}
    {medium : Medium} {readings : Nat → UInt64}
    (hrun : (writeLocked author key value precondition).run
        { s with monitors := ⟨key :: s.monitors.held⟩ } =
      (some outcome, { s with medium, readings, monitors := ⟨key :: s.monitors.held⟩ })) :
    (write author key value filter).run s = (outcome, { s with medium, readings }) := by
  -- the value is not null, so the check before the monitor passes
  have hcheck : checkWritable key value = .ok () := by
    rw [checkWritable, if_neg (by simp [hvalue])]
  rw [write_eq, Call.run_bounded, Action.run_bind, hcheck, Action.run_ofExcept, Action.andThen_ok,
    Action.run_bind, run_condition, hfilter, Action.andThen_ok, Action.run_holding hfree hrun]
  rfl

/-- **A write with a precondition** is stored exactly if the newest version of its key lives and
meets the precondition. Then its version is the next one, which is all that is added, and it reports
the record that it replaces. Otherwise it is refused, and the documents stay as they are. -/
theorem run_write_conditional (hs : s.medium = .memory c none) (hfree : key ∉ s.monitors.held)
    (hexact : c.ExactAt key) (author : Author) {value : Value} (hvalue : value.isNull = false)
    {f : Filter} (hf : ∃ q, f.compile = .ok q) :
    (∀ r, (c.newest key).bind Document.record? = some r → f.accepts r.value = true →
      let record : Record := ⟨key, r.version + 1, value, author, r.created, s.readings 0⟩
      record.version.toNat = r.version.toNat + 1 ∧
        ∃ c', c.insert? record.document = some c' ∧
          (write author key value (some f)).run s =
            (.ok ⟨record, some r⟩, { s.tick with medium := .memory c' none })) ∧
      (¬ c.Meets key f → (write author key value (some f)).run s =
        (.error (.conflict ("precondition failed for " ++ key.label)), s.tick)) := by
  obtain ⟨q, hq⟩ := hf
  have hcompiled : compiled (some f) = .ok (some q) := by
    rw [compiled, hq]
    rfl
  obtain ⟨p, hp⟩ : ∃ p, p = Pending.ofWrite author key value (c.newest key) (s.readings 0) :=
    ⟨_, rfl⟩
  have hprevious : p.previous = (c.newest key).bind Document.record? := by rw [hp]; rfl
  -- the monitor of the key does not matter to what is done under it
  let locked : Setting := { s with monitors := ⟨key :: s.monitors.held⟩ }
  have hlocked : locked.medium = .memory c none := hs
  obtain ⟨c', hinsert, hrun⟩ := run_writeLocked hlocked hexact hp (some q)
  rw [Option.all_some, hprevious] at hrun
  constructor
  · -- what is committed is pinned to the version that meets the precondition
    intro r hr haccepts record
    have hmeets : c.Meets key f := ⟨r, hr, haccepts⟩
    rw [if_pos ((Collection.meets_iff hq).1 hmeets)] at hrun
    obtain ⟨e, hnewest, hrecord⟩ := Option.bind_eq_some_iff.1 hr
    obtain ⟨-, rfl⟩ := Document.record?_eq_some_iff.1 hrecord
    -- the document that is committed is the record of the statement
    have hdocument : p.document = record.document := by
      rw [hp, Pending.ofWrite, hr, hnewest]
      rfl
    have hwritten : p.written = .ok ⟨record, some r⟩ := by
      have hlive : record.document.record? = some record := Record.record?_document.2 hvalue
      rw [Pending.written, hdocument, hlive, hprevious, hr]
    rw [hwritten] at hrun
    refine ⟨?_, c', hdocument ▸ hinsert, run_write_compiled hfree author hvalue hcompiled hrun⟩
    -- numbers are exact, so the next one does not wrap
    have hnext := Collection.toNat_nextVersion_newest hexact.version_add_one_lt
    rw [hnewest] at hnext
    exact hnext
  · -- the condition fails under the monitor, and the write reports it as a conflict
    intro hmeets
    rw [if_neg (mt (Collection.meets_iff hq).2 hmeets)] at hrun
    exact run_write_compiled hfree author hvalue hcompiled hrun

theorem run_write_conditional_gap :
    let d := Document.sample 1 (.struct [("level", .string "low")])
    let e := Document.sample 4 (.struct [("level", .string "high")])
    let c := Collection.pair d e rfl (by decide)
    let f := Filter.relational "level" .equalTo (.string "high")
    (Setting.idle c).medium = .memory c none ∧ e.key ∉ (Setting.idle c).monitors.held ∧
      c.ExactAt e.key ∧ (Value.string "next").isNull = false ∧ (∃ q, f.compile = .ok q) ∧
      ∃ r w next, e.record? = some r ∧
        (write e.author e.key (.string "next") (some f)).run (Setting.idle c) = (.ok w, next) ∧
          w.record.version = 5 ∧ w.previous = some r := by
  intro d e c f
  -- both versions are small
  have hexact : c.ExactAt e.key := by
    intro g hg
    rw [show c.history e.key = [d, e] from Collection.history_pair (d := d) (e := e) rfl _] at hg
    have hbelow : g.version.toNat ≤ 4 := by
      rcases List.mem_pair.1 hg with rfl | rfl <;> decide
    exact Nat.lt_of_le_of_lt hbelow (by decide)
  have hcompiles : ∃ q, f.compile = .ok q := ⟨_, rfl⟩
  have hvalue : (Value.string "next").isNull = false := rfl
  let r : Record := ⟨e.key, e.version, e.value, e.author, e.created, e.updated⟩
  -- the newest version is the fourth, although the second and the third are missing
  have hnewest : (c.newest e.key).bind Document.record? = some r := by
    rw [show c.newest e.key = some e from Collection.newest_pair (d := d) (e := e) rfl _]
    rfl
  -- the precondition is met by it, so the first half of the theorem applies
  obtain ⟨-, c', -, hrun⟩ := (run_write_conditional (s := Setting.idle c) rfl List.not_mem_nil
    hexact e.author hvalue hcompiles).1 r hnewest (by decide)
  exact ⟨rfl, List.not_mem_nil, hexact, hvalue, hcompiles, r, _, _, rfl, hrun, rfl, rfl⟩

end Store
end ConfigLedger
