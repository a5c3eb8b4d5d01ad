import ConfigLedger.Proofs.Backend.Confinement
import ConfigLedger.Proofs.Store.Elements
import ConfigLedger.Proofs.Store.Preconditions

/-!
# Operations on a collection in memory, as functions

Over a collection in memory an operation is a function of the collection and of the next times that
the clock shows, whatever the versions are. A commit is `Pending.commit`. The preparation of a bulk
operation leaves a `Draft` of every element: it is answered, or it is to be stored as soon as the
time is known. The times are dealt out to the latter in their order (`Draft.fill`).

In this form it is seen which resource an operation has to do with. A commit has the same outcome
among the documents of its own resource (`Pending.commit_only`) and does not show among those of any
other one (`Pending.only_commit_of_ne`). So the drafts of one resource can be taken out of a bulk
operation and be committed apart from the others (`Store.commitEach_filter`).
-/

namespace ConfigLedger

variable {α : Type} {c c' : Collection} {s : Setting} {key : Key} {resource : Resource}

/-! ### Reading -/

namespace Collection

theorem shown_congr_only (h : c.only key.resource = c'.only key.resource) :
    c.shown key = c'.shown key := by
  rw [shown, shown, latest_congr_only h]

theorem newestLive_congr_only (h : c.only resource = c'.only resource) :
    c.newestLive resource = c'.newestLive resource := by
  funext filter
  have hfind (c : Collection) : (c.only resource).find
      { condition := some resource.predicate, sort := [newestFirst] } =
        c.find { condition := some resource.predicate, sort := [newestFirst] } := by
    refine find_only fun d hd => ?_
    rw [Option.all_some, Document.satisfies_resourcePredicate] at hd
    exact of_decide_eq_true hd
  rw [newestLive, newestLive, ← hfind c, h, hfind c']

end Collection

/-! ### Commits -/

namespace Pending

/-- Adds a pending version to a collection, if the version below it meets a precondition. -/
def commit (c : Collection) (p : Pending) :
    Option Predicate → Except StoreError Unit × Collection
  | none => ((Memory.insert c p.document).1.mapError StoreError.ofBackend,
      (Memory.insert c p.document).2)
  | some precondition =>
    match p.previous.bind fun _ => c.insertIf? p.document (p.condition precondition) with
    | some c => (.ok (), c)
    | none => (.error (.conflict ("precondition failed for " ++ p.document.key.label)), c)

variable {p : Pending}

/-- A pinned condition is about one key. -/
theorem key_of_satisfies_condition {q : Predicate} {e : Document}
    (h : e.satisfies (p.condition q) = true) : e.key = p.document.key := by
  have hkey := @Document.satisfies_keyPredicate e p.document.key
  rw [Document.satisfies] at h hkey
  rw [condition, Predicate.holds_and, Predicate.holds_and, hkey, Bool.and_eq_true,
    Bool.and_eq_true, decide_eq_true_iff] at h
  exact h.1.1

/-- **A commit has the same outcome among the documents of its resource.** -/
theorem commit_only (c : Collection) (p : Pending) (precondition : Option Predicate) :
    p.commit (c.only p.document.key.resource) precondition =
      ((p.commit c precondition).1, (p.commit c precondition).2.only p.document.key.resource) := by
  cases precondition with
  | none =>
    simp only [commit, Memory.insert, Collection.insert?_only]
    cases c.insert? p.document <;> rfl
  | some q =>
    -- the condition counts documents of one key
    have hcondition (e : Document) (he : e.satisfies (p.condition q) = true) :
        e.key.resource = p.document.key.resource :=
      congrArg Key.resource (key_of_satisfies_condition he)
    simp only [commit, c.insertIf?_only p.document hcondition]
    cases p.previous with
    | none => rfl
    | some r =>
      rw [Option.bind_some, Option.bind_some]
      cases c.insertIf? p.document (p.condition q) <;> rfl

/-- It shows among the documents of its own resource alone. -/
theorem only_commit_of_ne (precondition : Option Predicate)
    (hne : p.document.key.resource ≠ resource) :
    (p.commit c precondition).2.only resource = c.only resource := by
  -- a document of another resource is added, or nothing is
  cases precondition with
  | none =>
    rw [commit, Memory.insert]
    cases hinsert : c.insert? p.document with
    | none => rfl
    | some c' => exact Collection.only_of_insert?_of_ne hinsert hne
  | some q =>
    rw [commit]
    cases hadded : p.previous.bind fun _ => c.insertIf? p.document (p.condition q) with
    | none => rfl
    | some c' =>
      obtain ⟨r, -, hinsert⟩ := Option.bind_eq_some_iff.1 hadded
      exact Collection.only_of_insert?_of_ne (Collection.insertIf?_eq_some _ hinsert).2 hne

theorem commit_congr_only (precondition : Option Predicate)
    (h : c.only p.document.key.resource = c'.only p.document.key.resource) :
    (p.commit c precondition).1 = (p.commit c' precondition).1 ∧
      (p.commit c precondition).2.only p.document.key.resource =
        (p.commit c' precondition).2.only p.document.key.resource := by
  have hc := p.commit_only c precondition
  rw [h, p.commit_only c' precondition, Prod.mk.injEq] at hc
  exact ⟨hc.1.symm, hc.2.symm⟩

end Pending

namespace Store

theorem run_commit_memory (hs : s.medium = .memory c none) (p : Pending)
    (precondition : Option Predicate) :
    (commit p precondition).run s = (some (p.commit c precondition).1,
      { s with medium := .memory (p.commit c precondition).2 none }) := by
  cases precondition with
  | none =>
    rw [commit, Action.run_insert, hs]
    rfl
  | some q =>
    -- a conditional write asks first whether there was a version to replace
    rw [commit, Pending.commit]
    cases hp : p.previous with
    | none =>
      rw [run_commitConditional_none hp, Option.bind_none, ← hs]
    | some r =>
      rw [run_commitConditional_some hp, run_insertIf hs, Action.andThen_ok, Option.bind_some]
      cases c.insertIf? p.document (p.condition q) with
      | none => rw [Option.getD_none, ← hs]; rfl
      | some c' => rfl

/-- What a write does under the monitor of its key. -/
theorem run_writeLocked_memory (hs : s.medium = .memory c none) (author : Author) (key : Key)
    (value : Value) (precondition : Option Predicate) :
    let p := Pending.ofWrite author key value (c.latest key) (s.readings 0)
    (writeLocked author key value precondition).run s =
      (some ((p.commit c precondition).1.bind fun _ => p.written),
        { s.tick with medium := .memory (p.commit c precondition).2 none }) := by
  intro p
  have hprepare := (shows hs).run_prepareWrite author key value
  rw [writeLocked, Action.run_bind, hprepare, Action.andThen_ok, Action.run_bind,
    run_commit_memory (s := s.tick) hs]
  cases (p.commit c precondition).1 <;> rfl

/-- **A write**, whatever the versions of its key are. -/
theorem run_write_memory (hs : s.medium = .memory c none) (hfree : s.monitors.held = [])
    (author : Author) (key : Key) (value : Value) (filter : Option Filter) :
    (write author key value filter).run s =
      match checkWritable key value, compiled filter with
      | .error e, _ | _, .error e => (.error e, s)
      | .ok (), .ok precondition =>
        let p := Pending.ofWrite author key value (c.latest key) (s.readings 0)
        ((p.commit c precondition).1.bind fun _ => p.written,
          { s.tick with medium := .memory (p.commit c precondition).2 none }) := by
  -- the value is checked before the filter, and both before the key is locked
  cases hcheck : checkWritable key value with
  | error e =>
    rw [write_eq, Call.run_bounded, Action.run_bind, hcheck]
    rfl
  | ok x =>
    cases hcompiled : compiled filter with
    | error e =>
      rw [write_eq, Call.run_bounded, Action.run_bind, hcheck, Action.run_ofExcept,
        Action.andThen_ok, Action.run_bind, run_condition, hcompiled]
      rfl
    | ok precondition =>
      -- the clock and the collection are those of the setting in which the key is not locked yet
      let locked : Setting := { s with monitors := ⟨key :: s.monitors.held⟩ }
      have hrun := run_writeLocked_memory (s := locked) hs author key value precondition
      exact run_write_compiled (by simp [hfree]) author (isNull_of_checkWritable hcheck) hcompiled
        hrun

/-- **A deletion**, whatever the versions of its key are. -/
theorem run_delete_memory (hs : s.medium = .memory c none) (hfree : s.monitors.held = [])
    (author : Author) (key : Key) :
    (delete author key).run s =
      match c.shown key with
      | none => (.ok none, s)
      | some r =>
        let p := Pending.ofDelete author key r (s.readings 0)
        ((p.commit c none).1.bind fun _ => .ok p.previous,
          { s.tick with medium := .memory (p.commit c none).2 none }) := by
  have hfree : key ∉ s.monitors.held := by simp [hfree]
  -- only a record that is shown is deleted, and only then the time is read
  cases hr : c.shown key with
  | none => exact run_delete_none (shows hs) hfree author hr
  | some r =>
    rw [run_delete_some (shows hs) hfree author hr, hs]
    rfl

end Store

/-! ### Times -/

/-- What the clock shows begins with some times. -/
def Begins (readings : Nat → UInt64) (times : List UInt64) : Prop :=
  ∀ n time, times[n]? = some time → readings n = time

theorem begins_cons {readings : Nat → UInt64} {time : UInt64} {times : List UInt64} :
    Begins readings (time :: times) ↔
      readings 0 = time ∧ Begins (fun n => readings (n + 1)) times := by
  constructor
  · intro h
    exact ⟨h 0 time rfl, fun n t ht => h (n + 1) t (by rwa [List.getElem?_cons_succ])⟩
  · rintro ⟨hfirst, hrest⟩ n t ht
    cases n with
    | zero => exact hfirst.trans (Option.some.inj ht)
    | succ n => exact hrest n t (by rwa [List.getElem?_cons_succ] at ht)

theorem begins_append {readings : Nat → UInt64} {times more : List UInt64} :
    Begins readings (times ++ more) ↔
      Begins readings times ∧ Begins (fun n => readings (n + times.length)) more := by
  induction times generalizing readings with
  | nil => simp [Begins]
  | cons time rest ih =>
    rw [List.cons_append, begins_cons, begins_cons, ih, and_assoc]
    rfl

/-- Some clock begins with given times. -/
theorem exists_begins (times : List UInt64) : ∃ readings, Begins readings times := by
  refine ⟨fun n => times[n]?.getD 0, fun n time h => ?_⟩
  show times[n]?.getD 0 = time
  rw [h, Option.getD_some]

/-- The times that keys get, each the next one. -/
def stamps (readings : Nat → UInt64) : List Key → List (Key × UInt64)
  | [] => []
  | key :: rest => (key, readings 0) :: stamps (fun n => readings (n + 1)) rest

theorem map_fst_stamps (readings : Nat → UInt64) (keys : List Key) :
    (stamps readings keys).map Prod.fst = keys := by
  induction keys generalizing readings with
  | nil => rfl
  | cons key rest ih => rw [stamps, List.map_cons, ih]

theorem length_filter_stamps (readings : Nat → UInt64) (keys : List Key) (p : Key → Bool) :
    ((stamps readings keys).filter fun e => p e.1).length = (keys.filter p).length := by
  have hkeys := map_fst_stamps readings keys
  calc
    ((stamps readings keys).filter fun e => p e.1).length
      = (((stamps readings keys).filter fun e => p e.1).map Prod.fst).length :=
        (List.length_map _).symm
    _ = (((stamps readings keys).map Prod.fst).filter p).length := by rw [List.filter_map]; rfl
    _ = (keys.filter p).length := by rw [hkeys]

/-- A clock that begins with the times of some of the keys gives these to them again. -/
theorem stamps_filter {readings readings' : Nat → UInt64} (keys : List Key) (p : Key → Bool)
    (h : Begins readings' (((stamps readings keys).filter fun e => p e.1).map Prod.snd)) :
    stamps readings' (keys.filter p) = (stamps readings keys).filter fun e => p e.1 := by
  induction keys generalizing readings readings' with
  | nil => rfl
  | cons key rest ih =>
    rw [stamps, List.filter_cons] at h ⊢
    by_cases hkey : p key = true
    · rw [if_pos hkey, List.map_cons, begins_cons] at h
      rw [List.filter_cons, if_pos hkey, if_pos hkey, stamps, h.1, ih h.2]
    · rw [if_neg hkey] at h
      rw [List.filter_cons, if_neg hkey, if_neg hkey, ih h]

/-! ### Drafts -/

/-- An element of a bulk operation before the clock is read: it is answered, or it is to be stored
at some time. -/
inductive Draft (α : Type) where
  | answered (answer : Except StoreError α)
  | timed (pending : UInt64 → Pending)

namespace Draft

/-- Gives the elements that are to be stored their times, each the next one. -/
def fill : List (Key × Draft α) → (Nat → UInt64) → List (Key × Prepared α)
  | [], _ => []
  | (key, answered answer) :: rest, readings => (key, .answered answer) :: fill rest readings
  | (key, timed pending) :: rest, readings =>
    (key, .pending (pending (readings 0))) :: fill rest fun n => readings (n + 1)

/-- The keys of the elements that are to be stored. -/
def timedKeys : List (Key × Draft α) → List Key
  | [] => []
  | (_, answered _) :: rest => timedKeys rest
  | (key, timed _) :: rest => key :: timedKeys rest

/-- Every element is to be stored under its own key. -/
def Own (drafts : List (Key × Draft α)) : Prop :=
  ∀ key pending, (key, timed pending) ∈ drafts → ∀ now, (pending now).document.key = key

/-- **Drafts that are taken out keep their times**, if the clock begins with these. -/
theorem fill_filter {readings readings' : Nat → UInt64} (drafts : List (Key × Draft α))
    (p : Key → Bool)
    (h : Begins readings'
      (((stamps readings (timedKeys drafts)).filter fun e => p e.1).map Prod.snd)) :
    fill (drafts.filter fun e => p e.1) readings' =
      (fill drafts readings).filter fun e => p e.1 := by
  induction drafts generalizing readings readings' with
  | nil => rfl
  | cons element rest ih =>
    -- an element that takes a time is at the head of the stamps
    obtain ⟨key, draft⟩ := element
    rw [List.filter_cons]
    cases draft with
    | answered answer =>
      rw [fill, List.filter_cons]
      by_cases hkey : p key = true
      · rw [if_pos hkey, if_pos hkey, fill, ih h]
      · rw [if_neg hkey, if_neg hkey, ih h]
    | timed pending =>
      rw [timedKeys, stamps, List.filter_cons] at h
      rw [fill, List.filter_cons]
      by_cases hkey : p key = true
      · rw [if_pos hkey, List.map_cons, begins_cons] at h
        rw [if_pos hkey, if_pos hkey, fill, h.1, ih h.2]
      · -- an element that is left out takes its time with it
        rw [if_neg hkey] at h
        rw [if_neg hkey, if_neg hkey, ih h]

theorem mem_fill {drafts : List (Key × Draft α)} {readings : Nat → UInt64} {p : Pending}
    (h : (key, .pending p) ∈ fill drafts readings) :
    ∃ pending now, (key, timed pending) ∈ drafts ∧ p = pending now := by
  induction drafts generalizing readings with
  | nil => cases h
  | cons element rest ih =>
    -- answered elements are passed over; a timed one is the one that was asked for, or stands
    -- before it
    obtain ⟨k, answer | pending⟩ := element
    · rw [fill, List.mem_cons] at h
      obtain ⟨pending, now, hmem, hp⟩ := ih (h.resolve_left (by simp))
      exact ⟨pending, now, List.mem_cons_of_mem _ hmem, hp⟩
    · rw [fill, List.mem_cons] at h
      rcases h with h | h
      · cases h
        exact ⟨pending, readings 0, List.mem_cons_self, rfl⟩
      · obtain ⟨pending, now, hmem, hp⟩ := ih h
        exact ⟨pending, now, List.mem_cons_of_mem _ hmem, hp⟩

theorem timedKeys_filter (drafts : List (Key × Draft α)) (p : Key → Bool) :
    timedKeys (drafts.filter fun e => p e.1) = (timedKeys drafts).filter p := by
  induction drafts with
  | nil => rfl
  | cons element rest ih =>
    obtain ⟨key, answer | pending⟩ := element
    · rw [List.filter_cons, timedKeys, ← ih]
      split <;> rfl
    · rw [List.filter_cons, timedKeys, List.filter_cons, ← ih]
      split <;> rfl

end Draft

/-! ### Commits of drafts -/

namespace Prepared

variable {element : Prepared α} (finish : Pending → Except StoreError α)

/-- An element of another resource does not show when it is committed. -/
theorem only_commit_of_ne
    (hown : ∀ d, element.document? = some d → d.key.resource ≠ resource) :
    (element.commit finish c).2.only resource = c.only resource := by
  cases element with
  | answered answer => rfl
  | pending p => exact Pending.only_commit_of_ne none (hown p.document rfl)

/-- An element of a resource is answered by what there is of that. -/
theorem commit_congr_only (h : c.only resource = c'.only resource)
    (hown : ∀ d, element.document? = some d → d.key.resource = resource) :
    (element.commit finish c).1 = (element.commit finish c').1 ∧
      (element.commit finish c).2.only resource = (element.commit finish c').2.only resource := by
  cases element with
  | answered answer => exact ⟨rfl, h⟩
  | pending p =>
    obtain rfl := hown p.document rfl
    obtain ⟨hanswer, honly⟩ := p.commit_congr_only none h
    exact ⟨congrArg (fun outcome => outcome.bind fun _ => finish p) hanswer, honly⟩

end Prepared

/-- **The elements of one resource are committed apart from the others.** -/
theorem Store.commitEach_filter (finish : Pending → Except StoreError α)
    (h : c.only resource = c'.only resource) (prepared : List (Key × Prepared α))
    (hown : ∀ e ∈ prepared, ∀ d, e.2.document? = some d → d.key = e.1) :
    let apart := commitEach finish c' (prepared.filter fun e => decide (e.1.resource = resource))
    apart.1 = (commitEach finish c prepared).1.filter (fun e => decide (e.1.resource = resource)) ∧
      (commitEach finish c prepared).2.only resource = apart.2.only resource := by
  induction prepared generalizing c c' with
  | nil => exact ⟨rfl, h⟩
  | cons e rest ih =>
    obtain ⟨hfirst, hrest⟩ := List.forall_mem_cons.1 hown
    obtain ⟨key, element⟩ := e
    by_cases hkey : key.resource = resource
    · -- committed on both sides
      have hresource (d : Document) (hd : element.document? = some d) :
          d.key.resource = resource := by
        rw [hfirst d hd]
        exact hkey
      obtain ⟨hanswer, honly⟩ := Prepared.commit_congr_only finish h hresource
      obtain ⟨hanswers, honly⟩ := ih honly hrest
      simp only [commitEach, List.filter_cons, hkey, decide_true, if_true]
      exact ⟨by rw [hanswers, hanswer], honly⟩
    · -- committed on one side alone, where it does not show
      have hresource (d : Document) (hd : element.document? = some d) :
          d.key.resource ≠ resource := by
        rw [hfirst d hd]
        exact hkey
      have honly : (element.commit finish c).2.only resource = c.only resource :=
        Prepared.only_commit_of_ne finish hresource
      obtain ⟨hanswers, honly⟩ := ih (honly.trans h) hrest
      simp only [commitEach, List.filter_cons, hkey, decide_false, Bool.false_eq_true, if_false]
      exact ⟨hanswers, honly⟩

/-- **Drafts of one resource** that are taken out, with their times, are answered as before and
leave the same documents of it. -/
theorem Store.commitEach_fill_filter (finish : Pending → Except StoreError α)
    (h : c.only resource = c'.only resource) {drafts drafts' : List (Key × Draft α)}
    (hdrafts : drafts.filter (fun e => decide (e.1.resource = resource)) = drafts')
    (hown : Draft.Own drafts) {readings readings' : Nat → UInt64}
    (hclock : Begins readings' (((stamps readings (Draft.timedKeys drafts)).filter fun e =>
      decide (e.1.resource = resource)).map Prod.snd)) :
    let done := commitEach finish c (Draft.fill drafts readings)
    let apart := commitEach finish c' (Draft.fill drafts' readings')
    apart.1 = done.1.filter (fun e => decide (e.1.resource = resource)) ∧
      done.2.only resource = apart.2.only resource := by
  intro done apart
  -- the drafts are selected before they are filled in, which is the same as afterwards
  subst hdrafts
  have hfill := Draft.fill_filter drafts (fun key => decide (key.resource = resource)) hclock
  -- a pending element is filled in from a draft for its own key
  have hprepared : ∀ e ∈ Draft.fill drafts readings, ∀ d, e.2.document? = some d → d.key = e.1 := by
    rintro ⟨key, element⟩ he d hd
    cases element with
    | answered answer => cases hd
    | pending p =>
      obtain ⟨pending, now, hmem, rfl⟩ := Draft.mem_fill he
      cases hd
      exact hown key pending hmem now
  have hcommit := commitEach_filter finish h (Draft.fill drafts readings) hprepared
  rw [← hfill] at hcommit
  exact hcommit

/-- The setting after the clock was read some times. -/
def Setting.later (s : Setting) (k : Nat) : Setting :=
  { s with readings := fun n => s.readings (n + k) }

namespace Store

/-! ### Bulk writes -/

/-- The draft of a write. -/
def draftWrite (author : Author) (c : Collection) (key : Key) (value : Value) : Draft Written :=
  match checkWritable key value with
  | .error e => .answered (.error e)
  | .ok () => .timed (.ofWrite author key value (c.latest key))

/-- The drafts of writes. -/
def draftWrites (author : Author) (c : Collection) (elements : List (Key × Value)) :
    List (Key × Draft Written) :=
  elements.map fun e => (e.1, draftWrite author c e.1 e.2)

theorem own_draftWrites (author : Author) (c : Collection) (elements : List (Key × Value)) :
    Draft.Own (draftWrites author c elements) := by
  intro key pending hmem now
  obtain ⟨⟨k, value⟩, -, he⟩ := List.mem_map.1 hmem
  rw [draftWrite, Prod.mk.injEq] at he
  obtain ⟨rfl, he⟩ := he
  -- a value that is refused leaves an answer, which is no pending document
  cases hcheck : checkWritable k value with
  | error e =>
    rw [hcheck] at he
    cases he
  | ok x =>
    rw [hcheck] at he
    cases he
    rfl

/-- The drafts of writes to one resource depend on what there is of it. -/
theorem draftWrites_filter (h : c.only resource = c'.only resource) (author : Author)
    (elements : List (Key × Value)) :
    (draftWrites author c elements).filter (fun e => decide (e.1.resource = resource)) =
      draftWrites author c' (elements.filter fun e => decide (e.1.resource = resource)) := by
  rw [draftWrites, List.filter_map]
  refine List.map_congr_left fun e he => ?_
  have hkey : e.1.resource = resource := of_decide_eq_true (List.mem_filter.1 he).2
  rw [draftWrite, draftWrite, Collection.latest_congr_only (hkey ▸ h)]

/-- What is prepared are the drafts, with their times. -/
theorem run_prepareWrites (hs : s.medium.Shows c) (author : Author)
    (elements : List (Key × Value)) :
    (prepareWrites author elements).run s =
      (some (.ok (Draft.fill (draftWrites author c elements) s.readings)),
        s.later (Draft.timedKeys (draftWrites author c elements)).length) := by
  induction elements generalizing s with
  | nil => rfl
  | cons element rest ih =>
    obtain ⟨key, value⟩ := element
    rw [prepareWrites_cons, Action.run_bind, hs.run_prepareWriting, draftWrites, List.map_cons,
      draftWrite]
    -- an element that is refused takes no time, and the next one reads the same
    cases checkWritable key value with
    | error e =>
      rw [Action.andThen_ok, Action.run_bind, ih hs]
      rfl
    | ok _ =>
      rw [Action.andThen_ok, Action.run_bind, ih (s := s.tick) hs]
      rfl

/-- **What becomes of an element** of a bulk write: it is refused for its value, or a version is to
be stored. -/
theorem forall_mem_fill_draftWrites (author : Author) {Q : Key → Prepared Written → Prop}
    {elements : List (Key × Value)}
    (hrefused : ∀ key e, e.OfArgument → Q key (.answered (.error e)))
    (hpending : ∀ key value now, (key, value) ∈ elements → value.isNull = false →
      Q key (.pending (.ofWrite author key value (c.latest key) now))) (readings : Nat → UInt64) :
    ∀ e ∈ Draft.fill (draftWrites author c elements) readings, Q e.1 e.2 := by
  induction elements generalizing readings with
  | nil => exact fun e he => absurd he List.not_mem_nil
  | cons element rest ih =>
    obtain ⟨key, value⟩ := element
    have hrest := ih fun key value now hmem => hpending key value now (List.mem_cons_of_mem _ hmem)
    rw [draftWrites, List.map_cons, draftWrite]
    -- refused for its value, or pending with the next reading
    cases hcheck : checkWritable key value with
    | error e =>
      rw [Draft.fill, List.forall_mem_cons]
      exact ⟨hrefused key e (ofArgument_of_checkWritable hcheck), hrest readings⟩
    | ok x =>
      rw [Draft.fill, List.forall_mem_cons]
      have hvalue := isNull_of_checkWritable hcheck
      exact ⟨hpending key value _ List.mem_cons_self hvalue, hrest _⟩

/-- **A bulk write** fills in its drafts and commits them one after the other, and of nothing it is
refused. -/
theorem run_bulkWrite_drafts (hs : s.medium = .memory c none) (hfree : s.monitors.held = [])
    (author : Author) (values : Entries Key Value) :
    let drafts := draftWrites author c values.toList
    let done := commitEach Pending.written c (Draft.fill drafts s.readings)
    (bulkWrite author values).run s =
      (if values.toList = [] then .error (.invalidArgument "no configs to write") else .ok done.1,
        { s.later (Draft.timedKeys drafts).length with medium := .memory done.2 none }) := by
  intro drafts done
  -- without elements there is nothing to prepare and nothing to commit
  by_cases hvalues : values.toList = []
  · have hdrafts : drafts = [] := congrArg (draftWrites author c) hvalues
    have hdone : done = ([], c) := by simp only [done, hdrafts, Draft.fill, commitEach]
    rw [bulkWrite, if_pos (by simp [hvalues]), if_pos hvalues, hdrafts, hdone, ← hs]
    rfl
  · rw [bulkWrite, if_neg (by simp [hvalues]), if_neg hvalues]
    refine run_bounded_commitAll hs .bulkWrite (by simp [hfree]) fun monitors => ?_
    exact run_prepareWrites (s := { s with monitors }) (shows hs) author values.toList

/-! ### Bulk deletions -/

/-- The draft of a deletion. -/
def draftDelete (author : Author) (c : Collection) (key : Key) : Draft (Option Record) :=
  match c.shown key with
  | none => .answered (.ok none)
  | some r => .timed (.ofDelete author key r)

/-- The drafts of deletions, where some keys came before. -/
def draftDeletes (author : Author) (c : Collection) :
    List Key → List Key → List (Key × Draft (Option Record))
  | _, [] => []
  | seen, key :: rest =>
    (key, if key ∈ seen then .answered (.ok none) else draftDelete author c key) ::
      draftDeletes author c (key :: seen) rest

theorem own_draftDeletes (author : Author) (c : Collection) (seen keys : List Key) :
    Draft.Own (draftDeletes author c seen keys) := by
  induction keys generalizing seen with
  | nil => exact fun _ _ h => by cases h
  | cons key rest ih =>
    intro k pending hmem now
    -- what is at the head is pending only if the key is new and shows a record
    rcases List.mem_cons.1 hmem with heq | hmem
    · rw [Prod.mk.injEq, draftDelete] at heq
      obtain ⟨rfl, heq⟩ := heq
      split at heq
      · cases heq
      · split at heq
        · cases heq
        · cases heq
          rfl
    · exact ih (key :: seen) k pending hmem now

/-- The drafts of deletions of one resource depend on what there is of it, and on which of its keys
came before. -/
theorem draftDeletes_filter (h : c.only resource = c'.only resource) (author : Author)
    {seen seen' : List Key} (hseen : ∀ key, key.resource = resource → (key ∈ seen ↔ key ∈ seen'))
    (keys : List Key) :
    (draftDeletes author c seen keys).filter (fun e => decide (e.1.resource = resource)) =
      draftDeletes author c' seen' (keys.filter fun key => decide (key.resource = resource)) := by
  induction keys generalizing seen seen' with
  | nil => rfl
  | cons key rest ih =>
    rw [draftDeletes, List.filter_cons, List.filter_cons]
    by_cases hkey : key.resource = resource
    · have hnext (k : Key) (hk : k.resource = resource) : k ∈ key :: seen ↔ k ∈ key :: seen' := by
        rw [List.mem_cons, List.mem_cons, hseen k hk]
      have hshown : c.shown key = c'.shown key := Collection.shown_congr_only (hkey ▸ h)
      rw [if_pos (decide_eq_true hkey), if_pos (decide_eq_true hkey), draftDeletes, ih hnext,
        draftDelete, draftDelete, hshown]
      simp only [hseen key hkey]
    · -- a key of another resource does not repeat any of this one
      have hnext (k : Key) (hk : k.resource = resource) : k ∈ key :: seen ↔ k ∈ seen' := by
        rw [List.mem_cons, hseen k hk]
        exact or_iff_right fun heq => hkey (heq ▸ hk)
      rw [if_neg (by simp [hkey]), if_neg (by simp [hkey]), ih hnext]

/-- What is prepared are the drafts, with their times. -/
theorem run_prepareDeletes (hs : s.medium.Shows c) (author : Author) (seen keys : List Key) :
    (prepareDeletes author seen keys).run s =
      (some (.ok (Draft.fill (draftDeletes author c seen keys) s.readings)),
        s.later (Draft.timedKeys (draftDeletes author c seen keys)).length) := by
  induction keys generalizing s seen with
  | nil => rfl
  | cons key rest ih =>
    rw [prepareDeletes_cons, Action.run_bind, hs.run_prepareDeletion, draftDeletes, draftDelete]
    -- a repeated key, a key without a record, or a tombstone that takes the next reading
    split
    · rw [Action.andThen_ok, Action.run_bind, ih hs]
      rfl
    · cases c.shown key with
      | none =>
        rw [Action.andThen_ok, Action.run_bind, ih hs]
        rfl
      | some r =>
        rw [Action.andThen_ok, Action.run_bind, ih (s := s.tick) hs]
        rfl

/-- **What becomes of an element** of a bulk deletion: there is nothing to delete, or a tombstone is
to be stored. -/
theorem forall_mem_fill_draftDeletes (author : Author) {Q : Key → Prepared (Option Record) → Prop}
    (hnone : ∀ key, Q key (.answered (.ok none)))
    (hpending : ∀ key r now, c.shown key = some r → Q key (.pending (.ofDelete author key r now)))
    (seen keys : List Key) (readings : Nat → UInt64) :
    ∀ e ∈ Draft.fill (draftDeletes author c seen keys) readings, Q e.1 e.2 := by
  induction keys generalizing seen readings with
  | nil => exact fun e he => absurd he List.not_mem_nil
  | cons key rest ih =>
    rw [draftDeletes]
    -- the same three cases
    by_cases hmem : key ∈ seen
    · rw [if_pos hmem, Draft.fill, List.forall_mem_cons]
      exact ⟨hnone key, ih _ readings⟩
    · rw [if_neg hmem, draftDelete]
      cases hr : c.shown key with
      | none =>
        rw [Draft.fill, List.forall_mem_cons]
        exact ⟨hnone key, ih _ readings⟩
      | some r =>
        rw [Draft.fill, List.forall_mem_cons]
        exact ⟨hpending key r _ hr, ih _ _⟩

/-- **A bulk deletion** fills in its drafts and commits them one after the other, and of nothing it
is refused. -/
theorem run_bulkDelete_drafts (hs : s.medium = .memory c none) (hfree : s.monitors.held = [])
    (author : Author) (keys : List Key) :
    let drafts := draftDeletes author c [] keys
    let done := commitEach (fun p => .ok p.previous) c (Draft.fill drafts s.readings)
    (bulkDelete author keys).run s =
      (if keys = [] then .error (.invalidArgument "no configs to delete") else .ok done.1,
        { s.later (Draft.timedKeys drafts).length with medium := .memory done.2 none }) := by
  intro drafts done
  -- without keys there is nothing to prepare and nothing to commit
  by_cases hkeys : keys = []
  · have hdrafts : drafts = [] := congrArg (draftDeletes author c []) hkeys
    have hdone : done = ([], c) := by simp only [done, hdrafts, Draft.fill, commitEach]
    rw [bulkDelete, if_pos (by simp [hkeys]), if_pos hkeys, hdrafts, hdone, ← hs]
    rfl
  · rw [bulkDelete, if_neg (by simp [hkeys]), if_neg hkeys]
    refine run_bounded_commitAll hs .bulkDelete (by simp [hfree]) fun monitors => ?_
    exact run_prepareDeletes (s := { s with monitors }) (shows hs) author [] keys

end Store
end ConfigLedger
