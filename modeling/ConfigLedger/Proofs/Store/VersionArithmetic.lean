import ConfigLedger.Proofs.Store.Drafts

/-!
# The arithmetic of versions

Versions are 64-bit words, and the store computes with them in two places. What is prepared is
numbered one above the version that was found, and a precondition is pinned one below the version
that is pending. Neither place checks that there is such a version.

Here the operations are made over any arithmetic that is right wherever a version has the neighbour
that is asked for (`VersionArithmetic`). Where it has none, an arithmetic may do whatever an action
may do. It may wrap around (`words`), which gives the operations of the store (`call_words`), or it
may give up (`checked`).

Over a medium that shows a collection, all arithmetics run alike, as long as the versions of the
collection have room above them (`agrees_call`). So no operation asks for a version that does not
exist: what is pending was numbered above another version, or it is the first, so there is always
one below it.
-/

namespace ConfigLedger

variable {α β : Type} {c : Collection} {s : Setting} {key : Key}

namespace Pending

/-- The same version with another number. -/
def numbered (p : Pending) (version : UInt64) : Pending :=
  { p with document := { p.document with version } }

/-- Holds of exactly one version of the key that is to be written, if that meets a precondition. -/
def conditionAt (p : Pending) (expected : UInt64) (precondition : Predicate) : Predicate :=
  (p.document.key.predicate.and
    (Predicate.equalTo "configVersion" (.number (.ofUInt64 expected)))).and precondition

end Pending

/-! ### Operations over an arithmetic -/

/-- How to compute the versions above and below another one. This is settled only where there are
such versions. -/
structure VersionArithmetic where
  above : UInt64 → Action UInt64
  below : UInt64 → Action UInt64
  above_eq : ∀ v : UInt64, v.toNat + 1 < 2 ^ 64 → above v = pure (v + 1)
  below_eq : ∀ v : UInt64, 0 < v.toNat → below v = pure (v - 1)

namespace VersionArithmetic

/-- Wraps around, as words do. -/
def words : VersionArithmetic where
  above v := pure (v + 1)
  below v := pure (v - 1)
  above_eq _ _ := rfl
  below_eq _ _ := rfl

/-- Gives up where there is no such version. -/
def checked : VersionArithmetic where
  above v := if v.toNat + 1 < 2 ^ 64 then pure (v + 1) else throw (.internal "version overflow")
  below v := if 0 < v.toNat then pure (v - 1) else throw (.internal "version underflow")
  above_eq _ h := if_pos h
  below_eq _ h := if_pos h

variable (A : VersionArithmetic)

/-- The version above the one that was found, or the first one. -/
def next : Option Document → Action UInt64
  | none => pure 1
  | some d => A.above d.version

def prepareWrite (author : Author) (key : Key) (value : Value) : Action Pending := do
  let newest ← Store.latest key
  let version ← A.next newest
  let now ← Action.now
  return (Pending.ofWrite author key value newest now).numbered version

def prepareDelete (author : Author) (key : Key) : Action (Option Pending) := do
  match ← Store.live key with
  | none => return none
  | some previous =>
    let version ← A.above previous.version
    let now ← Action.now
    return some ((Pending.ofDelete author key previous now).numbered version)

/-- The version below is computed whether or not there is a live record to meet the precondition. -/
def commit (p : Pending) (precondition : Option Predicate) : Action Unit :=
  match precondition with
  | none => Action.insert p.document
  | some precondition => do
    let expected ← A.below p.document.version
    let met ← match p.previous with
      | none => pure false
      | some _ => Action.insertIf p.document (p.conditionAt expected precondition)
    unless met do
      Action.record .writeConflict
      throw (.conflict ("precondition failed for " ++ p.document.key.label))

def writeLocked (author : Author) (key : Key) (value : Value) (precondition : Option Predicate) :
    Action Written := do
  let pending ← A.prepareWrite author key value
  A.commit pending precondition
  Action.ofExcept pending.written

def write (author : Author) (key : Key) (value : Value) (filter : Option Filter) : Call Written :=
  bounded .write do
    Action.ofExcept (Store.checkWritable key value)
    let precondition ← Store.condition filter
    Action.holding key (A.writeLocked author key value precondition)

def deleteLocked (author : Author) (key : Key) : Action (Option Record) := do
  match ← A.prepareDelete author key with
  | none => return none
  | some pending =>
    Action.insert pending.document
    return pending.previous

def delete (author : Author) (key : Key) : Call (Option Record) :=
  bounded .delete (Action.holding key (A.deleteLocked author key))

def prepareWriting (author : Author) (key : Key) (value : Value) : Action (Prepared Written) := do
  let outcome ← Action.attempt do
    Action.ofExcept (Store.checkWritable key value)
    return Prepared.pending (← A.prepareWrite author key value)
  return .ofOutcome outcome

def prepareWrites (author : Author) : List (Key × Value) → Action (List (Key × Prepared Written))
  | [] => return []
  | (key, value) :: rest => do
    let element ← A.prepareWriting author key value
    return (key, element) :: (← prepareWrites author rest)

def bulkWrite (author : Author) (values : Entries Key Value) : Call (Answers Written) := do
  if values.toList.isEmpty then throw (.invalidArgument "no configs to write")
  Call.record (.bulkSize .bulkWrite values.toList.length)
  bounded .bulkWrite do
    Action.holdingAll (lockOrder values.keys) do
      Store.commitAll Pending.written (← A.prepareWrites author values.toList)

def prepareDeletion (author : Author) (seen : List Key) (key : Key) :
    Action (Prepared (Option Record)) :=
  if key ∈ seen then pure (.answered (.ok none)) else do
    let outcome ← Action.attempt do
      match ← A.prepareDelete author key with
      | some pending => return Prepared.pending pending
      | none => return .answered (.ok none)
    pure (.ofOutcome outcome)

def prepareDeletes (author : Author) (seen : List Key) :
    List Key → Action (List (Key × Prepared (Option Record)))
  | [] => return []
  | key :: rest => do
    let element ← A.prepareDeletion author seen key
    return (key, element) :: (← prepareDeletes author (key :: seen) rest)

def bulkDelete (author : Author) (keys : List Key) : Call (Answers (Option Record)) := do
  if keys.isEmpty then throw (.invalidArgument "no configs to delete")
  Call.record (.bulkSize .bulkDelete keys.length)
  bounded .bulkDelete do
    Action.holdingAll (lockOrder keys) do
      Store.commitAll (fun p => .ok p.previous) (← A.prepareDeletes author [] keys)

/-- A call over an arithmetic. What only reads does not compute with versions. -/
def call : (c : StoreCall) → Call c.Answer
  | .write author key value precondition => A.write author key value precondition
  | .delete author key => A.delete author key
  | .bulkWrite author values => A.bulkWrite author values
  | .bulkDelete author keys => A.bulkDelete author keys
  | .read key => Store.read key
  | .readMany keys => Store.readMany keys
  | .query resource options => Store.query resource options
  | .count resource filter => Store.count resource filter

/-! ### Words -/

theorem words_prepareWrite (author : Author) (key : Key) (value : Value) :
    words.prepareWrite author key value = Store.prepareWrite author key value := by
  rw [Store.prepareWrite_eq]
  unfold prepareWrite
  congr 1
  ext newest
  cases newest <;> rfl

theorem words_writeLocked (author : Author) (key : Key) (value : Value)
    (precondition : Option Predicate) :
    words.writeLocked author key value precondition =
      Store.writeLocked author key value precondition := by
  unfold writeLocked Store.writeLocked
  rw [words_prepareWrite]
  cases precondition <;> rfl

theorem words_prepareWrites (author : Author) (elements : List (Key × Value)) :
    words.prepareWrites author elements = Store.prepareWrites author elements := by
  induction elements with
  | nil => rfl
  | cons element rest ih =>
    obtain ⟨key, value⟩ := element
    rw [Store.prepareWrites_cons, prepareWrites, ih, prepareWriting, words_prepareWrite]
    rfl

theorem words_prepareDeletes (author : Author) (seen keys : List Key) :
    words.prepareDeletes author seen keys = Store.prepareDeletes author seen keys := by
  induction keys generalizing seen with
  | nil => rfl
  | cons key rest ih =>
    rw [Store.prepareDeletes_cons, prepareDeletes, ih]
    rfl

/-- **The operations of the store** are those over words. -/
theorem call_words (call : StoreCall) : words.call call = call.call := by
  -- only what draws or compares versions is written anew, and over words it is the same
  cases call with
  | write author key value filter =>
    show words.write author key value filter = Store.write author key value filter
    simp only [write, words_writeLocked, Store.write_eq]
  | delete author key => rfl
  | bulkWrite author values =>
    show words.bulkWrite author values = Store.bulkWrite author values
    rw [bulkWrite, words_prepareWrites, Store.bulkWrite]
  | bulkDelete author keys =>
    show words.bulkDelete author keys = Store.bulkDelete author keys
    rw [bulkDelete, words_prepareDeletes, Store.bulkDelete]
  | read | readMany | query | count => rfl

end VersionArithmetic

/-! ### Runs that agree -/

namespace Action

/-- Actions agree if their first parts do and what follows agrees on what these leave. -/
theorem run_bind_congr {a a' : Action α} {f f' : α → Action β} (ha : a.run s = a'.run s)
    (hf : ∀ x s', a'.run s = (some (.ok x), s') → (f x).run s' = (f' x).run s') :
    (a >>= f).run s = (a' >>= f').run s := by
  rw [run_bind, run_bind, ha]
  obtain ⟨outcome, s', hrun⟩ : ∃ outcome s', a'.run s = (outcome, s') := ⟨_, _, rfl⟩
  -- both end with the outcome of the first parts, or go on from one state
  rw [hrun] at hf ⊢
  match outcome with
  | none => rfl
  | some (.error e) => rfl
  | some (.ok x) => exact hf x s' rfl

/-- Under a monitor actions agree if they do over the same medium. -/
theorem run_holding_congr {a a' : Action α}
    (h : ∀ s' : Setting, s'.medium = s.medium → a.run s' = a'.run s') (key : Key) :
    (holding key a).run s = (holding key a').run s := by
  obtain ⟨s', hmedium, hcutoff | hgranted⟩ := run_holding_cases s key
  · rw [hcutoff, hcutoff]
  · rw [hgranted, hgranted, h s' hmedium]

theorem run_holdingAll_congr {a a' : Action α}
    (h : ∀ s' : Setting, s'.medium = s.medium → a.run s' = a'.run s') (keys : List Key) :
    (holdingAll keys a).run s = (holdingAll keys a').run s := by
  induction keys generalizing s with
  | nil => exact h s rfl
  | cons key rest ih =>
    refine run_holding_congr (fun s' hs' => ih fun s'' hs'' => ?_) key
    exact h s'' (hs''.trans hs')

theorem run_attempt_congr {a a' : Action α} (h : a.run s = a'.run s) :
    a.attempt.run s = a'.attempt.run s := by
  rw [run_attempt, run_attempt, h]

end Action

namespace Call

theorem run_bounded_congr {a a' : Action α} (h : a.run s = a'.run s) (operation : Operation) :
    (bounded operation a).run s = (bounded operation a').run s := by
  rw [run_bounded, run_bounded, h]

/-- Whether a batch is refused, and how large it is, is settled before anything is prepared. -/
theorem run_sized_congr {call call' : Call α} (h : call.run s = call'.run s) (empty : Bool)
    (e : StoreError) (m : Measurement) :
    (do if empty then throw e
        record m
        call : Call α).run s = (do
        if empty then throw e
        record m
        call').run s := by
  -- an empty batch is refused alike, and a measurement changes nothing
  cases empty with
  | true => rfl
  | false => exact h

end Call

namespace VersionArithmetic

variable (A : VersionArithmetic)

/-! ### Where there is room -/

theorem next_eq {newest : Option Document}
    (hroom : ∀ d, newest = some d → d.version.toNat + 1 < 2 ^ 64) :
    A.next newest = pure (nextVersion newest) := by
  cases newest with
  | none => rfl
  | some d => exact A.above_eq d.version (hroom d rfl)

/-- A version that is not zero has one below it to pin a precondition to. -/
theorem commit_eq {p : Pending} (hpos : 0 < p.document.version.toNat)
    (precondition : Option Predicate) : A.commit p precondition = Store.commit p precondition := by
  cases precondition with
  | none => rfl
  | some q =>
    unfold commit
    rw [A.below_eq _ hpos]
    rfl

section

variable (hs : s.medium.Shows c) (hroom : ∀ d ∈ c.documents, d.version.toNat + 1 < 2 ^ 64)

include hs hroom

/-! ### Preparations -/

theorem agrees_prepareWrite (author : Author) (key : Key) (value : Value) :
    (A.prepareWrite author key value).run s = (Store.prepareWrite author key value).run s := by
  -- what is found is stored, so there is room above it
  have hnext : A.next (c.latest key) = pure (nextVersion (c.latest key)) :=
    A.next_eq fun d hd => hroom d (Collection.mem_documents_of_latest hd).1
  rw [hs.run_prepareWrite, prepareWrite, Action.run_bind, hs.run_latest, Action.andThen_ok, hnext]
  rfl

theorem agrees_prepareDelete (author : Author) (key : Key) :
    (A.prepareDelete author key).run s = (Store.prepareDelete author key).run s := by
  rw [hs.run_prepareDelete, prepareDelete, Action.run_bind, hs.run_live, Action.andThen_ok]
  -- no version is drawn where nothing lives
  cases hr : c.shown key with
  | none => rfl
  | some r =>
    -- the record is stored, so there is room above it
    have hstored : r.document ∈ c.documents :=
      (Collection.mem_documents_of_latest (Collection.shown_eq_some_iff.1 hr).1).1
    have habove : A.above r.version = pure (r.version + 1) := A.above_eq _ (hroom _ hstored)
    show Action.run (A.above r.version >>= _) s = _
    rw [habove]
    rfl

theorem agrees_prepareWriting (author : Author) (key : Key) (value : Value) :
    (A.prepareWriting author key value).run s = (Store.prepareWriting author key value).run s := by
  unfold prepareWriting Store.prepareWriting
  refine Action.run_bind_congr (Action.run_attempt_congr ?_) fun _ _ _ => rfl
  refine Action.run_bind_congr rfl fun _ s' hchecked => ?_
  obtain rfl : s = s' := congrArg Prod.snd hchecked
  exact Action.run_bind_congr (A.agrees_prepareWrite hs hroom author key value) fun _ _ _ => rfl

theorem agrees_prepareDeletion (author : Author) (seen : List Key) (key : Key) :
    (A.prepareDeletion author seen key).run s =
      (Store.prepareDeletion author seen key).run s := by
  unfold prepareDeletion Store.prepareDeletion
  by_cases hmem : key ∈ seen
  · rw [if_pos hmem, if_pos hmem]
  · rw [if_neg hmem, if_neg hmem]
    refine Action.run_bind_congr (Action.run_attempt_congr ?_) fun _ _ _ => rfl
    exact Action.run_bind_congr (A.agrees_prepareDelete hs hroom author key) fun _ _ _ => rfl

omit hroom in
/-- What is prepared leaves the medium alone. -/
theorem medium_of_prepareWriting {author : Author} {value : Value} {x : Prepared Written}
    {s' : Setting} (h : (Store.prepareWriting author key value).run s = (some (.ok x), s')) :
    s'.medium = s.medium := by
  rw [hs.run_prepareWriting] at h
  split at h
  · cases h
    rfl
  · cases h
    rfl

omit hroom in
theorem medium_of_prepareDeletion {author : Author} {seen : List Key}
    {x : Prepared (Option Record)} {s' : Setting}
    (h : (Store.prepareDeletion author seen key).run s = (some (.ok x), s')) :
    s'.medium = s.medium := by
  rw [hs.run_prepareDeletion] at h
  -- a key that came before is not looked up, and a lookup leaves the medium as it is
  split at h
  · cases h
    rfl
  · split at h
    · cases h
      rfl
    · cases h
      rfl

theorem agrees_prepareWrites (author : Author) (elements : List (Key × Value)) :
    (A.prepareWrites author elements).run s = (Store.prepareWrites author elements).run s := by
  induction elements generalizing s with
  | nil => rfl
  | cons element rest ih =>
    obtain ⟨key, value⟩ := element
    rw [prepareWrites, Store.prepareWrites_cons]
    refine Action.run_bind_congr (A.agrees_prepareWriting hs hroom author key value) ?_
    intro x s' hprepared
    -- the rest is prepared from the same collection, at a later time
    have hs' : s'.medium.Shows c := by
      rw [medium_of_prepareWriting hs hprepared]
      exact hs
    exact Action.run_bind_congr (ih hs') fun _ _ _ => rfl

theorem agrees_prepareDeletes (author : Author) (seen keys : List Key) :
    (A.prepareDeletes author seen keys).run s = (Store.prepareDeletes author seen keys).run s := by
  induction keys generalizing s seen with
  | nil => rfl
  | cons key rest ih =>
    rw [prepareDeletes, Store.prepareDeletes_cons]
    refine Action.run_bind_congr (A.agrees_prepareDeletion hs hroom author seen key) ?_
    intro x s' hprepared
    -- preparing reads only, so the rest finds the same collection
    have hs' : s'.medium.Shows c := by
      rw [medium_of_prepareDeletion hs hprepared]
      exact hs
    exact Action.run_bind_congr (ih hs' (key :: seen)) fun _ _ _ => rfl

/-! ### Operations -/

theorem agrees_writeLocked (author : Author) (key : Key) (value : Value)
    (precondition : Option Predicate) :
    (A.writeLocked author key value precondition).run s =
      (Store.writeLocked author key value precondition).run s := by
  unfold writeLocked Store.writeLocked
  -- there is room above the version that is found, so the same version is drawn
  refine Action.run_bind_congr (A.agrees_prepareWrite hs hroom author key value) ?_
  intro p s' hprepared
  rw [hs.run_prepareWrite] at hprepared
  cases hprepared
  -- what is pending is numbered above another version, or it is the first
  have hnumber : (nextVersion (c.latest key)).toNat =
      ((c.latest key).map fun d => d.version.toNat).getD 0 + 1 :=
    Collection.toNat_nextVersion fun d hd => hroom d (Collection.mem_documents_of_latest hd).1
  have hpos : 0 < (nextVersion (c.latest key)).toNat := by
    rw [hnumber]
    exact Nat.succ_pos _
  rw [A.commit_eq hpos]

theorem agrees_write (author : Author) (key : Key) (value : Value) (filter : Option Filter) :
    (A.write author key value filter).run s = (Store.write author key value filter).run s := by
  rw [Store.write_eq]
  unfold write
  apply Call.run_bounded_congr
  -- the value and the precondition are checked before anything is asked for
  refine Action.run_bind_congr rfl fun _ s₁ hchecked => ?_
  obtain rfl : s = s₁ := congrArg Prod.snd hchecked
  refine Action.run_bind_congr rfl fun precondition s₂ hcompiled => ?_
  rw [Store.run_condition] at hcompiled
  obtain rfl : s = s₂ := congrArg Prod.snd hcompiled
  refine Action.run_holding_congr (fun s' hs' => ?_) key
  exact A.agrees_writeLocked (hs'.symm ▸ hs) hroom author key value precondition

theorem agrees_delete (author : Author) (key : Key) :
    (A.delete author key).run s = (Store.delete author key).run s := by
  rw [Store.delete_eq]
  unfold delete
  apply Call.run_bounded_congr
  refine Action.run_holding_congr (fun s' hs' => ?_) key
  exact Action.run_bind_congr (A.agrees_prepareDelete (hs'.symm ▸ hs) hroom author key)
    fun _ _ _ => rfl

theorem agrees_bulkWrite (author : Author) (values : Entries Key Value) :
    (A.bulkWrite author values).run s = (Store.bulkWrite author values).run s := by
  unfold bulkWrite Store.bulkWrite
  apply Call.run_sized_congr
  apply Call.run_bounded_congr
  refine Action.run_holdingAll_congr (fun s' hs' => ?_) _
  exact Action.run_bind_congr (A.agrees_prepareWrites (hs'.symm ▸ hs) hroom author values.toList)
    fun _ _ _ => rfl

theorem agrees_bulkDelete (author : Author) (keys : List Key) :
    (A.bulkDelete author keys).run s = (Store.bulkDelete author keys).run s := by
  unfold bulkDelete Store.bulkDelete
  apply Call.run_sized_congr
  apply Call.run_bounded_congr
  refine Action.run_holdingAll_congr (fun s' hs' => ?_) _
  exact Action.run_bind_congr (A.agrees_prepareDeletes (hs'.symm ▸ hs) hroom author [] keys)
    fun _ _ _ => rfl

/-- **All arithmetics run alike** where the versions have room above them. -/
theorem agrees_call (call : StoreCall) : (A.call call).run s = call.call.run s := by
  cases call with
  | write author key value filter => exact A.agrees_write hs hroom author key value filter
  | delete author key => exact A.agrees_delete hs hroom author key
  | bulkWrite author values => exact A.agrees_bulkWrite hs hroom author values
  | bulkDelete author keys => exact A.agrees_bulkDelete hs hroom author keys
  | read | readMany | query | count => rfl

end

end VersionArithmetic
end ConfigLedger
