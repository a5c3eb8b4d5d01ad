import ConfigLedger.Proofs.Backend.Numbering
import ConfigLedger.Store.Bulk

/-!
# Pending versions

What a write or a deletion stores is a function of the newest version that it found and of the
time (`Pending.ofWrite`, `Pending.ofDelete`). The condition that a conditional write pins to the
version below it holds of that version alone, so exactly one stored document satisfies it if that
version meets the precondition, and none does otherwise (`length_filter_condition`).
-/

namespace ConfigLedger

open Binary64 (exactBound)

namespace Pending

/-- The version that a write makes. -/
def ofWrite (author : Author) (key : Key) (value : Value) (newest : Option Document)
    (now : UInt64) : Pending where
  document := {
    key, author, value
    version := nextVersion newest
    created := ((newest.bind Document.record?).map fun r => r.created).getD now
    updated := now }
  previous := newest.bind Document.record?

/-- The tombstone that a deletion makes. -/
def ofDelete (author : Author) (key : Key) (previous : Record) (now : UInt64) : Pending where
  document := {
    key, author
    value := .null
    version := previous.version + 1
    created := previous.created
    updated := now }
  previous := some previous

/-- A tombstone follows the newest version. -/
theorem version_ofDelete {newest : Option Document} {r : Record}
    (hr : newest.bind Document.record? = some r) (author : Author) (key : Key) (now : UInt64) :
    (ofDelete author key r now).document.version = nextVersion newest := by
  obtain ⟨d, rfl, hd⟩ := Option.bind_eq_some_iff.1 hr
  rw [(Document.record?_eq_some_iff.1 hd).2]
  rfl

variable {p : Pending} {precondition : Predicate} {c : Collection} {e : Document}

theorem satisfies_condition (he : e.key = p.document.key → e.Exact)
    (hp : (p.document.version - 1).toNat < exactBound) :
    e.satisfies (p.condition precondition) = true ↔
      e.key = p.document.key ∧ e.version = p.document.version - 1 ∧
        e.satisfies precondition = true := by
  -- the condition has three parts, of which the key and the precondition are as they stand
  have hkey := @Document.satisfies_keyPredicate e p.document.key
  rw [Document.satisfies] at hkey
  rw [Document.satisfies, condition, Predicate.holds_and, Predicate.holds_and, hkey,
    Bool.and_eq_true, Bool.and_eq_true, decide_eq_true_iff, and_assoc]
  -- of other keys the number does not matter
  refine and_congr_right fun heq => and_congr_left fun _ => ?_
  have hversion := Document.satisfies_versionPredicate (he heq) hp
  rw [Document.satisfies] at hversion
  rw [hversion, decide_eq_true_iff]

/-- **A pinned condition is met once or not at all**: by the version below, if that meets the
precondition, and by no other one. -/
theorem length_filter_condition (hc : c.ExactAt p.document.key) (he : e ∈ c.documents)
    (hkey : e.key = p.document.key) (hversion : p.document.version = e.version + 1) :
    (c.documents.filter (·.satisfies (p.condition precondition))).length = 1 ↔
      e.satisfies precondition = true := by
  -- the version below is that of the document
  have hbelow : p.document.version - 1 = e.version := by rw [hversion, UInt64.add_sub_cancel]
  have hexact : e.Exact := hc e (Collection.mem_history.2 ⟨he, hkey⟩)
  have hsmall : (p.document.version - 1).toNat < exactBound := by
    rw [hbelow]
    exact hexact
  -- all conditions but the last one say which version is meant
  have hmem (f : Document) : f ∈ c.documents.filter (·.satisfies (p.condition precondition)) ↔
      f = e ∧ e.satisfies precondition = true := by
    rw [List.mem_filter]
    constructor
    · -- one key and one number are those of one stored document
      rintro ⟨hf, hsatisfies⟩
      obtain ⟨hfkey, hfversion, hmet⟩ := (satisfies_condition
        (fun hfkey => hc f (Collection.mem_history.2 ⟨hf, hfkey⟩)) hsmall).1 hsatisfies
      have heq : f = e := Collection.eq_of_sameVersion hf he
        (Document.sameVersion_iff.2 ⟨hfkey.trans hkey.symm, hfversion.trans hbelow⟩)
      exact ⟨heq, heq ▸ hmet⟩
    · rintro ⟨rfl, hmet⟩
      exact ⟨he, (satisfies_condition (fun _ => hexact) hsmall).2 ⟨hkey, hbelow.symm, hmet⟩⟩
  constructor
  · -- the document that is counted meets the precondition
    intro hone
    obtain ⟨f, hf⟩ := List.length_eq_one_iff.1 hone
    exact ((hmem f).1 (hf ▸ List.mem_singleton_self f)).2
  · -- what meets the condition is the document alone
    intro hmet
    have hperm : (c.documents.filter (·.satisfies (p.condition precondition))).Perm [e] := by
      refine (List.perm_ext_iff_of_nodup (c.nodup_documents.filter _) (by simp)).2 fun f => ?_
      rw [hmem, List.mem_singleton, and_iff_left hmet]
    exact hperm.length_eq

end Pending

namespace Store

theorem isNull_of_checkWritable {key : Key} {value : Value} {x : Unit}
    (h : checkWritable key value = .ok x) : value.isNull = false := by
  rw [checkWritable] at h
  split at h
  · cases h
  · next hvalue => exact Bool.eq_false_iff.2 hvalue

theorem prepareWrite_eq (author : Author) (key : Key) (value : Value) :
    prepareWrite author key value = do
      let newest ← latest key
      let now ← Action.now
      return Pending.ofWrite author key value newest now := rfl

theorem prepareDelete_eq (author : Author) (key : Key) :
    prepareDelete author key = do
      match ← live key with
      | none => return none
      | some previous => do
        let now ← Action.now
        return some (Pending.ofDelete author key previous now) := rfl

/-- The preparation of one write among others. -/
def prepareWriting (author : Author) (key : Key) (value : Value) : Action (Prepared Written) := do
  let outcome ← Action.attempt do
    Action.ofExcept (checkWritable key value)
    return Prepared.pending (← prepareWrite author key value)
  return .ofOutcome outcome

theorem prepareWrites_cons (author : Author) (key : Key) (value : Value)
    (rest : List (Key × Value)) :
    prepareWrites author ((key, value) :: rest) = do
      let element ← prepareWriting author key value
      return (key, element) :: (← prepareWrites author rest) := by
  rw [prepareWrites, prepareWriting, bind_assoc]
  rfl

/-- The preparation of one deletion among others. -/
def prepareDeletion (author : Author) (seen : List Key) (key : Key) :
    Action (Prepared (Option Record)) :=
  if key ∈ seen then pure (.answered (.ok none)) else do
    let outcome ← Action.attempt do
      match ← prepareDelete author key with
      | some pending => return Prepared.pending pending
      | none => return .answered (.ok none)
    pure (.ofOutcome outcome)

theorem prepareDeletes_cons (author : Author) (seen rest : List Key) (key : Key) :
    prepareDeletes author seen (key :: rest) = do
      let element ← prepareDeletion author seen key
      return (key, element) :: (← prepareDeletes author (key :: seen) rest) := by
  rw [prepareDeletes, prepareDeletion]
  by_cases hmem : key ∈ seen
  · rw [if_pos hmem, if_pos hmem]
  · rw [if_neg hmem, if_neg hmem]
    exact (bind_assoc _ _ _).symm

/-- Stores a pending version, if the version below it meets a precondition. -/
def commit (p : Pending) (precondition : Option Predicate) : Action Unit :=
  match precondition with
  | some precondition => commitConditional p precondition
  | none => Action.insert p.document

/-- What a write does while it holds the monitor of its key. -/
def writeLocked (author : Author) (key : Key) (value : Value) (precondition : Option Predicate) :
    Action Written := do
  let pending ← prepareWrite author key value
  commit pending precondition
  Action.ofExcept pending.written

/-- What a deletion does while it holds the monitor of its key. -/
def deleteLocked (author : Author) (key : Key) : Action (Option Record) := do
  match ← prepareDelete author key with
  | none => return none
  | some pending =>
    Action.insert pending.document
    return pending.previous

theorem write_eq (author : Author) (key : Key) (value : Value) (filter : Option Filter) :
    write author key value filter = bounded .write (do
      Action.ofExcept (checkWritable key value)
      let precondition ← condition filter
      Action.holding key (writeLocked author key value precondition)) := by
  rw [write]
  congr 3
  -- the two differ under the monitor only, where `commit` makes the distinction of the write
  funext _
  congr 1
  funext precondition
  cases precondition <;> rfl

theorem delete_eq (author : Author) (key : Key) :
    delete author key = bounded .delete (Action.holding key (deleteLocked author key)) := rfl

end Store

end ConfigLedger
