import ConfigLedger.Backend.Error
import ConfigLedger.Backend.Query
import ConfigLedger.Metrics
import ConfigLedger.Store.Error

/-!
# Procedures

A `Procedure` is an operation taken apart into its steps: it is done, or it makes a
`Request` to its surroundings and goes on with the answer. Nothing happens in between, so
whatever else shares the surroundings acts between two requests, and what a procedure does
is known once the answers are (`Procedure.run`).

Most operations run under a deadline. It shows only where an operation waits, so it is the
answer to a request that says that the deadline has passed (`none`). An `Action` is a part
of such an operation: it may fail with an error, and apart from that it may be cut off. A
`Call` is a whole operation, which may only fail. `bounded` makes a call of an action: a
cut-off becomes the error `deadlineExceeded`, and the outcome is measured.
-/

namespace ConfigLedger

/-- What a procedure asks of its surroundings. -/
inductive Request where
  | find (query : Query)
  | insert (document : Document)
  /-- Insert the document if exactly one stored document satisfies the condition. -/
  | insertIf (document : Document) (condition : Predicate)
  /-- Insert documents, each on its own. -/
  | insertAll (documents : List Document)
  | health
  /-- Read the clock. -/
  | now
  /-- Take the monitor of a key, waiting for it. -/
  | lockKey (key : Key)
  | unlockKey (key : Key)
  /-- Take the lock of a tenant, waiting for it. -/
  | lockTenant (tenant : String)
  | unlockTenant (tenant : String)
  | record (measurement : Measurement)

/-- The answers to a request. -/
def Request.Answer : Request → Type
  | find _ => Reply (List Document)
  | insert _ => Reply Unit
  | insertIf _ _ => Reply Bool
  | insertAll _ => Reply (List (Except BackendError Unit))
  | health => Bool
  | now => UInt64
  -- whether the lock was to be had in time
  | lockKey _ | lockTenant _ => Bool
  | unlockKey _ | unlockTenant _ | record _ => Unit

/-- An operation, step by step. -/
inductive Procedure (α : Type) where
  | done (a : α)
  | ask (request : Request) (next : request.Answer → Procedure α)

namespace Procedure

variable {α β γ σ : Type}

/-- One procedure after the other. -/
def bind : Procedure α → (α → Procedure β) → Procedure β
  | done a, f => f a
  | ask request next, f => ask request fun answer => (next answer).bind f

instance : Monad Procedure where
  pure := done
  bind := bind

/-- Ending where another procedure starts adds nothing. -/
theorem bind_done (p : Procedure α) : p.bind done = p := by
  induction p with
  | done a => rfl
  | ask request next ih => simp only [bind, ih]

/-- Sequencing is associative. -/
theorem bind_bind (p : Procedure α) (f : α → Procedure β) (g : β → Procedure γ) :
    (p.bind f).bind g = p.bind fun a => (f a).bind g := by
  induction p with
  | done a => rfl
  | ask request next ih => simp only [bind, ih]

instance : LawfulMonad Procedure :=
  LawfulMonad.mk' Procedure (fun p => bind_done p) (fun _ _ => rfl) bind_bind

/-- The procedure of a single request. -/
def request (r : Request) : Procedure r.Answer :=
  ask r done

/-- Runs a procedure in surroundings that serve its requests one after the other. -/
def run (serve : (r : Request) → σ → r.Answer × σ) : Procedure α → σ → α × σ
  | done a, s => (a, s)
  | ask r next, s => (next (serve r s).1).run serve (serve r s).2

/-- A run of two procedures is a run of the first and then one of the second. -/
theorem run_bind (serve : (r : Request) → σ → r.Answer × σ) (p : Procedure α)
    (f : α → Procedure β) (s : σ) :
    (p >>= f).run serve s = (f (p.run serve s).1).run serve (p.run serve s).2 := by
  induction p generalizing s with
  | done a => rfl
  | ask r next ih => exact ih _ _

end Procedure

/-- An operation that may fail. -/
abbrev Call : Type → Type :=
  ExceptT StoreError Procedure

namespace Call

variable {α : Type}

/-- The call of a procedure that reports errors. -/
def ofSteps (p : Procedure (Except StoreError α)) : Call α :=
  ExceptT.mk p

/-- The steps of a call. -/
def steps (c : Call α) : Procedure (Except StoreError α) :=
  ExceptT.run c

/-- A step that does not fail. -/
def ofProcedure (p : Procedure α) : Call α :=
  ofSteps do return .ok (← p)

/-- An outcome that is known already. -/
def ofExcept (outcome : Except StoreError α) : Call α :=
  ofSteps (pure outcome)

/-- Counts something. -/
def record (m : Measurement) : Call Unit :=
  ofProcedure (.request (.record m))

end Call

/-- A part of an operation under a deadline: it may fail, and it may be cut off. -/
abbrev Action : Type → Type :=
  ExceptT StoreError (OptionT Procedure)

namespace Action

variable {α : Type}

/-- The action of a procedure that reports errors and cut-offs. -/
def ofSteps (p : Procedure (Option (Except StoreError α))) : Action α :=
  ExceptT.mk (OptionT.mk p)

/-- The steps of an action. -/
def steps (a : Action α) : Procedure (Option (Except StoreError α)) :=
  OptionT.run (ExceptT.run a)

/-- The action of a reply that a backend gave. -/
def ofReply (p : Procedure (Reply α)) : Action α :=
  ofSteps do return (← p).map (Except.mapError StoreError.ofBackend)

/-- A step that neither fails nor waits. -/
def ofProcedure (p : Procedure α) : Action α :=
  ofSteps do return some (.ok (← p))

/-- An outcome that is known already. -/
def ofExcept (outcome : Except StoreError α) : Action α :=
  ofSteps (pure (some outcome))

/-- The outcome of an action; an error does not end what surrounds it, a cut-off does. -/
def attempt (a : Action α) : Action (Except StoreError α) :=
  ofSteps do return (← a.steps).map .ok

/-- What a query finds. -/
def find (query : Query) : Action (List Document) :=
  ofReply (.request (.find query))

/-- Adds a document. -/
def insert (d : Document) : Action Unit :=
  ofReply (.request (.insert d))

/-- Adds a document if exactly one stored document satisfies the condition. -/
def insertIf (d : Document) (condition : Predicate) : Action Bool :=
  ofReply (.request (.insertIf d condition))

/-- Adds documents, each on its own. -/
def insertAll (documents : List Document) : Action (List (Except BackendError Unit)) :=
  ofReply (.request (.insertAll documents))

/-- The time. -/
def now : Action UInt64 :=
  ofProcedure (.request .now)

/-- Counts something. -/
def record (m : Measurement) : Action Unit :=
  ofProcedure (.request (.record m))

/-- Does something while holding the monitor of a key. The monitor is given back however
that ends. -/
def holding (key : Key) (a : Action α) : Action α :=
  ofSteps do
    let granted : Bool ← Procedure.request (.lockKey key)
    -- a monitor that is not to be had in time cuts off what is to be done under it
    if granted then
      let outcome ← a.steps
      Procedure.request (.unlockKey key)
      return outcome
    else return none

/-- Does something while holding the monitors of several keys, taken one after the other and given
back last first. A store that gives them back first to last is the same to its callers: giving a
monitor back never waits, none is taken in between, and nothing is read or written any more. -/
def holdingAll (keys : List Key) (a : Action α) : Action α :=
  keys.foldr holding a

end Action

/-- The code of an outcome, for measurements. -/
def outcomeCode {α : Type} : Except StoreError α → String
  | .ok _ => "ok"
  | .error e => e.code

/-- An operation under a deadline, measured. -/
def bounded {α : Type} (operation : Operation) (a : Action α) : Call α :=
  Call.ofSteps do
    let outcome := (← a.steps).getD (.error .deadlineExceeded)
    Procedure.request (.record (.request operation (outcomeCode outcome)))
    Procedure.request (.record (.duration operation))
    return outcome

end ConfigLedger
