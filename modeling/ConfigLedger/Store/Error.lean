import ConfigLedger.Backend.Error
import ConfigLedger.Filter.Compile

/-!
# Errors of the store

An error has a code, which metrics count by, and a message. Whether a caller may repeat the
same request unchanged depends on the code alone.
-/

namespace ConfigLedger

/-- Why a store operation failed. -/
inductive StoreError where
  | notFound (detail : String)
  | conflict (detail : String)
  | invalidArgument (detail : String)
  | alreadyExists (detail : String)
  | aborted (detail : String)
  | unavailable (detail : String)
  | deadlineExceeded
  | internal (detail : String)
deriving DecidableEq

namespace StoreError

/-- The short name of an error. -/
def code : StoreError → String
  | notFound _ => "not_found"
  | conflict _ => "conflict"
  | invalidArgument _ => "invalid_argument"
  | alreadyExists _ => "already_exists"
  | aborted _ => "aborted"
  | unavailable _ => "unavailable"
  | deadlineExceeded => "deadline_exceeded"
  | internal _ => "internal"

/-- The message of an error. -/
def message : StoreError → String
  | notFound detail => "not found: " ++ detail
  | conflict detail => "conflict: " ++ detail
  | invalidArgument detail => "invalid argument: " ++ detail
  | alreadyExists detail => "already exists: " ++ detail
  | aborted detail => "aborted: " ++ detail
  | unavailable detail => "unavailable: " ++ detail
  | deadlineExceeded => "deadline exceeded"
  | internal detail => "internal error: " ++ detail

/-- Whether the same request may be repeated unchanged. -/
def retryable : StoreError → Bool
  | conflict _ | aborted _ | unavailable _ | deadlineExceeded => true
  | _ => false

/-- A filter that cannot be used is an invalid argument. -/
def ofFilter (e : FilterError) : StoreError :=
  .invalidArgument e.message

/-- A version that is taken is a conflict, a failing medium is unavailable, and data that cannot be
written or read is an internal error. -/
def ofBackend (e : BackendError) : StoreError :=
  match e with
  | .duplicateVersion _ _ => .conflict e.message
  | .io _ | .unavailable _ => .unavailable e.message
  | .encode _ | .decode _ => .internal e.message

end StoreError

end ConfigLedger
