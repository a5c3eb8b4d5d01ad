/-!
# Errors and replies of a backend

What can go wrong where documents are kept, and how a backend replies.
-/

namespace ConfigLedger

/-- Why a backend could not do what it was asked to do. -/
inductive BackendError where
  /-- The medium failed. -/
  | io (reason : String)
  | encode (reason : String)
  | decode (reason : String)
  /-- The version is stored already; `key` is how the key is shown. -/
  | duplicateVersion (key : String) (version : UInt64)
  | unavailable (reason : String)
deriving DecidableEq

/-- The message of an error. -/
def BackendError.message : BackendError → String
  | io reason => "I/O error: " ++ reason
  | encode reason => "encode error: " ++ reason
  | decode reason => "decode error: " ++ reason
  | duplicateVersion key version =>
    "version " ++ toString version.toNat ++ " of " ++ key ++ " already exists"
  | unavailable reason => "backend unavailable: " ++ reason

/-- What a backend answers; nothing when the caller's deadline passed first. -/
abbrev Reply (α : Type) : Type :=
  Option (Except BackendError α)

end ConfigLedger
