import ConfigLedger.Hash.Sip
import ConfigLedger.Store.Error

/-!
# Tenant locks

Checking a whole tenant and then creating something in it is done under the lock of the
tenant. There is a fixed number of locks, at least one, and the hash of a tenant's name
chooses its lock; tenants that share one exclude each other.
-/

namespace ConfigLedger

/-- A number of locks and the ones that are held. -/
structure TenantLocks where
  stripes : Nat
  held : List Nat := []

namespace TenantLocks

/-- The lock of a tenant. -/
def stripe (locks : TenantLocks) (tenant : String) : Nat :=
  (Sip.hashText tenant).toNat % max locks.stripes 1

/-- Takes the lock of a tenant, unless it is held. -/
def lock? (locks : TenantLocks) (tenant : String) : Option TenantLocks :=
  if locks.stripe tenant ∈ locks.held then none
  else some { locks with held := locks.stripe tenant :: locks.held }

/-- Gives the lock of a tenant back. -/
def unlock (locks : TenantLocks) (tenant : String) : TenantLocks :=
  { locks with held := locks.held.erase (locks.stripe tenant) }

/-- The error of a caller that waited too long for a tenant's lock. -/
def timedOut (tenant : String) : StoreError :=
  .aborted ("timed out acquiring lock for tenant " ++ tenant)

end TenantLocks

end ConfigLedger
