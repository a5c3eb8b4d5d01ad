import ConfigLedger.Locks.TenantLocks
import ConfigLedger.Store.Procedure

/-!
# Holding the lock of a tenant

Whatever depends on all configurations of a tenant holds the tenant's lock. Waiting for the
lock has a limit of its own, which is not the deadline of the operations done under the
lock.
-/

namespace ConfigLedger

namespace Store

/-- Takes the lock of a tenant. -/
def lockTenant (tenant : String) : Call Unit := do
  let granted : Bool ← Call.ofProcedure (.request (.lockTenant tenant))
  unless granted do
    Call.record .tenantLockTimeout
    throw (TenantLocks.timedOut tenant)

/-- Does something while holding the lock of a tenant. The lock is given back however that ends. -/
def holdingTenant {α : Type} (tenant : String) (c : Call α) : Call α := do
  lockTenant tenant
  let outcome ← Call.ofProcedure c.steps
  Call.ofProcedure (.request (.unlockTenant tenant))
  Call.ofExcept outcome

end Store

end ConfigLedger
