import ConfigLedger.Settings
import ConfigLedger.Store.Host

/-!
# Opening a store

A store is opened with settings: they are validated, and the medium they name is opened.
Documents in memory start empty, a snapshot is read from its file.
-/

namespace ConfigLedger

/-- Opens the medium of a backend, given the disk that its directory is on. -/
def Medium.open? (backend : BackendSettings) (disk : Disk) : Except StoreError Medium :=
  match backend with
  | .memory => .ok (.memory .empty none)
  | .filesystem directory name level =>
    match Snapshot.open? disk (Path.inDirectory directory name) level.isSome with
    | .ok snapshot => .ok (.file snapshot [])
    | .error e => .error (.ofBackend e)

/-- Opens the surroundings of a store with a clock. -/
def Host.open? (settings : StoreSettings) (disk : Disk) (clock : SteppingClock) :
    Except StoreError Host := do
  settings.validate.mapError fun e => StoreError.invalidArgument e.message
  return {
    medium := ← Medium.open? settings.backend disk
    clock
    tenants := { stripes := settings.guard.stripes.toNat } }

end ConfigLedger
