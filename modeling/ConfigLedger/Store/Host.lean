import ConfigLedger.Backend.Fault
import ConfigLedger.Backend.Snapshot
import ConfigLedger.Clock
import ConfigLedger.Locks.KeyMonitors
import ConfigLedger.Locks.TenantLocks
import ConfigLedger.Store.Procedure

/-!
# Hosts

A `Host` is the surroundings in which calls run one after the other: a medium that keeps the
documents, a clock, the locks, and what has been measured. `Host.serve` answers one request,
`Host.call` runs a whole call.

Calls that run one after the other never wait for each other, so a monitor that is held,
like a query that is never answered, lets the deadline pass.
-/

namespace ConfigLedger

/-- What keeps the documents. -/
inductive Medium where
  | memory (c : Collection) (fault : Option Fault)
  /-- A snapshot file. The next additions, one after the other, meet these failures if they come to
  save the file, and the additions after them meet none. -/
  | file (s : Snapshot) (failures : List (Option Failure))

/-- The surroundings of calls. -/
structure Host where
  medium : Medium
  clock : SteppingClock
  monitors : KeyMonitors := {}
  tenants : TenantLocks
  /-- What has been measured, the latest first. -/
  measured : List Measurement := []

namespace Medium

/-- Answers a query. -/
def find (q : Query) : Medium → Reply (List Document)
  | memory c fault => Faulty.find fault c q
  | file s _ => some (.ok (s.collection.find q))

/-- Adds a document. -/
def insert (d : Document) : Medium → Except BackendError Unit × Medium
  | memory c fault =>
    let (result, c) := Faulty.insert fault c d
    (result, memory c fault)
  | file s failures =>
    let (result, s) := s.insert d (failures.headD none)
    (result, file s failures.tail)

/-- Adds a document if exactly one stored document satisfies a condition. -/
def insertIf (d : Document) (condition : Predicate) : Medium → Except BackendError Bool × Medium
  | memory c fault =>
    let (result, c) := Faulty.insertIf fault c d condition
    (result, memory c fault)
  | file s failures =>
    let (result, s) := s.insertIf d condition (failures.headD none)
    (result, file s failures.tail)

/-- Adds documents, each on its own. -/
def insertAll (documents : List Document) :
    Medium → Except BackendError (List (Except BackendError Unit)) × Medium
  | memory c fault =>
    let (result, c) := Faulty.insertAll fault c documents
    (result, memory c fault)
  | file s failures =>
    let (result, s) := s.insertAll documents (failures.headD none)
    (result, file s failures.tail)

/-- Whether the medium is in order. -/
def healthy : Medium → Bool
  | memory _ fault => Faulty.healthy fault
  | file s _ => s.healthy

/-- The documents that are kept. -/
def documents : Medium → List Document
  | memory c _ => c.documents
  | file s _ => s.collection.documents

end Medium

namespace Host

/-- Answers one request. -/
def serve (r : Request) (host : Host) : r.Answer × Host :=
  match r with
  | .find q => (host.medium.find q, host)
  | .insert d =>
    let (result, medium) := host.medium.insert d
    (some result, { host with medium })
  | .insertIf d condition =>
    let (result, medium) := host.medium.insertIf d condition
    (some result, { host with medium })
  | .insertAll documents =>
    let (result, medium) := host.medium.insertAll documents
    (some result, { host with medium })
  | .health => (host.medium.healthy, host)
  | .now =>
    let (time, clock) := host.clock.read
    (time, { host with clock })
  | .lockKey key => match host.monitors.lock? key with
    | some monitors => (true, { host with monitors })
    | none => (false, host)
  | .unlockKey key => ((), { host with monitors := host.monitors.unlock key })
  | .lockTenant tenant => match host.tenants.lock? tenant with
    | some tenants => (true, { host with tenants })
    | none => (false, host)
  | .unlockTenant tenant => ((), { host with tenants := host.tenants.unlock tenant })
  | .record m => ((), { host with measured := m :: host.measured })

/-- Runs a call. -/
def call {α : Type} (c : Call α) (host : Host) : Except StoreError α × Host :=
  c.steps.run serve host

end Host

end ConfigLedger
