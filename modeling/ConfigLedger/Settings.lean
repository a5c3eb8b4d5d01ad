import ConfigLedger.Backend.Disk
import ConfigLedger.Yaml.Datum

/-!
# Settings

Settings say where documents are kept (`BackendSettings`), how locks behave
(`GuardSettings`), how long an operation may take, and where metrics and failures are
reported. They are read from a settings file; all of them have defaults, and names that are
not known are skipped. Reading checks the form only; what makes no sense although it can be
read is found by `validate`, which reports the first such thing.

A part of the settings that is looked at as a whole before it is read, as the backend is for
its type, may also be written as the list of its values, and tags matter in it. The store
and its locks are read in place: there they have to be mappings, unless they are given as
JSON (`listed`), tags do not matter, and what is not known is not looked at.
-/

namespace ConfigLedger

/-- Where documents are kept. -/
inductive BackendSettings where
  | memory
  /-- In a file, packed with the given level if there is one. -/
  | filesystem (directory file : String) (level : Option Int)
deriving DecidableEq, Repr

/-- How locks behave; times are in seconds. -/
structure GuardSettings where
  monitorIdle : UInt64 := 600
  stripes : UInt64 := 1000
  lockTimeout : UInt64 := 5
deriving DecidableEq, Repr

/-- Settings of a store. -/
structure StoreSettings where
  backend : BackendSettings := .memory
  guard : GuardSettings := {}
  /-- In milliseconds, for operations without a deadline of their own. -/
  operationTimeout : UInt64 := 5000
deriving DecidableEq, Repr

/-- Where metrics are sent. -/
structure MetricsSettings where
  host : String
  port : UInt16
deriving DecidableEq, Repr

/-- All settings. -/
structure Settings where
  metrics : Option MetricsSettings := none
  /-- Where failures are reported; an empty text counts as none. -/
  reporting : Option String := none
  store : StoreSettings := {}
deriving DecidableEq, Repr

/-- What is wrong with settings of a store. -/
inductive StoreSettingsError where
  | noStripes
  | zeroTime (name : String)
  | emptyPath (name : String)
deriving DecidableEq, Repr

/-- Why settings cannot be used. -/
inductive SettingsError where
  | unreadable (reason : String)
  | malformed
  | invalidStore (e : StoreSettingsError)
  | invalidMetrics (reason : String)
deriving DecidableEq, Repr

/-- The message of an error. -/
def StoreSettingsError.message : StoreSettingsError → String
  | noStripes => "tenant_lock_stripes cannot be 0"
  | zeroTime name => name ++ " cannot be 0"
  | emptyPath name => "filesystem backend requires a non-empty " ++ name

/-- The message of an error. -/
def SettingsError.message : SettingsError → String
  | unreadable reason => "could not load config from file: " ++ reason
  | malformed => "could not parse config"
  | invalidStore e => "invalid store config: " ++ e.message
  | invalidMetrics reason => "invalid metrics config: " ++ reason

/-! ### Reading -/

open Yaml (Node Datum Graph Reader)

namespace BackendSettings

/-- The level that snapshots are packed with, if they are. -/
def level? : BackendSettings → Option Int
  | memory => none
  | filesystem _ _ level => level

/-- Reads the part of a backend in a file. -/
def filesystem? (datum : Datum) : Option BackendSettings := do
  match ← datum.record? ["base_dir", "filename", "compression_level"] with
  | [directory, file, level] =>
    some (filesystem (← Datum.required? Datum.string? directory)
      (← Datum.required? Datum.string? file)
      (← Datum.withDefault? (some 1) (Datum.orNull? (Datum.within? (-0x80000000) 0x7fffffff))
        level))
  | _ => none

/-- The backend of a type, given the rest of what is written about it. -/
def ofType? (type : String) (rest : Datum) : Option BackendSettings :=
  match type, rest with
  | "memory", .list (_ :: _) => none
  | "memory", _ => some memory
  | "filesystem", rest => filesystem? rest
  | _, _ => none

/-- The nesting that is left around what is written about a backend. -/
def depth : Nat :=
  125

/-- Reads an entry of a backend, which is the name of its type or something else. -/
def entry (key value : Node) : Reader (String ⊕ Datum × Datum) := do
  match ← Datum.ofNode depth key with
  | .text "type" => return .inl (← Reader.text value)
  | key => return .inr (key, ← Datum.ofNode depth value)

/-- Reads a backend: a mapping with its type among the entries, or a list that starts with its
type. -/
def ofNode (node : Node) : Reader BackendSettings := do
  match ← Reader.follow node with
  | .map label entries => do
    Datum.checkTag label
    let entries ← entries.mapM fun (key, value) => entry key value
    -- the type stands among the entries exactly once
    match entries.filterMap Sum.getLeft? with
    | [type] => ofType? type (.map (entries.filterMap Sum.getRight?))
    | _ => failure
  | .list label (type :: rest) => do
    Datum.checkTag label
    ofType? (← Reader.text type) (.list (← rest.mapM (Datum.ofNode depth)))
  | _ => failure

end BackendSettings

/-- Reads the settings of locks. -/
def GuardSettings.ofNode (listed : Bool) (node : Node) : Reader GuardSettings := do
  let base : GuardSettings := {}
  match ← Reader.fields listed
    ["monitor_idle_secs", "tenant_lock_stripes", "tenant_lock_timeout_secs"] node with
  | [monitorIdle, stripes, lockTimeout] =>
    return {
      monitorIdle := ← Reader.withDefault base.monitorIdle Reader.natural monitorIdle
      stripes := ← Reader.withDefault base.stripes Reader.natural stripes
      lockTimeout := ← Reader.withDefault base.lockTimeout Reader.natural lockTimeout }
  | _ => failure

/-- Reads the settings of a store. -/
def StoreSettings.ofNode (listed : Bool) (node : Node) : Reader StoreSettings := do
  let base : StoreSettings := {}
  match ← Reader.fields listed ["backend", "guard", "operation_timeout_ms"] node with
  | [backend, guard, operationTimeout] =>
    return {
      backend := ← Reader.withDefault base.backend BackendSettings.ofNode backend
      guard := ← Reader.withDefault base.guard (GuardSettings.ofNode listed) guard
      operationTimeout :=
        ← Reader.withDefault base.operationTimeout Reader.natural operationTimeout }
  | _ => failure

/-- Reads the settings of a store that are given as JSON. -/
def StoreSettings.ofTree? (tree : Tree) : Option StoreSettings :=
  (Node.ofTree? tree).bind fun root => (Graph.ofNode root).read? (StoreSettings.ofNode true)

/-- Reads where metrics are sent. -/
def MetricsSettings.ofDatum? (datum : Datum) : Option MetricsSettings := do
  match ← datum.record? ["statsd_host", "statsd_port"] with
  | [host, port] =>
    let port ← Datum.required? (Datum.within? 0 0xffff) port
    some ⟨← Datum.required? Datum.string? host, UInt16.ofNat port.toNat⟩
  | _ => none

/-- Reads where failures are reported. In a list the place must be given, in a mapping it may be
missing. -/
def Settings.reporting? : Datum → Option (Option String)
  | .list [] => none
  | datum => do
    match ← datum.record? ["sentry_dsn"] with
    | [target] => Datum.withDefault? none (Datum.orNull? Datum.string?) target
    | _ => none

namespace Settings

/-- The nesting that is left around the entries of all settings. -/
def depth : Nat :=
  127

/-- Reads all settings. What stands beside the store is looked at as a whole, also where its name is
not known. -/
def ofNode (node : Node) : Reader Settings := do
  let entries ← Reader.entries node
  -- what stands beside the store must be readable, whatever its name is
  let beside ← (entries.filter (·.1 != "store")).mapM fun (name, value) => do
    return (name, ← Datum.ofNode depth value)
  match ← Reader.pick? ["store"] entries, ← Reader.pick? ["metrics", "logging"] beside with
  | [store], [metrics, logging] =>
    return {
      metrics := ← Datum.withDefault? none (Datum.orNull? MetricsSettings.ofDatum?) metrics
      reporting := (← Datum.withDefault? none (Datum.orNull? reporting?) logging).join
      store := ← Reader.withDefault {} (StoreSettings.ofNode false) store }
  | _, _ => failure

/-- The settings in a file, given what the file holds if it exists. -/
def load (file : Option String) : Except SettingsError Settings :=
  match file with
  | none => .error (.unreadable PathError.missing.message)
  | some text => match (Graph.ofText? text).bind (Graph.read? ofNode) with
    | some settings => .ok settings
    | none => .error .malformed

end Settings

/-! ### Validation -/

/-- Finds the first thing that makes no sense. -/
def StoreSettings.validate (s : StoreSettings) : Except StoreSettingsError Unit := do
  if let .filesystem directory file _ := s.backend then
    if directory.isEmpty then throw (.emptyPath "base_dir")
    if file.isEmpty then throw (.emptyPath "filename")
  if s.guard.stripes = 0 then throw .noStripes
  if s.guard.monitorIdle = 0 then throw (.zeroTime "monitor_idle_secs")
  if s.guard.lockTimeout = 0 then throw (.zeroTime "tenant_lock_timeout_secs")
  if s.operationTimeout = 0 then throw (.zeroTime "operation_timeout_ms")

namespace Settings

/-- Finds the first thing that makes no sense. -/
def validate (s : Settings) : Except SettingsError Unit := do
  if let some metrics := s.metrics then
    if metrics.host.isEmpty then throw (.invalidMetrics "statsd_host is empty")
    if metrics.port = 0 then throw (.invalidMetrics "statsd_port cannot be 0")
  s.store.validate.mapError .invalidStore

/-- The settings in a file, if they make sense. -/
def loadValid (file : Option String) : Except SettingsError Settings := do
  let settings ← load file
  settings.validate
  return settings

/-- Where failures are reported, if they are. -/
def reportingTarget (s : Settings) : Option String :=
  s.reporting.filter fun target => !target.isEmpty

end Settings

end ConfigLedger
