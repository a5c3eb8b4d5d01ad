/-!
# Metrics

What the store reports about itself. A `Metric` is one of a fixed list of series
(`Metric.all`), each with a name, a kind and a description; a `Measurement` is one thing
that happened, to be counted in a series under labels.
-/

namespace ConfigLedger

/-- How a series adds up: counts, samples, or a level. -/
inductive MetricKind where
  | counter | gauge | histogram
deriving DecidableEq, Repr

/-- The name of a kind. -/
def MetricKind.name : MetricKind → String
  | counter => "Counter"
  | gauge => "Gauge"
  | histogram => "Histogram"

/-- The series. -/
inductive Metric where
  | requests | duration | writeConflicts | bulkSize | queryResults
  | tenantLockTimeouts | keyMonitors | decodeFailures
deriving DecidableEq, Repr

namespace Metric

/-- All series, in the order in which they are described. -/
def all : List Metric :=
  [requests, duration, writeConflicts, bulkSize, queryResults, tenantLockTimeouts, keyMonitors,
    decodeFailures]

/-- The name of a series. -/
def name : Metric → String
  | requests => "store.requests"
  | duration => "store.duration"
  | writeConflicts => "store.write.conflicts"
  | bulkSize => "store.bulk.size"
  | queryResults => "store.query.results"
  | tenantLockTimeouts => "guard.tenant_lock.timeouts"
  | keyMonitors => "guard.key_monitors"
  | decodeFailures => "object_store.decode_failures"

/-- The kind of a series. -/
def kind : Metric → MetricKind
  | requests | writeConflicts | tenantLockTimeouts | decodeFailures => .counter
  | duration | bulkSize | queryResults => .histogram
  | keyMonitors => .gauge

/-- What a series counts. -/
def description : Metric → String
  | requests => "Number of store operations, tagged by operation and outcome"
  | duration => "Time to complete a store operation in seconds"
  | writeConflicts =>
    "Number of writes rejected because the precondition or version check failed"
  | bulkSize => "Number of keys in a bulk write or bulk delete"
  | queryResults => "Number of live records matching a query before pagination"
  | tenantLockTimeouts => "Number of tenant lock acquisitions that timed out"
  | keyMonitors => "Number of per-key monitors currently cached"
  | decodeFailures => "Number of stored records that could not be decoded into objects"

end Metric

/-- The operations that are measured. -/
inductive Operation where
  | write | read | query | delete | bulkWrite | bulkDelete | readMany | count
deriving DecidableEq, Repr

/-- The label of an operation. -/
def Operation.label : Operation → String
  | write => "write"
  | read => "read"
  | query => "query"
  | delete => "delete"
  | bulkWrite => "bulk_write"
  | bulkDelete => "bulk_delete"
  | readMany => "read_many"
  | count => "count"

/-- One thing to be counted. -/
inductive Measurement where
  /-- An operation ended, with the code of its error or `ok`. -/
  | request (operation : Operation) (outcome : String)
  /-- An operation took some time. -/
  | duration (operation : Operation)
  /-- A write was refused. -/
  | writeConflict
  /-- A bulk operation was given so many keys. -/
  | bulkSize (operation : Operation) (size : Nat)
  /-- A query matched so many records. -/
  | queryResults (count : Nat)
  /-- A tenant's lock was not to be had in time. -/
  | tenantLockTimeout
  /-- A stored value could not be decoded. -/
  | decodeFailure
deriving DecidableEq, Repr

namespace Measurement

/-- The series that a measurement belongs to. -/
def metric : Measurement → Metric
  | request _ _ => .requests
  | duration _ => .duration
  | writeConflict => .writeConflicts
  | bulkSize _ _ => .bulkSize
  | queryResults _ => .queryResults
  | tenantLockTimeout => .tenantLockTimeouts
  | decodeFailure => .decodeFailures

/-- The labels of a measurement. -/
def labels : Measurement → List (String × String)
  | request operation outcome => [("operation", operation.label), ("outcome", outcome)]
  | duration operation => [("operation", operation.label)]
  | bulkSize operation _ => [("operation", operation.label)]
  | _ => []

/-- The size that a measurement samples, if it samples one. -/
def sample? : Measurement → Option Nat
  | bulkSize _ size => some size
  | queryResults count => some count
  | _ => none

end Measurement

end ConfigLedger
