import Outbox.Options
import Outbox.Json.Parser
import Outbox.Json.Record

/-!
Settings as JSON. Durations are whole milliseconds, and a field that is left out has its default.
-/

namespace Outbox

def Duration.json (d : Duration) : Json := .ofNat d.millis.toNat

namespace WorkerType

def json (w : WorkerType) : Json := .ofString w.name

def ofJson? : Json → Option WorkerType := Json.named? all name

end WorkerType

namespace DelayPolicy

def json (p : DelayPolicy) : Json := .ofString p.name

def ofJson? : Json → Option DelayPolicy := Json.named? all name

end DelayPolicy

namespace RetrySettings

def json (s : RetrySettings) : Json := .record
  [("is_enabled", .bool s.isEnabled), ("retry_delay", s.delay.json),
   ("retry_max_delay", s.maxDelay.json), ("delay_policy", s.policy.json),
   ("log_on_retry", .bool s.logOnRetry)]

def ofJson? (j : Json) : Option RetrySettings := do
  let f ← j.fields? ["is_enabled", "retry_delay", "retry_max_delay", "delay_policy", "log_on_retry"]
  let default : RetrySettings := {}
  let isEnabled ← f.orElse? "is_enabled" Json.bool? default.isEnabled
  let delay ← f.orElse? "retry_delay" Json.duration? default.delay
  let maxDelay ← f.orElse? "retry_max_delay" Json.duration? default.maxDelay
  let policy ← f.orElse? "delay_policy" DelayPolicy.ofJson? default.policy
  let logOnRetry ← f.orElse? "log_on_retry" Json.bool? default.logOnRetry
  some { isEnabled, delay, maxDelay, policy, logOnRetry }

end RetrySettings

namespace PartitionSettings

def json (s : PartitionSettings) : Json := .record
  [("enabled", .bool s.enabled), ("days_per_partition", .ofNat s.daysPerPartition.toNat),
   ("precreate_partition_count", .ofNat s.precreateCount.toNat),
   ("partition_retention_count", .ofNat s.retentionCount.toNat),
   ("precreate_partition_period", s.precreatePeriod.json)]

def ofJson? (j : Json) : Option PartitionSettings := do
  let f ← j.fields? ["enabled", "days_per_partition", "precreate_partition_count",
    "partition_retention_count", "precreate_partition_period"]
  let default : PartitionSettings := {}
  let enabled ← f.orElse? "enabled" Json.bool? default.enabled
  let daysPerPartition ← f.orElse? "days_per_partition" Json.uint32? default.daysPerPartition
  let precreateCount ← f.orElse? "precreate_partition_count" Json.uint32? default.precreateCount
  let retentionCount ← f.orElse? "partition_retention_count" Json.uint32? default.retentionCount
  let precreatePeriod ← f.orElse? "precreate_partition_period" Json.duration? default.precreatePeriod
  some { enabled, daysPerPartition, precreateCount, retentionCount, precreatePeriod }

end PartitionSettings

namespace Options

def json (o : Options) : Json := .record
  [("worker_type", o.workerType.json), ("outbox_items_limit", .ofNat o.itemsLimit.toNat),
   ("worker_delay", o.workerDelay.json), ("is_worker_enabled", .bool o.isWorkerEnabled),
   ("retry", o.retry.json), ("partitions", o.partitions.json)]

def ofJson? (j : Json) : Option Options := do
  let f ← j.fields? ["worker_type", "outbox_items_limit", "worker_delay", "is_worker_enabled",
    "retry", "partitions"]
  let default : Options := {}
  let workerType ← f.orElse? "worker_type" WorkerType.ofJson? default.workerType
  let itemsLimit ← f.orElse? "outbox_items_limit" Json.uint64? default.itemsLimit
  let workerDelay ← f.orElse? "worker_delay" Json.duration? default.workerDelay
  let isWorkerEnabled ← f.orElse? "is_worker_enabled" Json.bool? default.isWorkerEnabled
  let retry ← f.orElse? "retry" RetrySettings.ofJson? default.retry
  let partitions ← f.orElse? "partitions" PartitionSettings.ofJson? default.partitions
  some { workerType, itemsLimit, workerDelay, isWorkerEnabled, retry, partitions }

def ofText? (s : String) : Option Options := (Json.parse? s).bind ofJson?

def patched? (o : Options) (patch : Json) : Option Options := ofJson? (o.json.merge patch)

end Options

end Outbox
