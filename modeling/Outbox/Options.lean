import Outbox.Error
import Outbox.Instant

/-!
The settings of an outbox and the limits they keep to.
-/

namespace Outbox

/-- What a fetch does about rows that another transaction holds. -/
inductive LockDiscipline where
  /-- Leaves them out. -/
  | skipLocked
  /-- Gives up the whole fetch. -/
  | noWait
  deriving DecidableEq, Repr

/-- Rows that were skipped cannot be put back in order, so only skipping allows rescheduling. -/
def LockDiscipline.supportsRetry : LockDiscipline → Bool
  | .skipLocked => true
  | .noWait => false

inductive WorkerType where
  | competing | strictOrdering | batchCompeting | batchStrictOrdering
  deriving DecidableEq, Repr

namespace WorkerType

def all : List WorkerType := [.competing, .strictOrdering, .batchCompeting, .batchStrictOrdering]

def name : WorkerType → String
  | .competing => "Competing"
  | .strictOrdering => "StrictOrdering"
  | .batchCompeting => "BatchCompeting"
  | .batchStrictOrdering => "BatchStrictOrdering"

def lock : WorkerType → LockDiscipline
  | .competing | .batchCompeting => .skipLocked
  | .strictOrdering | .batchStrictOrdering => .noWait

def handlerKind : WorkerType → HandlerKind
  | .competing | .strictOrdering => .item
  | .batchCompeting | .batchStrictOrdering => .batch

/-- Workers that reschedule failures need items that track status. -/
def requiresStatus (w : WorkerType) : Bool := w.lock = .skipLocked

/-- Names are compared without hyphens and underscores and without regard to the case of ASCII
letters; no other letter has one of theirs as its lower case. -/
def ofName? (s : String) : Option WorkerType :=
  let plain := (s.toList.filter fun c => c ≠ '-' ∧ c ≠ '_').map Char.toLower
  all.find? fun w => w.name.toList.map Char.toLower = plain

def unknownName (s : String) : String := "unknown worker type `" ++ s ++ "`"

end WorkerType

inductive DelayPolicy where
  | constant | linear | exponential
  deriving DecidableEq, Repr

namespace DelayPolicy

def all : List DelayPolicy := [.constant, .linear, .exponential]

def name : DelayPolicy → String
  | .constant => "Constant"
  | .linear => "Linear"
  | .exponential => "Exponential"

end DelayPolicy

structure RetrySettings where
  isEnabled : Bool := true
  delay : Duration := .ofMillis 3000
  maxDelay : Duration := .ofMillis 10000
  policy : DelayPolicy := .exponential
  logOnRetry : Bool := true
  deriving DecidableEq

structure PartitionSettings where
  enabled : Bool := false
  daysPerPartition : UInt32 := 1
  precreateCount : UInt32 := 7
  retentionCount : UInt32 := 3
  precreatePeriod : Duration := .ofMillis 1800000
  deriving DecidableEq

structure Options where
  workerType : WorkerType := .competing
  itemsLimit : UInt64 := 100
  workerDelay : Duration := .ofMillis 5000
  isWorkerEnabled : Bool := true
  retry : RetrySettings := {}
  partitions : PartitionSettings := {}
  deriving DecidableEq

def maxWorkerDelay : Duration := .ofMillis 3600000
def maxDaysPerPartition : Nat := 3650
def maxPartitionCount : Nat := 1000

inductive OptionsFault where
  | noItems | longDelay | noRetryMaxDelay | noDays | noPrecreation | noRetention | manyDays
  | manyPartitions | noPeriod
  deriving DecidableEq, Repr

def OptionsFault.message : OptionsFault → String
  | .noItems => "outbox_items_limit must be greater than zero"
  | .longDelay => "worker_delay must be at most one hour"
  | .noRetryMaxDelay => "retry.retry_max_delay must be greater than zero"
  | .noDays => "partitions.days_per_partition must be at least 1"
  | .noPrecreation => "partitions.precreate_partition_count must be at least 1"
  | .noRetention => "partitions.partition_retention_count must be at least 1"
  | .manyDays => "partitions.days_per_partition must be at most 3650"
  | .manyPartitions => "partition counts must be at most 1000"
  | .noPeriod => "partitions.precreate_partition_period must be greater than zero"

/-- The first setting outside its limits. Partition settings count only where they are in use. -/
def PartitionSettings.fault? (s : PartitionSettings) : Option OptionsFault :=
  if !s.enabled then none
  else if s.daysPerPartition = 0 then some .noDays
  else if s.precreateCount = 0 then some .noPrecreation
  else if s.retentionCount = 0 then some .noRetention
  else if maxDaysPerPartition < s.daysPerPartition.toNat then some .manyDays
  else if maxPartitionCount < s.precreateCount.toNat ∨ maxPartitionCount < s.retentionCount.toNat then
    some .manyPartitions
  else if s.precreatePeriod.isZero then some .noPeriod
  else none

namespace Options

def fault? (o : Options) : Option OptionsFault :=
  if o.itemsLimit = 0 then some .noItems
  else if maxWorkerDelay < o.workerDelay then some .longDelay
  else if o.retry.maxDelay.isZero then some .noRetryMaxDelay
  else o.partitions.fault?

def validate (o : Options) (outbox : String) : Except OutboxError Unit :=
  match o.fault? with
  | none => .ok ()
  | some fault => .error (.invalidConfiguration outbox fault.message)

end Options

end Outbox
