import Outbox.Options.Json
import Outbox.Proofs.JsonEdits

/-!
Settings and their JSON. A reader of settings looks for its fields one by one (`Given`), so it reads back
what is written, and an edit changes what it reads by the defaults of removed fields only
(`readsFields`).
-/

namespace Outbox

open Json

/-- The value of a field that may be left out, from what is found under its name. -/
def valueOr {α : Type} (found : Option Json) (read? : Json → Option α) (left : α) : Option α :=
  match found with
  | some j => read? j
  | none => some left

theorem valueOr_removed {α : Type} {find : String → Option Json} {read? : Json → Option α} {left a : α}
    {name : String} (held : valueOr (find name) read? left = some a) (k : String) :
    valueOr (Function.update find k none name) read? left = some (if name = k then left else a) := by
  by_cases same : name = k
  · rw [same, Function.update_self, if_pos rfl]
    rfl
  · rw [Function.update_of_ne same, if_neg same, held]

/-- Another value under one name leaves what is found under the others. -/
theorem valueOr_replaced {α : Type} {find : String → Option Json} {read? : Json → Option α} {left a : α}
    {name k : String} (held : valueOr (find name) read? left = some a) (other : name ≠ k)
    (found : Option Json) : valueOr (Function.update find k found name) read? left = some a := by
  rw [Function.update_of_ne other, held]

/-- What holds of the default and of everything that is read holds of the value of the field. -/
theorem of_valueOr {α : Type} {P : α → Prop} {found : Option Json} {read? : Json → Option α} {left a : α}
    (held : valueOr found read? left = some a) (default : P left) (read : ∀ {j a}, read? j = some a → P a) :
    P a := by
  cases found with
  | none => cases held; exact default
  | some j => exact read held

theorem Duration.duration?_json {d : Duration} (whole : d.InMillis) : d.json.duration? = some d := by
  obtain ⟨ms, rfl⟩ := whole
  rw [Duration.json, duration?, uint64?_ofNat, Duration.millis_ofMillis]
  rfl

theorem WorkerType.ofJson?_json (w : WorkerType) : ofJson? w.json = some w :=
  named?_ofString (by cases w <;> decide) (by decide)

theorem DelayPolicy.ofJson?_json (p : DelayPolicy) : ofJson? p.json = some p :=
  named?_ofString (by cases p <;> decide) (by decide)

/-! ### Retry settings -/

namespace RetrySettings

def fieldNames : List String := ["is_enabled", "retry_delay", "retry_max_delay", "delay_policy", "log_on_retry"]

def InMillis (s : RetrySettings) : Prop := s.delay.InMillis ∧ s.maxDelay.InMillis

def reset (name : String) (s : RetrySettings) : RetrySettings :=
  let default : RetrySettings := {}
  { isEnabled := if "is_enabled" = name then default.isEnabled else s.isEnabled
    delay := if "retry_delay" = name then default.delay else s.delay
    maxDelay := if "retry_max_delay" = name then default.maxDelay else s.maxDelay
    policy := if "delay_policy" = name then default.policy else s.policy
    logOnRetry := if "log_on_retry" = name then default.logOnRetry else s.logOnRetry }

def Edits : Json → Json → (RetrySettings → RetrySettings) → Prop := Json.Edits fieldNames reset Flat

/-- The settings are what is found under the names of their fields. -/
structure Given (find : String → Option Json) (s : RetrySettings) : Prop where
  isEnabled : valueOr (find "is_enabled") Json.bool? ({} : RetrySettings).isEnabled = some s.isEnabled
  delay : valueOr (find "retry_delay") Json.duration? ({} : RetrySettings).delay = some s.delay
  maxDelay : valueOr (find "retry_max_delay") Json.duration? ({} : RetrySettings).maxDelay = some s.maxDelay
  policy : valueOr (find "delay_policy") DelayPolicy.ofJson? ({} : RetrySettings).policy = some s.policy
  logOnRetry : valueOr (find "log_on_retry") Json.bool? ({} : RetrySettings).logOnRetry = some s.logOnRetry

theorem ofJson?_eq_some {j : Json} {s : RetrySettings} :
    ofJson? j = some s ↔ ∃ f, j.fields? fieldNames = some f ∧ Given f.find? s := by
  simp only [ofJson?, Option.bind_eq_bind, Option.bind_eq_some_iff, Option.some.injEq]
  constructor
  · rintro ⟨f, fields, _, isEnabled, _, delay, _, maxDelay, _, policy, _, logOnRetry, rfl⟩
    exact ⟨f, fields, isEnabled, delay, maxDelay, policy, logOnRetry⟩
  · rintro ⟨f, fields, given⟩
    exact ⟨f, fields, _, given.isEnabled, _, given.delay, _, given.maxDelay, _, given.policy, _,
      given.logOnRetry, rfl⟩

theorem readsFields : ReadsFields fieldNames ofJson? reset Flat Given where
  distinct := by decide
  named := nofun
  read_iff := ofJson?_eq_some
  removed k given :=
    { isEnabled := valueOr_removed given.isEnabled k
      delay := valueOr_removed given.delay k
      maxDelay := valueOr_removed given.maxDelay k
      policy := valueOr_removed given.policy k
      logOnRetry := valueOr_removed given.logOnRetry k }
  inside := nofun

theorem ofJson?_json {s : RetrySettings} (whole : s.InMillis) : ofJson? s.json = some s := by
  refine ofJson?_eq_some.mpr ⟨_, fields?_record (by decide) rfl, ?_⟩
  constructor <;> simp [Fields.find?, List.lookup_cons, valueOr, Duration.duration?_json whole.1,
    Duration.duration?_json whole.2, DelayPolicy.ofJson?_json]

theorem inMillis_of_read {j : Json} {s : RetrySettings} (read : ofJson? j = some s) : s.InMillis := by
  obtain ⟨f, -, given⟩ := ofJson?_eq_some.mp read
  exact ⟨of_valueOr given.delay ⟨_, rfl⟩ duration?_inMillis,
    of_valueOr given.maxDelay ⟨_, rfl⟩ duration?_inMillis⟩

theorem written_json (s : RetrySettings) : Written s.json := by
  refine .record fun e member => ?_
  simp only [List.mem_cons, List.not_mem_nil, or_false] at member
  rcases member with rfl | rfl | rfl | rfl | rfl
  · exact .bool _
  · exact .nat _
  · exact .nat _
  · exact .string _
  · exact .bool _

end RetrySettings

/-! ### Partition settings -/

namespace PartitionSettings

def fieldNames : List String :=
  ["enabled", "days_per_partition", "precreate_partition_count", "partition_retention_count",
    "precreate_partition_period"]

def InMillis (s : PartitionSettings) : Prop := s.precreatePeriod.InMillis

def reset (name : String) (s : PartitionSettings) : PartitionSettings :=
  let default : PartitionSettings := {}
  { enabled := if "enabled" = name then default.enabled else s.enabled
    daysPerPartition := if "days_per_partition" = name then default.daysPerPartition else s.daysPerPartition
    precreateCount :=
      if "precreate_partition_count" = name then default.precreateCount else s.precreateCount
    retentionCount :=
      if "partition_retention_count" = name then default.retentionCount else s.retentionCount
    precreatePeriod :=
      if "precreate_partition_period" = name then default.precreatePeriod else s.precreatePeriod }

def Edits : Json → Json → (PartitionSettings → PartitionSettings) → Prop := Json.Edits fieldNames reset Flat

structure Given (find : String → Option Json) (s : PartitionSettings) : Prop where
  enabled : valueOr (find "enabled") Json.bool? ({} : PartitionSettings).enabled = some s.enabled
  daysPerPartition : valueOr (find "days_per_partition") Json.uint32?
    ({} : PartitionSettings).daysPerPartition = some s.daysPerPartition
  precreateCount : valueOr (find "precreate_partition_count") Json.uint32?
    ({} : PartitionSettings).precreateCount = some s.precreateCount
  retentionCount : valueOr (find "partition_retention_count") Json.uint32?
    ({} : PartitionSettings).retentionCount = some s.retentionCount
  precreatePeriod : valueOr (find "precreate_partition_period") Json.duration?
    ({} : PartitionSettings).precreatePeriod = some s.precreatePeriod

theorem ofJson?_eq_some {j : Json} {s : PartitionSettings} :
    ofJson? j = some s ↔ ∃ f, j.fields? fieldNames = some f ∧ Given f.find? s := by
  simp only [ofJson?, Option.bind_eq_bind, Option.bind_eq_some_iff, Option.some.injEq]
  constructor
  · rintro ⟨f, fields, _, enabled, _, days, _, precreate, _, retention, _, period, rfl⟩
    exact ⟨f, fields, enabled, days, precreate, retention, period⟩
  · rintro ⟨f, fields, given⟩
    exact ⟨f, fields, _, given.enabled, _, given.daysPerPartition, _, given.precreateCount, _,
      given.retentionCount, _, given.precreatePeriod, rfl⟩

theorem readsFields : ReadsFields fieldNames ofJson? reset Flat Given where
  distinct := by decide
  named := nofun
  read_iff := ofJson?_eq_some
  removed k given :=
    { enabled := valueOr_removed given.enabled k
      daysPerPartition := valueOr_removed given.daysPerPartition k
      precreateCount := valueOr_removed given.precreateCount k
      retentionCount := valueOr_removed given.retentionCount k
      precreatePeriod := valueOr_removed given.precreatePeriod k }
  inside := nofun

theorem ofJson?_json {s : PartitionSettings} (whole : s.InMillis) : ofJson? s.json = some s := by
  refine ofJson?_eq_some.mpr ⟨_, fields?_record (by decide) rfl, ?_⟩
  constructor <;> simp [Fields.find?, List.lookup_cons, valueOr, Duration.duration?_json whole]

theorem inMillis_of_read {j : Json} {s : PartitionSettings} (read : ofJson? j = some s) : s.InMillis := by
  obtain ⟨f, -, given⟩ := ofJson?_eq_some.mp read
  unfold InMillis
  exact of_valueOr given.precreatePeriod ⟨_, rfl⟩ duration?_inMillis

theorem written_json (s : PartitionSettings) : Written s.json := by
  refine .record fun e member => ?_
  simp only [List.mem_cons, List.not_mem_nil, or_false] at member
  rcases member with rfl | rfl | rfl | rfl | rfl
  · exact .bool _
  · exact .nat _
  · exact .nat _
  · exact .nat _
  · exact .nat _

end PartitionSettings

/-! ### Options -/

namespace Options

def fieldNames : List String :=
  ["worker_type", "outbox_items_limit", "worker_delay", "is_worker_enabled", "retry", "partitions"]

def InMillis (o : Options) : Prop :=
  o.workerDelay.InMillis ∧ o.retry.InMillis ∧ o.partitions.InMillis

def reset (name : String) (o : Options) : Options :=
  let default : Options := {}
  { workerType := if "worker_type" = name then default.workerType else o.workerType
    itemsLimit := if "outbox_items_limit" = name then default.itemsLimit else o.itemsLimit
    workerDelay := if "worker_delay" = name then default.workerDelay else o.workerDelay
    isWorkerEnabled := if "is_worker_enabled" = name then default.isWorkerEnabled else o.isWorkerEnabled
    retry := if "retry" = name then default.retry else o.retry
    partitions := if "partitions" = name then default.partitions else o.partitions }

/-- Edits of the settings that stand in the options. -/
inductive Within : String → Json → Json → (Options → Options) → Prop
  | retry {x y : Json} {g : RetrySettings → RetrySettings}
    (edits : RetrySettings.Edits x y g) :
    Within "retry" x y fun o => { o with retry := g o.retry }
  | partitions {x y : Json} {g : PartitionSettings → PartitionSettings}
    (edits : PartitionSettings.Edits x y g) :
    Within "partitions" x y fun o => { o with partitions := g o.partitions }

def Edits : Json → Json → (Options → Options) → Prop := Json.Edits fieldNames reset Within

structure Given (find : String → Option Json) (o : Options) : Prop where
  workerType : valueOr (find "worker_type") WorkerType.ofJson? ({} : Options).workerType = some o.workerType
  itemsLimit : valueOr (find "outbox_items_limit") Json.uint64? ({} : Options).itemsLimit = some o.itemsLimit
  workerDelay : valueOr (find "worker_delay") Json.duration? ({} : Options).workerDelay = some o.workerDelay
  isWorkerEnabled : valueOr (find "is_worker_enabled") Json.bool? ({} : Options).isWorkerEnabled =
    some o.isWorkerEnabled
  retry : valueOr (find "retry") RetrySettings.ofJson? ({} : Options).retry = some o.retry
  partitions : valueOr (find "partitions") PartitionSettings.ofJson? ({} : Options).partitions =
    some o.partitions

theorem ofJson?_eq_some {j : Json} {o : Options} :
    ofJson? j = some o ↔ ∃ f, j.fields? fieldNames = some f ∧ Given f.find? o := by
  simp only [ofJson?, Option.bind_eq_bind, Option.bind_eq_some_iff, Option.some.injEq]
  constructor
  · rintro ⟨f, fields, _, type, _, limit, _, delay, _, enabled, _, retry, _, partitions, rfl⟩
    exact ⟨f, fields, type, limit, delay, enabled, retry, partitions⟩
  · rintro ⟨f, fields, given⟩
    exact ⟨f, fields, _, given.workerType, _, given.itemsLimit, _, given.workerDelay, _,
      given.isWorkerEnabled, _, given.retry, _, given.partitions, rfl⟩

theorem readsFields : ReadsFields fieldNames ofJson? reset Within Given where
  distinct := by decide
  named inside := by cases inside <;> decide
  read_iff := ofJson?_eq_some
  removed k given :=
    { workerType := valueOr_removed given.workerType k
      itemsLimit := valueOr_removed given.itemsLimit k
      workerDelay := valueOr_removed given.workerDelay k
      isWorkerEnabled := valueOr_removed given.isWorkerEnabled k
      retry := valueOr_removed given.retry k
      partitions := valueOr_removed given.partitions k }
  inside inside held given := by
    cases inside with
    | retry edits =>
      have read := given.retry
      rw [held] at read
      exact
        { workerType := valueOr_replaced given.workerType (by decide) _
          itemsLimit := valueOr_replaced given.itemsLimit (by decide) _
          workerDelay := valueOr_replaced given.workerDelay (by decide) _
          isWorkerEnabled := valueOr_replaced given.isWorkerEnabled (by decide) _
          retry := by
            rw [Function.update_self]
            exact Json.Edits.read RetrySettings.readsFields edits read
          partitions := valueOr_replaced given.partitions (by decide) _ }
    | partitions edits =>
      have read := given.partitions
      rw [held] at read
      exact
        { workerType := valueOr_replaced given.workerType (by decide) _
          itemsLimit := valueOr_replaced given.itemsLimit (by decide) _
          workerDelay := valueOr_replaced given.workerDelay (by decide) _
          isWorkerEnabled := valueOr_replaced given.isWorkerEnabled (by decide) _
          retry := valueOr_replaced given.retry (by decide) _
          partitions := by
            rw [Function.update_self]
            exact Json.Edits.read PartitionSettings.readsFields edits read }

theorem ofJson?_json {o : Options} (whole : o.InMillis) : ofJson? o.json = some o := by
  obtain ⟨delay, retry, partitions⟩ := whole
  refine ofJson?_eq_some.mpr ⟨_, fields?_record (by decide) rfl, ?_⟩
  constructor <;> simp [Fields.find?, List.lookup_cons, valueOr, Duration.duration?_json delay,
    WorkerType.ofJson?_json, RetrySettings.ofJson?_json retry, PartitionSettings.ofJson?_json partitions]

theorem inMillis_of_read {j : Json} {o : Options} (read : ofJson? j = some o) : o.InMillis := by
  obtain ⟨f, -, given⟩ := ofJson?_eq_some.mp read
  exact ⟨of_valueOr given.workerDelay ⟨_, rfl⟩ duration?_inMillis,
    of_valueOr given.retry ⟨⟨_, rfl⟩, ⟨_, rfl⟩⟩ RetrySettings.inMillis_of_read,
    of_valueOr given.partitions ⟨_, rfl⟩ PartitionSettings.inMillis_of_read⟩

theorem written_json (o : Options) : Written o.json := by
  refine .record fun e member => ?_
  simp only [List.mem_cons, List.not_mem_nil, or_false] at member
  rcases member with rfl | rfl | rfl | rfl | rfl | rfl
  · exact .string _
  · exact .nat _
  · exact .nat _
  · exact .bool _
  · exact o.retry.written_json
  · exact o.partitions.written_json

end Options

end Outbox
