import Outbox.Instant.Text
import Outbox.ItemId
import Outbox.Options

/-!
The ranges of a partitioned table: whole days of UTC, a fixed number of them wide, counted from
1970-01-01. All instants of a range have the same range, and each range ends where the next starts.
-/

namespace Outbox

/-- A partition and the ids it holds: from `low` on and below `high`. -/
structure PartitionRange where
  name : String
  low : ItemId
  high : ItemId
  deriving DecidableEq

/-- The table's name and the date on which the range starts. -/
def partitionName (table : String) (start : Instant) : String :=
  let d := start.date
  table ++ "_p" ++ .ofList (Instant.yearText d.year ++ Decimal.padded 2 d.month ++ Decimal.padded 2 d.day)

def PartitionRange.between (table : String) (start stop : Instant) : PartitionRange :=
  { name := partitionName table start, low := .rangeStart start, high := .rangeStart stop }

namespace PartitionSettings

def spanDays (s : PartitionSettings) : Nat := max s.daysPerPartition.toNat 1

/-- The first day of the range that contains `at`. -/
def rangeDay (s : PartitionSettings) (t : Instant) : Int :=
  let day := t.second / 86400
  day - day % s.spanDays

/-- A number of ranges one after another, if the calendar has all their bounds. -/
def consecutive (s : PartitionSettings) (table : String) (day : Int) : Nat → Option (List PartitionRange)
  | 0 => some []
  | n + 1 => do
    let start ← Instant.ofDay? day
    let stop ← Instant.ofDay? (day + s.spanDays)
    let rest ← s.consecutive table (day + s.spanDays) n
    some (.between table start stop :: rest)

/-- The ranges from the one that starts on `day`, as many as are created ahead. -/
def rangesFrom (s : PartitionSettings) (table : String) (day : Int) :
    Except OutboxError (List PartitionRange) :=
  let found :=
    if maxDaysPerPartition < s.daysPerPartition.toNat ∨ maxPartitionCount < s.precreateCount.toNat then
      none
    else (Instant.ofDay? day).bind fun _ => s.consecutive table day s.precreateCount.toNat
  match found with
  | some ranges => .ok ranges
  | none =>
    .error (.invalidConfiguration table "partition ranges fall outside the supported bounds")

/-- The ranges that should exist at `now`: the one that contains it and those that follow. -/
def ranges (s : PartitionSettings) (table : String) (now : Instant) :
    Except OutboxError (List PartitionRange) :=
  s.rangesFrom table (s.rangeDay now)

/-- The ranges that should be gone at `now`, the newest first: as many as are created ahead, before
the range that contains `now`, but for the newest of them that are kept. -/
def expiredRanges (s : PartitionSettings) (table : String) (now : Instant) :
    Except OutboxError (List PartitionRange) :=
  (s.rangesFrom table (s.rangeDay now - s.spanDays * s.precreateCount.toNat)).map fun ranges =>
    ranges.reverse.drop s.retentionCount.toNat

end PartitionSettings

end Outbox
