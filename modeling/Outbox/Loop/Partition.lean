import Outbox.Partition.Upkeep

/-!
The loop that looks after partitions: a cycle creates what is needed and then retires what is old,
and the next cycle comes one period later. Only cancellation and a misconfiguration end it. Times
are nanoseconds since the start.
-/

namespace Outbox

inductive PartitionLoop where
  | creating (settings : PartitionSettings) (work : Upkeep)
  | retiring (settings : PartitionSettings) (work : Upkeep)
  | resting (due : Nat)
  | ended

namespace PartitionLoop

def begin (s : PartitionSettings) (table : String) (now : Instant) : PartitionLoop :=
  .creating s (.create s table now)

def call? : PartitionLoop → Option StoreCall
  | .creating _ work | .retiring _ work => work.call?
  | .resting _ | .ended => none

def answer (table : String) (a : Except PartitionError Unit) : PartitionLoop → PartitionLoop
  | .creating s work => .creating s (work.next table a)
  | .retiring s work => .retiring s (work.next table a)
  | l => l

/-- After a cycle that ended at `time`: a misconfiguration will not go away, so the loop ends. -/
def afterCycle (s : PartitionSettings) (time : Nat) : Except OutboxError Nat → PartitionLoop
  | .ok _ => .resting (time + s.precreatePeriod.nanos)
  | .error e => if e.isMisconfiguration then .ended else .resting (time + s.precreatePeriod.nanos)

/-- Goes over from creating to retiring, and from retiring to rest, where the work is over. -/
def advance (table : String) (now : Instant) (time : Nat) : PartitionLoop → PartitionLoop
  | .creating s (.ended (.ok _)) => .retiring s (.retire s table now)
  | .creating s (.ended (.error e)) => afterCycle s time (.error e)
  | .retiring s (.ended result) => afterCycle s time result
  | l => l

def cycle {σ : Type} (table : String) (perform : σ → StoreCall → Except PartitionError Unit × σ)
    (s : PartitionSettings) (now : Instant) (time : Nat) (store : σ) : PartitionLoop × σ :=
  let (created, store) := (Upkeep.create s table now).run table perform store
  match created with
  | .error e => (afterCycle s time (.error e), store)
  | .ok _ =>
    let (retired, store) := (Upkeep.retire s table now).run table perform store
    (afterCycle s time retired, store)

def cancel : PartitionLoop → PartitionLoop := fun _ => .ended

end PartitionLoop

end Outbox
