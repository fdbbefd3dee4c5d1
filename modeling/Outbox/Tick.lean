import Outbox.Metrics
import Outbox.Outcome
import Outbox.Retry
import Outbox.Table

/-!
One tick of a worker as a machine: it asks for a fetch, for its handler and for a save, and goes on
with the answers. A failed fetch or save ends it as failed and cancellation at any point before the
save ends it as cancelled; what was fetched is then rolled back by whoever holds the transaction.
-/

namespace Outbox

structure Decision where
  processed : List Row := []
  retried : List Row := []
  deriving DecidableEq

/-- The worker, the item type and the settings of a tick. -/
structure Job where
  worker : WorkerType
  features : Features
  options : Options
  /-- What is drawn for the retry of each item, if anything is. -/
  jitter : Option (ItemId → Fin RetrySettings.maxJitter) := none

namespace Job

def mode (job : Job) : Mode := ⟨job.worker.lock, job.options.partitions.enabled⟩

def limit (job : Job) : Nat := job.options.itemsLimit.toNat

def reschedule (job : Job) (now : Instant) (row : Row) : Reschedule :=
  Outbox.reschedule job.features job.options.retry (job.jitter.map (· row.id)) now row

end Job

/-- How the walk over a batch goes on after an item. -/
inductive Settled where
  | next (d : Decision)
  | stop (d : Decision)

namespace Decision

/-- Decides about one item from its verdict, if there is one. A strict worker stops at the first
item that did not succeed. A competing worker reschedules it and stops only if the item type cannot
be rescheduled; an item without a verdict it leaves alone. -/
def settle (job : Job) (now : Instant) (d : Decision) (row : Row) (verdict : Option Verdict) :
    Settled :=
  let done := { d with processed := d.processed ++ [row.modifyStatus job.features .markCompleted] }
  match job.worker.lock, verdict with
  | .noWait, none => .stop d
  | .noWait, some v => if v.isSuccess then .next done else .stop d
  | .skipLocked, none => .next d
  | .skipLocked, some v =>
    if v.isSuccess then .next done
    else match job.reschedule now row with
      | .scheduled row => .next { d with retried := d.retried ++ [row] }
      | .disabled => .next d
      | .unsupported => .stop d

/-- Decides about a batch in its order, up to the first stop. -/
def settleAll (job : Job) (now : Instant) (d : Decision) : List (Row × Option Verdict) → Decision
  | [] => d
  | (row, verdict) :: rest =>
    match d.settle job now row verdict with
    | .next d => settleAll job now d rest
    | .stop d => d

/-- The verdict on an item of a batch. A batch that failed as a whole gives a competing worker a
failure of every item and a strict worker no verdict at all. -/
def batchVerdict (job : Job) (outcome : Option BatchOutcome) (row : Row) : Option Verdict :=
  match outcome, job.worker.lock with
  | some b, _ => b.verdict? row.id
  | none, .skipLocked => some .retry
  | none, .noWait => none

end Decision

inductive Tick where
  | fetching
  /-- A handler has `current`; `rest` comes after it. -/
  | item (fetched : Nat) (decided : Decision) (current : Row) (rest : List Row)
  | batch (rows : List Row)
  | saving (fetched : Nat) (decided : Decision)
  | ended (report : TickReport)

inductive Request where
  | fetch (limit : Nat)
  | handleItem (row : Row)
  | handleBatch (rows : List Row)
  | save (completed : List ItemId) (retried : List Row)

/-- An answer to a request of a tick; a handler that failed answers `none`. -/
inductive Reply where
  | fetched (result : Except OutboxError (List Row))
  | verdict (v : Option Verdict)
  | outcome (b : Option BatchOutcome)
  | saved (result : Except OutboxError Unit)

namespace Tick

def request? (job : Job) : Tick → Option Request
  | .fetching => some (.fetch job.limit)
  | .item _ _ current _ => some (.handleItem current)
  | .batch rows => some (.handleBatch rows)
  | .saving _ d => some (.save (d.processed.map (·.id)) d.retried)
  | .ended _ => none

def afterItem (fetched : Nat) (rest : List Row) : Settled → Tick
  | .stop d => .saving fetched d
  | .next d =>
    match rest with
    | [] => .saving fetched d
    | row :: rest => .item fetched d row rest

def afterFetch (job : Job) (rows : List Row) : Tick :=
  match rows with
  | [] => .ended { status := .empty }
  | row :: rest =>
    match job.worker.handlerKind with
    | .item => .item rows.length {} row rest
    | .batch => .batch rows

def completed (fetched : Nat) (d : Decision) : TickReport :=
  { fetched := .ofNat fetched, processed := .ofNat d.processed.length,
    retried := .ofNat d.retried.length, status := .completed }

/-- Goes on with an answer. An answer that was not asked for changes nothing. -/
def next (job : Job) (now : Instant) : Tick → Reply → Tick
  | .fetching, .fetched (.ok rows) => afterFetch job rows
  | .fetching, .fetched (.error _) => .ended { status := .failed }
  | .item n d row rest, .verdict v => afterItem n rest (d.settle job now row (some (v.getD .retry)))
  | .batch rows, .outcome b =>
    .saving rows.length
      (Decision.settleAll job now {} (rows.map fun r => (r, Decision.batchVerdict job b r)))
  | .saving n d, .saved (.ok _) => .ended (completed n d)
  | .saving _ _, .saved (.error _) => .ended { status := .failed }
  | tick, _ => tick

def samples (job : Job) : Tick → Reply → List Sample
  | .fetching, .fetched (.ok rows) => [.fetched rows.length job.limit]
  | .fetching, .fetched (.error _) => [.tickFailed]
  | .item .., .verdict _ => [.itemHandled]
  | .batch _, .outcome _ => [.batchHandled]
  | .saving _ d, .saved (.ok _) => [.saved d.processed.length d.retried.length]
  | .saving _ _, .saved (.error _) => [.tickFailed]
  | _, _ => []

/-- Gives the tick up, unless it is over. -/
def cancel : Tick → Tick
  | .ended report => .ended report
  | _ => .ended { status := .cancelled }

def report? : Tick → Option TickReport
  | .ended report => some report
  | _ => none

def retried : Tick → List Row
  | .item _ d _ _ | .saving _ d => d.retried
  | _ => []

end Tick

end Outbox
