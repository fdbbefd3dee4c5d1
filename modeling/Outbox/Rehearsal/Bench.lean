import Outbox.Rehearsal.Word
import Outbox.Table.Session

/-!
What a rehearsal of ticks works on: one table with its clock, the workers on it and their metrics,
the faults still to come and a log of what handlers were given.
-/

namespace Outbox.Rehearsal

/-- What a unit of work does that can be made to fail. -/
inductive Operation where
  | fetch | save
  deriving DecidableEq, Repr

/-- An error that takes the place of the next such operation. -/
structure Fault where
  operation : Operation
  error : OutboxError
  deriving DecidableEq

inductive Call where
  | item (id : ItemId)
  | batch (ids : List ItemId)
  deriving DecidableEq

/-- Workers made directly and workers of built outboxes have names of their own. -/
inductive WorkerKey where
  | direct (name : String)
  | built (name : String)
  deriving DecidableEq, Repr

structure Worker where
  type : WorkerType
  metrics : Metrics
  /-- Batch handlers say that the whole batch went well. -/
  allProcessed : Bool := false

/-- What happened since the log was opened. -/
structure Log where
  /-- Each call with the nanoseconds gone by, the last one first. -/
  calls : List (Nat × Call) := []
  created : Nat := 0
  /-- Reports of ticks inside handlers, the last one first. -/
  nested : List (String × TickReport) := []
  retries : Nat := 0

structure Bench where
  features : Features
  now : Instant
  /-- Nanoseconds since the start. -/
  elapsed : Nat := 0
  table : Table := {}
  faults : List Fault := []
  /-- Every item that was handed over, once for each time. -/
  handed : List ItemId := []
  workers : List (WorkerKey × Worker) := []
  log : Log := {}

namespace Bench

def openLog (b : Bench) : Bench := { b with log := {} }

/-- The fault of an operation, if one is waiting for it. -/
def takeFault (operation : Operation) (b : Bench) : Option OutboxError × Bench :=
  match b.faults.find? (·.operation = operation) with
  | some fault => (some fault.error, { b with faults := b.faults.erase fault })
  | none => (none, b)

/-- The word of a row that is handed over now. -/
def hand (row : Row) (b : Bench) : Word × Bench :=
  (Word.ofPayload row.payload (b.handed.count row.id), { b with handed := row.id :: b.handed })

def worker? (key : WorkerKey) (b : Bench) : Option Worker := b.workers.lookup key

def setWorker (key : WorkerKey) (w : Worker) (b : Bench) : Bench :=
  { b with workers := (key, w) :: b.workers.filter (·.1 ≠ key) }

def record (key : WorkerKey) (samples : List Sample) (b : Bench) : Bench :=
  match b.worker? key with
  | some w => b.setWorker key { w with metrics := w.metrics.recordAll samples }
  | none => b

def call (c : Call) (b : Bench) : Bench :=
  { b with log := { b.log with calls := (b.elapsed, c) :: b.log.calls, created := b.log.created + 1 } }

def addNested (name : String) (report : TickReport) (b : Bench) : Bench :=
  { b with log := { b.log with nested := (name, report) :: b.log.nested } }

def insert (rows : List Row) (b : Bench) : Bench := { b with table := b.table.insert rows }

end Bench

end Outbox.Rehearsal
