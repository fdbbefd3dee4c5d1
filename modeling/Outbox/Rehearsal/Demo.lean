import Outbox.Rehearsal.Schedule

/-!
A demonstration in virtual time: one outbox of numbered items, some of which fail once. Told are what
its handlers were given and what the outbox counted.
-/

namespace Outbox.Rehearsal

structure Demo where
  seconds : UInt64 := 5
  items : Nat := 20
  /-- Items whose number this divides fail once; with 0 none does. -/
  failEvery : Nat := 4
  options : Options := { workerDelay := .ofMillis 500, itemsLimit := 5 }

namespace Demo

def fails (d : Demo) (number : Nat) : Bool := d.failEvery ≠ 0 ∧ number % d.failEvery = 0

def row (d : Demo) (now : Instant) (number : Nat) : Row :=
  { id := .mint now number, payload := if d.fails number then "retry/ok" else "ok",
    priority := .ofNat (number % 3) }

def rows (d : Demo) (now : Instant) : List Row := (List.range d.items).map (d.row now)

/-- Whether the item fails that is handed over after those handed over before. -/
def failsNow (rows : List Row) (earlier : List ItemId) (id : ItemId) : Bool :=
  match rows.find? (·.id = id) with
  | some row => Word.ofPayload row.payload (earlier.count id) = .retry
  | none => false

/-- Attempts are counted where failures are written to the table. -/
def attempt (d : Demo) (earlier : List ItemId) (id : ItemId) : Nat :=
  if d.options.workerType.lock.supportsRetry ∧ d.options.retry.isEnabled then earlier.count id + 1 else 1

def line (d : Demo) (rows : List Row) (earlier : List ItemId) : Call → String
  | .item id =>
    let number := rows.findIdx (·.id = id)
    "item seq=" ++ Decimal.text number ++ " priority=" ++ Decimal.text (number % 3)
      ++ " attempt=" ++ Decimal.text (d.attempt earlier id)
      ++ " -> " ++ if failsNow rows earlier id then "Retry" else "Ok"
  | .batch ids =>
    "batch of " ++ Decimal.text ids.length ++ " items, "
      ++ Decimal.text (ids.countP (failsNow rows earlier)) ++ " failed"

def Call.ids : Call → List ItemId
  | .item id => [id]
  | .batch ids => ids

/-- A line for each call, in order. -/
def lines (d : Demo) (rows : List Row) (earlier : List ItemId) : List Call → List String
  | [] => []
  | call :: rest => d.line rows earlier call :: d.lines rows (Call.ids call ++ earlier) rest

def summary (m : Metrics) : List String :=
  let entries := m.series.map fun (name, n) => "  " ++ (Json.ofString name).text ++ ": " ++ Decimal.text n
  "\x7b" :: (entries.dropLast.map (· ++ ",") ++ entries.getLast?.toList) ++ ["\x7d"]

def run (d : Demo) (now : Instant) : Except OutboxError (List String) := do
  let plan : Plan := { outbox := "demo", options := d.options }
  let rows := d.rows now
  let lane ← Lane.build now plan none rows false
  let schedule := (Schedule.begin now false [lane]).step (.sleep (d.seconds * 1000)) |>.2
  let schedule := (schedule.step .shutdownAndJoin).2
  match schedule.lanes with
  | [lane] =>
    let calls := lane.bench.log.calls.reverse.map (·.2)
    let metrics := ((lane.bench.worker? lane.key).map (·.metrics)).getD { outbox := "demo" }
    return d.lines rows [] calls ++ summary metrics
  | _ => return []

end Demo

end Outbox.Rehearsal
