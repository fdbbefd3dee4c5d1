/-!
What an outbox counts about itself. Of durations only the number of samples is kept.
-/

namespace Outbox

inductive Sample where
  /-- A fetch returned `count` rows where `limit` were asked for. -/
  | fetched (count limit : Nat)
  | saved (processed retried : Nat)
  | tickFailed
  | itemHandled
  | batchHandled
  | processed
  | slept
  deriving DecidableEq, Repr

structure Metrics where
  outbox : String
  fetched : Nat := 0
  processed : Nat := 0
  retried : Nat := 0
  fullBatches : Nat := 0
  failedTicks : Nat := 0
  itemHandlers : Nat := 0
  batchHandlers : Nat := 0
  processes : Nat := 0
  sleeps : Nat := 0
  deriving DecidableEq, Repr

namespace Metrics

def record (m : Metrics) : Sample → Metrics
  | .fetched count limit =>
    { m with
      fetched := m.fetched + count
      fullBatches := if 0 < count ∧ limit ≤ count then m.fullBatches + 1 else m.fullBatches }
  | .saved processed retried =>
    { m with processed := m.processed + processed, retried := m.retried + retried }
  | .tickFailed => { m with failedTicks := m.failedTicks + 1 }
  | .itemHandled => { m with itemHandlers := m.itemHandlers + 1 }
  | .batchHandled => { m with batchHandlers := m.batchHandlers + 1 }
  | .processed => { m with processes := m.processes + 1 }
  | .slept => { m with sleeps := m.sleeps + 1 }

def recordAll (m : Metrics) (samples : List Sample) : Metrics := samples.foldl record m

/-- Every series with its count; all carry the name of the outbox. -/
def series (m : Metrics) : List (String × Nat) :=
  let label (name : String) := name ++ "\x7boutbox=" ++ m.outbox ++ "\x7d"
  let handler (kind : String) :=
    "outbox.handler.duration_seconds\x7boutbox=" ++ m.outbox ++ ",handler=" ++ kind ++ "\x7d"
  [(label "outbox.items.fetched", m.fetched), (label "outbox.items.processed", m.processed),
   (label "outbox.items.retried", m.retried), (label "outbox.batches.full", m.fullBatches),
   (label "outbox.ticks.failed", m.failedTicks), (handler "single", m.itemHandlers),
   (handler "batch", m.batchHandlers), (label "outbox.process.duration_seconds", m.processes),
   (label "outbox.sleep.duration_seconds", m.sleeps)]

end Metrics

end Outbox
