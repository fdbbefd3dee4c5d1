import Outbox.Metrics
import Outbox.Options
import Outbox.Outcome

/-!
The loop that runs a worker again and again: it waits for its timer or for other options, and runs
one tick per firing if the worker is switched on. Times are nanoseconds since the start.
-/

namespace Outbox

/-- A timer that fires at `due` and then every `period`. -/
structure Timer where
  period : Nat
  due : Nat
  deriving DecidableEq, Repr

namespace Timer

/-- A timer fires no sooner than a millisecond after it was set. -/
def start (now : Nat) (delay : Duration) : Timer :=
  let period := max delay.nanos 1000000
  { period, due := now + period }

/-- The timer after it fired at `now`. It keeps its rhythm unless it is more than 5 ms late; then the
next firing is a full period away. -/
def fire (now : Nat) (t : Timer) : Timer :=
  { t with due := if t.due + 5000000 < now then now + t.period else t.due + t.period }

end Timer

inductive WorkerLoop.Stage where
  | waiting | ticking | ended
  deriving DecidableEq, Repr

structure WorkerLoop where
  delay : Duration
  timer : Timer
  stage : WorkerLoop.Stage := .waiting

namespace WorkerLoop

def start (now : Nat) (o : Options) : WorkerLoop :=
  { delay := o.workerDelay, timer := .start now o.workerDelay }

/-- Takes note of published options: another delay sets the timer anew, nothing else does. -/
def notice (now : Nat) (o : Options) (l : WorkerLoop) : WorkerLoop :=
  if o.workerDelay = l.delay then l
  else { l with delay := o.workerDelay, timer := .start now o.workerDelay }

/-- The timer fires: a tick begins if the worker is switched on. -/
def fire (now : Nat) (enabled : Bool) (l : WorkerLoop) : WorkerLoop × List Sample :=
  ({ l with timer := l.timer.fire now, stage := if enabled then .ticking else .waiting }, [.slept])

/-- The tick is over; a cancelled one ends the loop. -/
def finish (report : TickReport) (l : WorkerLoop) : WorkerLoop × List Sample :=
  ({ l with stage := if report.status = .cancelled then .ended else .waiting }, [.processed])

/-- Cancellation ends a loop that waits; a tick at work ends on its own account. -/
def cancel (l : WorkerLoop) : WorkerLoop :=
  match l.stage with
  | .waiting => { l with stage := .ended }
  | _ => l

end WorkerLoop

end Outbox
