import Outbox.Loop.Partition
import Outbox.Loop.Worker
import Outbox.Rehearsal.Run
import Outbox.Rehearsal.Upkeep

/-!
A rehearsal of the loops of several outboxes in virtual time. Time stands still while something can
be done and then goes on to the next thing that is due; one token stops every loop. A loop that finds
several things ready takes any of them, and what is done from outside may come before, between or after
the things that are due at its time: these choices are the lane's own. Times are nanoseconds since the
start.
-/

namespace Outbox.Rehearsal

/-- The first of the entries with the least time. -/
def earliest {α : Type} : List (Nat × α) → Option (Nat × α)
  | [] => none
  | e :: rest =>
    match earliest rest with
    | some best => some (if best.1 < e.1 then best else e)
    | none => some e

/-- A tick that was put aside until `due`. -/
structure Waiting where
  due : Nat
  left : Remainder
  play : Play

/-- Ticks of loops have no other worker to run inside their handlers. -/
def loopSetting : Setting := { nest := fun _ _ b => (false, b), pauses := true }

/-- What is done where several things are ready. -/
inductive Choice where
  /-- The one at a place is taken, or the first if there are not so many. -/
  | take (place : Nat)
  /-- The outside has its turn first, if it is to have one at this time. -/
  | wait

structure Lane where
  bench : Bench
  handling : Handling := .scripted loopSetting
  /-- What is drawn for the retries of a tick that begins at a time. -/
  draws : Nat → Option (ItemId → Fin RetrySettings.maxJitter) := fun _ => none
  /-- What is done at one choice after another. -/
  choices : Nat → Choice := fun _ => .take 0
  made : Nat := 0
  /-- Whether nothing is done before the outside has had its turn. -/
  held : Bool := false
  /-- Whether the token is cancelled. -/
  cancelled : Bool := false
  options : LiveOptions
  /-- The version of the options that the worker loop has taken note of. -/
  seen : Nat := 0
  worker : WorkerLoop
  waiting : Option Waiting := none
  /-- The loop that looks after partitions, if there is one. -/
  partitions : Option PartitionLoop := none
  store : Option Store := none

inductive Event where
  | maintain | notice | fire | resume
  /-- The loop that looks after partitions finds the token cancelled. -/
  | close
  /-- The worker loop, or its tick, finds the token cancelled. -/
  | stop
  | wait
  deriving DecidableEq, Repr

/-- What came of an event. -/
structure Done where
  report : Option TickReport := none
  /-- Whether the token was cancelled in it, and not before. -/
  cancelled : Bool := false

namespace Lane

def key (l : Lane) : WorkerKey := .built l.options.outbox

/-- An outbox about to start, or why it cannot be built. -/
def ofPlan (features : Features) (now : Instant) (plan : Plan) (catalogue : Option Catalogue)
    (rows : List Row) (allProcessed : Bool) : Except OutboxError Lane := do
  let type := plan.options.workerType
  let registration ← { plan with
    hasRepository := true, handler := some type.handlerKind, hasStore := catalogue.isSome }.build features
  let bench : Bench := { features, now, table := Table.insert rows {} }
  let worker : Worker := { type, metrics := { outbox := plan.outbox }, allProcessed }
  return {
    bench := bench.setWorker (.built plan.outbox) worker
    options := registration.options
    worker := .start 0 plan.options
    partitions := if registration.managed then some (.resting 0) else none
    store := catalogue.map fun catalogue => { catalogue } }

/-- An outbox of items that keep track of status and priority. -/
def build : Instant → Plan → Option Catalogue → List Row → Bool → Except OutboxError Lane :=
  ofPlan { status := true, priority := true }

/-- What the worker loop can do next and when. A tick heeds the token before anything else. -/
def workerEvents (l : Lane) : List (Nat × Event) :=
  match l.worker.stage, l.waiting with
  | .waiting, _ =>
    (if l.cancelled then [(0, .stop)] else [])
      ++ (if l.seen ≠ l.options.version then [(0, .notice)] else []) ++ [(l.worker.timer.due, .fire)]
  | .ticking, some w => if l.cancelled then [(0, .stop)] else [(w.due, .resume)]
  | _, _ => []

def upkeepEvents (l : Lane) : List (Nat × Event) :=
  match l.partitions with
  | some (.resting due) => (if l.cancelled then [(0, .close)] else []) ++ [(due, .maintain)]
  | _ => []

def events (l : Lane) : List (Nat × Event) := l.upkeepEvents ++ l.workerEvents

/-- The same from a time on: what is late is made up for now. -/
def pending (elapsed : Nat) (l : Lane) : List (Nat × Event) :=
  l.events.map fun (due, event) => (max due elapsed, event)

/-- What is chosen at `time` of the things that are ready then. The outside has its turn at `target`. -/
def choose (target time : Nat) (first : Event) (l : Lane) : Event :=
  match l.choices l.made with
  | .take place => ((l.events.filter (·.1 ≤ time)).map (·.2))[place]?.getD first
  | .wait => if time = target then .wait else first

/-- What comes next and when, up to the time at which the outside has its turn. -/
def next? (target elapsed : Nat) (l : Lane) : Option (Nat × Event) :=
  if l.held then none
  else ((earliest (l.pending elapsed)).filter (·.1 ≤ target)).map fun (time, first) =>
    (time, l.choose target time first)

def record (samples : List Sample) (l : Lane) : Lane := { l with bench := l.bench.record l.key samples }

/-- The lane after a tick went as far as it could. A wait takes a millisecond at least. -/
def afterTick (time : Nat) (played : Played) (l : Lane) : Lane × Done :=
  match played with
  | .ended report cancelled =>
    let (worker, samples) := l.worker.finish report
    ({ l with worker, waiting := none }.record samples, { report, cancelled := cancelled && !l.cancelled })
  | .paused ms left play =>
    ({ l with waiting := some { due := time + max ms.toNat 1 * 1000000, left, play } }, {})
  | .swept => (l, {})

def maintain (time : Nat) (now : Instant) (l : Lane) : Lane :=
  match l.store with
  | none => l
  | some store =>
    let (loop, store) := PartitionLoop.cycle store.catalogue.table Store.perform
      l.options.current.partitions now time store
    { l with partitions := some loop, store := some store }

def notice (time : Nat) (l : Lane) : Lane :=
  { l with worker := l.worker.notice time l.options.current, seen := l.options.version }

def ring (time : Nat) (l : Lane) : Lane :=
  let (worker, samples) := l.worker.fire time l.options.current.isWorkerEnabled
  { l with worker }.record samples

/-- The timer fires and a tick begins if the worker is switched on. -/
def fire (time : Nat) (l : Lane) : Lane × Done :=
  let l := l.ring time
  match l.worker.stage, l.bench.worker? l.key with
  | .ticking, some w =>
    let play := w.play l.bench.features l.key l.options.current l.cancelled false (l.draws time)
    let (played, bench) := Played.start l.handling play l.bench
    { l with bench }.afterTick time played
  | _, _ => (l, {})

def resume (time : Nat) (l : Lane) : Lane × Done :=
  match l.waiting with
  | some w =>
    let (played, bench) := Played.resume l.handling w.left w.play l.bench
    { l with bench }.afterTick time played
  | none => (l, {})

/-- The token is cancelled: the loop ends, and so does a tick that was put aside. -/
def stop (l : Lane) : Lane × Done :=
  match l.waiting with
  | some w =>
    let report : TickReport := { status := .cancelled }
    let (_, bench) := w.play.act .cancel l.bench
    let (worker, samples) := l.worker.finish report
    ({ l with bench, worker, waiting := none }.record samples, { report })
  | none => ({ l with worker := l.worker.cancel }, {})

def close (l : Lane) : Lane := { l with partitions := l.partitions.map PartitionLoop.cancel }

def hold (l : Lane) : Lane := { l with held := true }

def enter (time : Nat) (now : Instant) (l : Lane) : Lane :=
  { l with bench := { l.bench with now, elapsed := time }, made := l.made + 1 }

def perform (time : Nat) (now : Instant) (event : Event) (l : Lane) : Lane × Done :=
  let l := l.enter time now
  match event with
  | .maintain => (l.maintain time now, {})
  | .notice => (l.notice time, {})
  | .fire => l.fire time
  | .resume => l.resume time
  | .close => (l.close, {})
  | .stop => l.stop
  | .wait => (l.hold, {})

/-- The outside has had its turn. -/
def release (l : Lane) : Lane := { l with held := false }

def cancel (l : Lane) : Lane := { l with cancelled := true, held := false }

def update (o : Options) (l : Lane) : Except Refusal Unit × Lane :=
  match l.options.update o with
  | .error e => (.error (.error e), l)
  | .ok options => (.ok (), { l with options })

/-- Publishes the options with a patch laid over them. -/
def modify (patch : Json) (l : Lane) : Except Refusal Unit × Lane :=
  match l.options.current.patched? patch with
  | none => (.error .unreadable, l)
  | some o => l.update o

/-- More than what a timer makes up for when it is late. -/
def lateness : Nat := 5000000

/-- A bound on what the upkeep of partitions can do up to a time, its end included. -/
def upkeepsLeft (target elapsed : Nat) (l : Lane) : Nat :=
  match l.partitions with
  | some (.resting due) => 1 + (target + 1 - max due elapsed)
  | _ => 0

/-- A bound on how often the timer can fire before it is set anew. -/
def firingsLeft (target elapsed : Nat) (l : Lane) : Nat :=
  target + lateness + 1 - max (l.worker.timer.due + lateness) elapsed

/-- A bound on a change of options that is noticed, and on how often the timer can fire after it. -/
def noticesLeft (target elapsed : Nat) (l : Lane) : Nat :=
  if l.seen ≠ l.options.version then target + lateness + 2 - elapsed else 0

/-- A bound on how often a tick can be taken up again. -/
def resumesLeft (target elapsed : Nat) (l : Lane) : Nat :=
  match l.waiting with
  | some w => target + 2 - w.due
  | none => target + 1 - elapsed

/-- A bound on what the worker loop can do up to a time, its end included. -/
def turnsLeft (target elapsed : Nat) (l : Lane) : Nat :=
  match l.worker.stage with
  | .ended => 0
  | _ => 1 + l.firingsLeft target elapsed + l.noticesLeft target elapsed + l.resumesLeft target elapsed

def work (target elapsed : Nat) (l : Lane) : Nat :=
  l.upkeepsLeft target elapsed + l.turnsLeft target elapsed + if l.held then 0 else 1

def running (l : Lane) : Nat :=
  (if l.worker.stage = .ended then 0 else 1)
    + match l.partitions with
      | none | some .ended => 0
      | some _ => 1

def openLog (l : Lane) : Lane :=
  { l with bench := l.bench.openLog, store := l.store.map Store.openLog }

end Lane

structure Schedule where
  /-- What the clock shows, by the nanoseconds gone by. -/
  clock : Nat → Instant
  elapsed : Nat := 0
  cancelled : Bool := false
  /-- Whether the token has a parent that can be cancelled. -/
  hasParent : Bool := false
  joined : Bool := false
  /-- Which of the lanes that are due together goes first, at one turn after another. -/
  turns : Nat → Nat := fun _ => 0
  taken : Nat := 0
  lanes : List Lane

inductive ScheduleStep where
  | sleep (ms : UInt64)
  | setClock (clock : Nat → Instant)
  | update (lane : Nat) (o : Options)
  | modify (lane : Nat) (patch : Json)
  | insert (lane : Nat) (rows : List Row)
  | inject (lane : Nat) (fault : Fault)
  | injectStore (lane : Nat) (fault : StoreFault)
  | requestShutdown
  | cancelParent
  | shutdownAndJoin

def ScheduleStep.nanos : ScheduleStep → Nat
  | .sleep ms => ms.toNat * 1000000
  | _ => 0

namespace Schedule

def now (s : Schedule) : Instant := s.clock s.elapsed

/-- What comes next in each lane up to a time and when, with the number of the lane. -/
def upcoming (s : Schedule) (target : Nat) : List (Nat × Nat × Event) :=
  s.lanes.zipIdx.filterMap fun (l, i) =>
    (l.next? target s.elapsed).map fun (time, event) => (time, i, event)

/-- What comes first of all up to a time, in the lane whose turn it is. -/
def next? (s : Schedule) (target : Nat) : Option (Nat × Nat × Event) :=
  (earliest (s.upcoming target)).map fun first =>
    ((s.upcoming target).filter (·.1 = first.1))[s.turns s.taken]?.getD first

def cancel (s : Schedule) : Schedule := { s with cancelled := true, lanes := s.lanes.map Lane.cancel }

def release (s : Schedule) : Schedule := { s with lanes := s.lanes.map Lane.release }

def perform (time lane : Nat) (event : Event) (s : Schedule) : Schedule :=
  let s := { s with elapsed := time, taken := s.taken + 1 }
  match s.lanes[lane]? with
  | none => s
  | some l =>
    let (l, done) := l.perform time s.now event
    let s := { s with lanes := s.lanes.set lane l }
    if done.cancelled then s.cancel else s

/-- Does at most a number of things that are due up to a time, and goes on to that time. -/
def runFor (target : Nat) : Nat → Schedule → Schedule
  | 0, s => { s with elapsed := target }
  | n + 1, s =>
    match s.next? target with
    | some (time, lane, event) => runFor target n (s.perform time lane event)
    | none => { s with elapsed := target }

def work (target : Nat) (s : Schedule) : Nat := s.lanes.foldr (fun l n => l.work target s.elapsed + n) 0

def runTo (target : Nat) (s : Schedule) : Schedule := s.runFor target (s.work target)

def settle (s : Schedule) : Schedule := s.runTo s.elapsed

/-- A clock that shows an instant at the start and goes on from there. -/
def clockFrom (start : Instant) (elapsed : Nat) : Instant := (start.shift? elapsed).getD .last

/-- The loops before any of them has done anything. -/
def opened (start : Instant) (hasParent : Bool) (lanes : List Lane) : Schedule :=
  { clock := clockFrom start, hasParent, lanes }

/-- The loops, with the work of the first instant done. -/
def begin (start : Instant) (hasParent : Bool) (lanes : List Lane) : Schedule :=
  (opened start hasParent lanes).settle

def modifyLane (i : Nat) (f : Lane → Lane) (s : Schedule) : Schedule :=
  { s with lanes := s.lanes.modify i fun l => (f l).release }

/-- Has a lane answer. -/
def ask (i : Nat) (f : Lane → Except Refusal Unit × Lane) (s : Schedule) :
    Option (Except Refusal Unit) × Schedule :=
  let answer := match s.lanes[i]? with
    | some l => (f l).1
    | none => .error (.unknown (Decimal.text i))
  (some answer, s.modifyLane i fun l => (f l).2)

/-- What is done from outside. -/
def change (s : Schedule) : ScheduleStep → Option (Except Refusal Unit) × Schedule
  | .sleep _ => (none, s.release)
  | .setClock clock => (none, { s.release with clock })
  | .update i o => s.ask i (·.update o)
  | .modify i patch => s.ask i (·.modify patch)
  | .insert i rows => (none, s.modifyLane i fun l => { l with bench := l.bench.insert rows })
  | .inject i fault =>
    (none, s.modifyLane i fun l => { l with bench := { l.bench with faults := l.bench.faults ++ [fault] } })
  | .injectStore i fault =>
    (none, s.modifyLane i fun l => { l with store := l.store.map (Store.inject fault) })
  | .requestShutdown => (none, s.cancel)
  | .cancelParent => (none, if s.hasParent then s.cancel else s)
  | .shutdownAndJoin => (none, { s.cancel with joined := true })

/-- The loops do what is due after a step and while it lasts. -/
def step (s : Schedule) (step : ScheduleStep) : Option (Except Refusal Unit) × Schedule :=
  let (result, s) := s.change step
  (result, s.runTo (s.elapsed + step.nanos))

def running (s : Schedule) : Nat := s.lanes.foldl (fun n lane => n + lane.running) 0

def openLog (s : Schedule) : Schedule := { s with lanes := s.lanes.map Lane.openLog }

end Schedule

end Outbox.Rehearsal
