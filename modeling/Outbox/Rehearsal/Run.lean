import Outbox.Options.Json
import Outbox.Registration
import Outbox.Rehearsal.Play
import Outbox.Table.Maintenance

/-!
A rehearsal of one table: units of work, workers, built outboxes and an operator take turns on it
under a clock that moves only when it is told to.
-/

namespace Outbox.Rehearsal

/-- A built outbox and the version of its options that a watcher has seen. -/
structure Built where
  registration : Registration
  seen : Nat := 0

structure Run where
  bench : Bench
  repositories : List (String × Repository) := []
  outboxes : List (String × Built) := []

inductive Step where
  | insert (rows : List Row)
  | setClock (time : Instant)
  | advance (ms : Int)
  | openRepository (repository : String) (mode : Mode)
  | fetch (repository : String) (limit : Nat)
  | save (repository : String) (completed : List ItemId) (retried : List Row)
  | drop (repository : String)
  | chunk (skip take : Nat)
  | clear
  | delete (ids : List ItemId)
  | restart (ids : List ItemId)
  | get (id : ItemId)
  | inject (fault : Fault)
  | worker (name outbox : String) (type : WorkerType) (handler : HandlerKind) (allProcessed : Bool)
  | tick (name : String) (options : Options) (cancelled : Bool)
  /-- The handlers are set one after another. -/
  | build (name : String) (plan : Plan) (handlers : List HandlerKind) (allProcessed : Bool)
  | process (name : String) (cancelled : Bool)
  | update (name : String) (options : Options)
  | modify (name : String) (patch : Json)
  | options (name : String)
  | metrics (name : String)

inductive Answer where
  | done
  | ids (l : List ItemId)
  | rows (l : List Row)
  | row (r : Option Row)
  | count (n : Nat)
  | worker (type : WorkerType) (features : Features)
  | tick (report : TickReport) (log : Log) (cancelled : Bool)
  | built (type : WorkerType) (metrics : String) (partitions : Option String)
  | options (changed : Bool) (current : Options)
  | metrics (m : Metrics)

/-- Why a step could not be taken. -/
inductive Refusal where
  | error (e : OutboxError)
  /-- The text of the settings cannot be read. -/
  | unreadable
  /-- No such worker, outbox or unit of work. -/
  | unknown (name : String)

/-- The entries with another in the place of the one of the same name. -/
def put {α : Type} (name : String) (a : α) (l : List (String × α)) : List (String × α) :=
  (name, a) :: l.filter (·.1 ≠ name)

namespace Run

def start (features : Features) (now : Instant) (rows : List Row) : Run :=
  { bench := { features, now, table := Table.insert rows {} } }

def answer (result : Except OutboxError Answer) : Except Refusal Answer := result.mapError .error

def setTable (t : Table) (r : Run) : Run := { r with bench := { r.bench with table := t } }

def play (key : WorkerKey) (name : String) (options : Options) (cancelled : Bool) (r : Run) :
    Except Refusal Answer × Run :=
  let (played, bench) :=
    r.bench.openLog.tick (r.bench.table.rows.size + 1) key options cancelled false
  match played with
  | some (.ended report cancelled) => (.ok (.tick report bench.log cancelled), { r with bench })
  | _ => (.error (.unknown name), { r with bench })

def publish (name : String) (b : Built) (o : Options) (r : Run) : Except Refusal Answer × Run :=
  match b.registration.options.update o with
  | .error e => (.error (.error e), r)
  | .ok live =>
    let b := { b with registration := { b.registration with options := live } }
    (.ok .done, { r with outboxes := put name b r.outboxes })

def step (r : Run) : Step → Except Refusal Answer × Run
  | .insert rows => (.ok .done, { r with bench := r.bench.insert rows })
  | .setClock t => (.ok .done, { r with bench := { r.bench with now := t } })
  | .advance ms =>
    let now := (r.bench.now.shift? (ms * 1000000)).getD r.bench.now
    (.ok .done, { r with bench := { r.bench with now } })
  | .openRepository name mode =>
    let r := match r.repositories.lookup name with
      | some old => r.setTable (old.drop r.bench.table)
      | none => r
    (.ok .done, { r with repositories := put name { mode } r.repositories })
  | .fetch name limit =>
    match r.repositories.lookup name with
    | none => (.error (.unknown name), r)
    | some repository =>
      let (fault, bench) := r.bench.takeFault .fetch
      match fault with
      | some e => (.error (.error e), { r with bench })
      | none =>
        let (result, repository, table) := repository.fetch bench.features bench.now limit bench.table
        (answer (result.map fun rows => .ids (rows.map (·.id))),
          { r with bench := { bench with table }, repositories := put name repository r.repositories })
  | .save name completed retried =>
    match r.repositories.lookup name with
    | none => (.error (.unknown name), r)
    | some repository =>
      let (fault, bench) := r.bench.takeFault .save
      match fault with
      | some e => (.error (.error e), { r with bench })
      | none =>
        let (result, repository, table) := repository.save bench.features completed retried bench.table
        (answer (result.map fun _ => .done),
          { r with bench := { bench with table }, repositories := put name repository r.repositories })
  | .drop name =>
    match r.repositories.lookup name with
    | none => (.error (.unknown name), r)
    | some repository =>
      (.ok .done, { r.setTable (repository.drop r.bench.table) with
        repositories := r.repositories.filter (·.1 ≠ name) })
  | .chunk skip take => (.ok (.rows (r.bench.table.chunk skip take)), r)
  | .clear => (.ok .done, r.setTable r.bench.table.clear)
  | .delete ids =>
    let (n, table) := r.bench.table.delete ids
    (.ok (.count n), r.setTable table)
  | .restart ids =>
    let (n, table) := r.bench.table.restart r.bench.features ids
    (.ok (.count n), r.setTable table)
  | .get id => (.ok (.row (r.bench.table.rows.find? id)), r)
  | .inject fault => (.ok .done, { r with bench := { r.bench with faults := r.bench.faults ++ [fault] } })
  | .worker name outbox type handler allProcessed =>
    match type.accept outbox handler with
    | .error e => (.error (.error e), r)
    | .ok _ =>
      let w : Worker := { type, metrics := { outbox }, allProcessed }
      (.ok (.worker type r.bench.features), { r with bench := r.bench.setWorker (.direct name) w })
  | .tick name options cancelled => r.play (.direct name) name options cancelled
  | .build name plan handlers allProcessed =>
    match { plan with handler := handlers.getLast? }.build r.bench.features with
    | .error e => (.error (.error e), r)
    | .ok registration =>
      let type := plan.options.workerType
      let w : Worker := { type, metrics := { outbox := plan.outbox }, allProcessed }
      (.ok (.built type plan.outbox (if registration.managed then some plan.outbox else none)),
        { r with
          bench := r.bench.setWorker (.built name) w
          outboxes := put name { registration } r.outboxes })
  | .process name cancelled =>
    match r.outboxes.lookup name with
    | none => (.error (.unknown name), r)
    | some b => r.play (.built name) name b.registration.options.current cancelled
  | .update name options =>
    match r.outboxes.lookup name with
    | none => (.error (.unknown name), r)
    | some b => r.publish name b options
  | .modify name patch =>
    match r.outboxes.lookup name with
    | none => (.error (.unknown name), r)
    | some b =>
      match b.registration.options.current.patched? patch with
      | none => (.error .unreadable, r)
      | some options => r.publish name b options
  | .options name =>
    match r.outboxes.lookup name with
    | none => (.error (.unknown name), r)
    | some b =>
      let live := b.registration.options
      (.ok (.options (live.version ≠ b.seen) live.current),
        { r with outboxes := put name { b with seen := live.version } r.outboxes })
  | .metrics name =>
    match (r.bench.worker? (.direct name)).or (r.bench.worker? (.built name)) with
    | none => (.error (.unknown name), r)
    | some w => (.ok (.metrics w.metrics), r)

end Run

end Outbox.Rehearsal
