import Outbox.Partition.Upkeep
import Outbox.Rehearsal.Database
import Outbox.Rehearsal.Run
import Outbox.Sql.Maintenance
import Outbox.Sql.Partition
import Outbox.Sql.Repository

/-!
A rehearsal of an outbox that lives in a database.
-/

namespace Outbox.Rehearsal

structure SqlRun where
  database : ScriptedDatabase
  repositories : List (String × Sql.Repository) := []
  /-- The handlers; its table stays empty. -/
  bench : Bench

inductive SqlStep where
  | setClock (time : Instant)
  | openRepository (repository : String) (mode : Mode)
  | fetch (repository : String) (limit : Nat)
  | save (repository : String) (completed : List ItemId) (retried : List Row)
  | drop (repository : String)
  | chunk (skip take : Nat)
  | clear
  | delete (ids : List ItemId)
  | restart (ids : List ItemId)
  | call (c : StoreCall)
  | createUpcoming (s : PartitionSettings)
  | retireOld (s : PartitionSettings)
  | tick (options : Options)

inductive SqlAnswer where
  | outcome (result : Except Refusal Answer)
  | call (result : Except PartitionError Unit)

namespace SqlRun

def start (features : Features) (m : Sql.Mapping) (fault : Option String) (now : Instant) : SqlRun :=
  { database := { features, mapping := m, fault }, bench := { features, now } }

def answer (result : Except OutboxError Answer) : SqlAnswer := .outcome (result.mapError .error)

/-- A tick of a new worker on a unit of work of its own. -/
def tick (options : Options) (r : SqlRun) : TickReport × SqlRun :=
  let key : WorkerKey := .built "orders"
  let type := options.workerType
  let bench := r.bench.openLog.setWorker key { type, metrics := { outbox := "orders" } }
  let job : Job := { worker := type, features := bench.features, options }
  let play : Play := { worker := key, session := .start job false }
  let (fetched, repository, database) := ({ mode := job.mode } : Sql.Repository).fetch
    ScriptedDatabase.perform bench.features bench.now job.limit r.database
  let tick := play.session.tick.next job bench.now (.fetched fetched)
  let play := { play with session := { play.session with tick } }
  let (stop, play, bench) := play.handle (.scripted { nest := fun _ _ b => (false, b), pauses := false }) bench
  let tick := match stop with
    | .ended => play.session.tick
    | _ => play.session.tick.cancel
  match tick with
  | .saving _ d =>
    let (saved, _, database) := repository.save ScriptedDatabase.perform bench.features
      (d.processed.map (·.id)) d.retried database
    (((tick.next job bench.now (.saved saved)).report?).getD { status := .failed },
      { r with bench, database })
  | _ =>
    (tick.report?.getD { status := .failed },
      { r with bench, database := repository.drop ScriptedDatabase.perform database })

def upkeep (m : Sql.Mapping) (u : Upkeep) (r : SqlRun) : SqlAnswer × SqlRun :=
  let (result, database) := u.run m.table (Sql.perform ScriptedDatabase.perform m.table) r.database
  (answer (result.map .count), { r with database })

def step (r : SqlRun) : SqlStep → SqlAnswer × SqlRun
  | .setClock t => (.outcome (.ok .done), { r with bench := { r.bench with now := t } })
  | .openRepository name mode =>
    let database := match r.repositories.lookup name with
      | some old => old.drop ScriptedDatabase.perform r.database
      | none => r.database
    (.outcome (.ok .done), { r with database, repositories := put name { mode } r.repositories })
  | .fetch name limit =>
    match r.repositories.lookup name with
    | none => (.outcome (.error (.unknown name)), r)
    | some repository =>
      let (result, repository, database) := repository.fetch ScriptedDatabase.perform
        r.bench.features r.bench.now limit r.database
      (answer (result.map .rows), { r with database, repositories := put name repository r.repositories })
  | .save name completed retried =>
    match r.repositories.lookup name with
    | none => (.outcome (.error (.unknown name)), r)
    | some repository =>
      let (result, repository, database) := repository.save ScriptedDatabase.perform
        r.bench.features completed retried r.database
      (answer (result.map fun _ => .done),
        { r with database, repositories := put name repository r.repositories })
  | .drop name =>
    match r.repositories.lookup name with
    | none => (.outcome (.error (.unknown name)), r)
    | some repository =>
      (.outcome (.ok .done),
        { r with
          database := repository.drop ScriptedDatabase.perform r.database
          repositories := r.repositories.filter (·.1 ≠ name) })
  | .chunk skip take =>
    let (result, database) :=
      Sql.Maintenance.chunk ScriptedDatabase.perform r.bench.features skip take r.database
    (answer (result.map .rows), { r with database })
  | .clear =>
    let (result, database) := Sql.Maintenance.clear ScriptedDatabase.perform r.database
    (answer (result.map fun _ => .done), { r with database })
  | .delete ids =>
    let (result, database) := Sql.Maintenance.delete ScriptedDatabase.perform ids r.database
    (answer (result.map .count), { r with database })
  | .restart ids =>
    let (result, database) :=
      Sql.Maintenance.restart ScriptedDatabase.perform r.bench.features ids r.database
    (answer (result.map .count), { r with database })
  | .call c =>
    let (result, database) :=
      Sql.perform ScriptedDatabase.perform r.database.mapping.table r.database c
    (.call result, { r with database })
  | .createUpcoming s =>
    let m := r.database.mapping
    r.upkeep m (.create s m.table r.bench.now)
  | .retireOld s =>
    let m := r.database.mapping
    r.upkeep m (.retire s m.table r.bench.now)
  | .tick options =>
    let (report, r) := r.tick options
    (.outcome (.ok (.tick report r.bench.log false)), r)

/-- How many units of work hold a transaction. -/
def inTransaction (r : SqlRun) : Nat := r.repositories.countP (·.2.inTransaction)

end SqlRun

end Outbox.Rehearsal
