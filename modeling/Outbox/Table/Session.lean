import Outbox.Table.Repository
import Outbox.Tick

/-!
A tick at work on a table: the machine of the tick and the unit of work it holds. Each step is one
of those between which other ticks may run; when the tick is over its unit of work is dropped.
-/

namespace Outbox

structure Session where
  job : Job
  repository : Repository
  tick : Tick

/-- What happens to a tick next. A fault takes the place of the fetch or the save. -/
inductive Act where
  | fetch (fault : Option OutboxError)
  | answer (reply : Reply)
  | save (fault : Option OutboxError)
  | cancel

namespace Session

/-- A tick whose token is cancelled beforehand is over at once. -/
def start (job : Job) (cancelled : Bool) : Session :=
  { job, repository := { mode := job.mode }, tick := if cancelled then Tick.cancel .fetching else .fetching }

/-- The tick with an answer, and what the answer adds to the metrics. -/
def reply (now : Instant) (r : Reply) (s : Session) : Session × List Sample :=
  ({ s with tick := s.tick.next s.job now r }, s.tick.samples s.job r)

/-- Drops the unit of work of a tick that is over. -/
def settle (s : Session) (t : Table) : Session × Table :=
  match s.tick with
  | .ended _ => ({ s with repository := { s.repository with transaction := none } }, s.repository.drop t)
  | _ => (s, t)

/-- One step of the tick. A step that the tick does not wait for changes nothing. -/
def act (now : Instant) (s : Session) (t : Table) : Act → Session × Table × List Sample
  | .fetch fault =>
    match s.tick with
    | .fetching =>
      let (result, repository, t) := match fault with
        | some e => (.error e, s.repository, t)
        | none => s.repository.fetch s.job.features now s.job.limit t
      let (s, samples) := { s with repository }.reply now (.fetched result)
      let (s, t) := s.settle t
      (s, t, samples)
    | _ => (s, t, [])
  | .answer r =>
    match r with
    | .verdict _ | .outcome _ =>
      let (s, samples) := s.reply now r
      (s, t, samples)
    | _ => (s, t, [])
  | .save fault =>
    match s.tick with
    | .saving _ d =>
      let (result, repository, t) := match fault with
        | some e => (.error e, s.repository, t)
        | none => s.repository.save s.job.features (d.processed.map (·.id)) d.retried t
      let (s, samples) := { s with repository }.reply now (.saved result)
      let (s, t) := s.settle t
      (s, t, samples)
    | _ => (s, t, [])
  | .cancel =>
    let (s, t) := { s with tick := s.tick.cancel }.settle t
    (s, t, [])

end Session

end Outbox
