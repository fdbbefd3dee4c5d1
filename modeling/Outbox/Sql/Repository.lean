import Outbox.Sql.Database

/-!
One unit of work on a database: a transaction begun by a fetch and ended by a save or a drop. A save
takes the transaction first, so whatever goes wrong in it, the transaction is gone.
-/

namespace Outbox.Sql

/-- The answer to a lock that would have to be waited for. -/
def lockNotAvailable : String := "55P03"

def isLockConflict : DatabaseError → Bool
  | .server code _ => code = lockNotAvailable
  | _ => false

/-- A unit of work that holds a transaction or none. -/
structure Repository where
  mode : Mode
  inTransaction : Bool := false
  deriving DecidableEq

namespace Repository

variable {σ : Type} (db : Database σ) (features : Features)

def rollback (s : σ) : σ := (db .rollback s).2

/-- Locks and returns at most `limit` rows; none if another transaction holds one and the unit of
work does not wait. -/
def fetch (now : Instant) (limit : Nat) (r : Repository) (s : σ) :
    Except OutboxError (List Row) × Repository × σ :=
  if r.inTransaction then (.error .transactionAlreadyOpen, r, s)
  else match db .begin s with
    | (.error e, s) => (.error (.database e), r, s)
    | (.ok _, s) =>
      match db (.run (.fetch features r.mode now limit)) s with
      | (.error e, s) =>
        (if isLockConflict e then .ok [] else .error (.database e), r, rollback db s)
      | (.ok answer, s) =>
        match answer.records.mapM (Record.item features) with
        | .ok rows => (.ok rows, { r with inTransaction := true }, s)
        | .error e => (.error (.database e), r, rollback db s)

/-- The writes of a save: one for the completed rows and one for the retried ones, if there are any. -/
def writes (mode : Mode) (completed : List ItemId) (retried : List Row) : List Statement :=
  (if completed = [] then []
    else if mode.partitioned ∧ features.status then [.complete completed] else [.delete completed])
  ++ if features.status ∧ retried ≠ [] then [.writeStatus (retried.map fun r => (r.id, r.fields))]
    else []

/-- Sends statements up to the first that fails. -/
def sendAll (s : σ) : List Statement → Except DatabaseError Unit × σ
  | [] => (.ok (), s)
  | statement :: rest =>
    match db (.run statement) s with
    | (.ok _, s) => sendAll s rest
    | (.error e, s) => (.error e, s)

/-- Writes and commits; a failure of either rolls back. -/
def commit (s : σ) (statements : List Statement) : Except DatabaseError Unit × σ :=
  match sendAll db s statements with
  | (.error e, s) => (.error e, rollback db s)
  | (.ok _, s) =>
    match db .commit s with
    | (.error e, s) => (.error e, rollback db s)
    | (.ok _, s) => (.ok (), s)

def save (completed : List ItemId) (retried : List Row) (r : Repository) (s : σ) :
    Except OutboxError Unit × Repository × σ :=
  let closed := { r with inTransaction := false }
  if !r.inTransaction then (.error .transactionNotOpen, r, s)
  else if retried ≠ [] ∧ !r.mode.lock.supportsRetry then
    (.error .retryNotSupported, closed, rollback db s)
  else
    let (result, s) := commit db s (writes features r.mode completed retried)
    (result.mapError .database, closed, s)

/-- Ends the unit of work; what was not saved is rolled back. -/
def drop (r : Repository) (s : σ) : σ := if r.inTransaction then rollback db s else s

end Repository

end Outbox.Sql
