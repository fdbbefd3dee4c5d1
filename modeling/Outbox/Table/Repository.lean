import Outbox.Table

/-!
One unit of work on a table: a transaction opened by a fetch and closed by a save or a drop. A fetch
that meets a row held elsewhere may give up, and then it opens nothing.
-/

namespace Outbox

structure Repository where
  mode : Mode
  transaction : Option TransactionId := none
  deriving DecidableEq

namespace Repository

/-- Locks and returns at most `limit` rows. -/
def fetch (features : Features) (now : Instant) (limit : Nat) (r : Repository) (t : Table) :
    Except OutboxError (List Row) × Repository × Table :=
  match r.transaction with
  | some _ => (.error .transactionAlreadyOpen, r, t)
  | none =>
    let txn := t.nextTransaction
    let t := { t with nextTransaction := txn + 1 }
    match t.window? features now r.mode limit txn with
    | none => (.ok [], r, t)
    | some rows => (.ok rows, { r with transaction := some txn }, t.lockAll txn rows)

/-- Takes the completed rows out of the queue, writes the status of the retried ones and commits. -/
def save (features : Features) (completed : List ItemId) (retried : List Row) (r : Repository)
    (t : Table) : Except OutboxError Unit × Repository × Table :=
  match r.transaction with
  | none => (.error .transactionNotOpen, r, t)
  | some txn =>
    if retried ≠ [] ∧ !r.mode.lock.supportsRetry then (.error .retryNotSupported, r, t)
    else
      let t := completed.foldl (·.complete features r.mode.partitioned) t
      let t := retried.foldl (·.writeStatus features) t
      (.ok (), { r with transaction := none }, t.release txn)

/-- Ends the unit of work; what was not saved is rolled back. -/
def drop (r : Repository) (t : Table) : Table :=
  match r.transaction with
  | some txn => t.release txn
  | none => t

end Repository

end Outbox
