import Outbox.Keyed
import Outbox.Item
import Outbox.Options

/-!
An outbox table: its rows and the locks that transactions hold on them. A fetch locks the rows it
returns, a save writes and gives its locks back. Nothing else writes for a worker.
-/

namespace Outbox

abbrev TransactionId := Nat

structure Lock where
  id : ItemId
  owner : TransactionId
  deriving DecidableEq

structure Table where
  rows : Keyed Row.id := ∅
  locks : Keyed Lock.id := ∅
  nextTransaction : TransactionId := 1

/-- How the rows of a fetch are locked and whether done rows stay in the table. -/
structure Mode where
  lock : LockDiscipline
  /-- A done row is stamped completed and not deleted. -/
  partitioned : Bool
  deriving DecidableEq, Repr

def Row.isEligible (features : Features) (now : Instant) (partitioned : Bool) (row : Row) : Bool :=
  match row.status? features with
  | none => true
  | some f => f.isDue now && !(partitioned && f.status = .completed)

/-- Places a row before the first one of at most its priority. -/
def placeByPriority (row : Row) : List Row → List Row
  | [] => [row]
  | r :: rest => if r.priority ≤ row.priority then row :: r :: rest else r :: placeByPriority row rest

/-- Highest priority first; rows of one priority stay in order. -/
def byPriority (rows : List Row) : List Row := rows.foldr placeByPriority []

namespace Table

/-- The rows a fetch may return, in its order: by priority where the type has one, then by id. -/
def eligible (features : Features) (now : Instant) (partitioned : Bool) (t : Table) : List Row :=
  let rows := t.rows.toList.filter (·.isEligible features now partitioned)
  if features.priority then byPriority rows else rows

def lockedByOther (t : Table) (txn : TransactionId) (id : ItemId) : Bool :=
  match t.locks.find? id with
  | some lock => lock.owner != txn
  | none => false

/-- The rows a fetch locks, or nothing if it gives up because another transaction holds one. -/
def window? (features : Features) (now : Instant) (mode : Mode) (limit : Nat) (txn : TransactionId)
    (t : Table) : Option (List Row) :=
  let rows := t.eligible features now mode.partitioned
  match mode.lock with
  | .skipLocked => some ((rows.filter fun r => !t.lockedByOther txn r.id).take limit)
  | .noWait =>
    let first := rows.take limit
    if first.any fun r => t.lockedByOther txn r.id then none else some first

def lockAll (txn : TransactionId) (rows : List Row) (t : Table) : Table :=
  { t with locks := rows.foldl (fun locks r => locks.insert ⟨r.id, txn⟩) t.locks }

def release (txn : TransactionId) (t : Table) : Table :=
  { t with locks := t.locks.filter (·.owner != txn) }

/-- Takes a done row out of the queue: deleted, or stamped where done rows stay. -/
def complete (features : Features) (partitioned : Bool) (t : Table) (id : ItemId) : Table :=
  if partitioned then
    { t with rows := t.rows.modify id (·.modifyStatus features .markCompleted) }
  else { t with rows := t.rows.erase id }

def writeStatus (features : Features) (t : Table) (row : Row) : Table :=
  { t with rows := t.rows.modify row.id (·.modifyStatus features fun _ => row.fields) }

/-- Adds rows, each in the place of a row of the same id. -/
def insert (rows : List Row) (t : Table) : Table :=
  { t with rows := rows.foldl Keyed.insert t.rows }

end Table

end Outbox
