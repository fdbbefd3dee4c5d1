import Outbox.ItemId

/-!
Outbox rows. Every row has an id and a payload; tracking of status and a priority are capabilities
of the item type, and a row shows a field only if its type has the capability.
-/

namespace Outbox

inductive Status where
  | ready | failed | retry | completed
  deriving DecidableEq, Repr

namespace Status

def all : List Status := [.ready, .failed, .retry, .completed]

def name : Status → String
  | .ready => "Ready"
  | .failed => "Failed"
  | .retry => "Retry"
  | .completed => "Completed"

/-- The number that stands for the status in a table. -/
def code : Status → Int32
  | .ready => 0
  | .failed => 1
  | .retry => 2
  | .completed => 3

def ofCode? (n : Int32) : Option Status := all.find? (·.code = n)

end Status

structure StatusFields where
  status : Status := .ready
  retryCount : Option Int32 := none
  retryAfter : Option Instant := none
  deriving DecidableEq

namespace StatusFields

/-- The count after one more attempt; it stays at the greatest count once there. -/
def nextCount (f : StatusFields) : Int32 :=
  let count := f.retryCount.getD 0
  if count = Int32.maxValue then count else count + 1

/-- A row without an instant of retry is always due. -/
def isDue (f : StatusFields) (now : Instant) : Bool :=
  match f.retryAfter with
  | none => true
  | some after => after ≤ now

/-- Counts one more failed attempt and keeps the row back until `after`. -/
def scheduleRetry (f : StatusFields) (after : Instant) : StatusFields :=
  { status := .retry, retryCount := some f.nextCount, retryAfter := some after }

def markCompleted (f : StatusFields) : StatusFields := { f with status := .completed }

/-- Back to the queue; the count of attempts is kept. -/
def restart (f : StatusFields) : StatusFields := { f with status := .ready, retryAfter := none }

end StatusFields

structure Features where
  status : Bool := false
  priority : Bool := false
  deriving DecidableEq, Repr

structure Row where
  id : ItemId
  payload : String
  priority : Int32 := 0
  fields : StatusFields := {}
  deriving DecidableEq

namespace Row

def status? (features : Features) (row : Row) : Option StatusFields :=
  if features.status then some row.fields else none

def modifyStatus (features : Features) (f : StatusFields → StatusFields) (row : Row) : Row :=
  if features.status then { row with fields := f row.fields } else row

theorem id_modifyStatus (features : Features) (f : StatusFields → StatusFields) (row : Row) :
    (row.modifyStatus features f).id = row.id := by
  unfold modifyStatus; split <;> rfl

end Row

end Outbox
