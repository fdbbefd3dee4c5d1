import Outbox.Item

/-!
What handlers answer about items, and what a tick reports.
-/

namespace Outbox

/-- What a handler says about an item. A skipped item is done with, like one that went well. -/
inductive Verdict where
  | ok | skip | retry
  deriving DecidableEq, Repr

namespace Verdict

def all : List Verdict := [.ok, .skip, .retry]

def name : Verdict → String
  | .ok => "OK"
  | .skip => "SKIP"
  | .retry => "RETRY"

def isSuccess : Verdict → Bool
  | .ok | .skip => true
  | .retry => false

end Verdict

/-- What a handler says about a batch: that all of it went well, or a verdict for some items. -/
structure BatchOutcome where
  allProcessed : Bool := false
  verdicts : List (ItemId × Verdict) := []
  deriving DecidableEq

namespace BatchOutcome

def fullyProcessed : BatchOutcome := { allProcessed := true }

/-- A later verdict on an item takes the place of an earlier one. -/
def add (b : BatchOutcome) (id : ItemId) (v : Verdict) : BatchOutcome :=
  { b with verdicts := (id, v) :: b.verdicts.filter (·.1 ≠ id) }

def partially (verdicts : List (ItemId × Verdict)) : BatchOutcome :=
  verdicts.foldl (fun b (id, v) => b.add id v) {}

def verdict? (b : BatchOutcome) (id : ItemId) : Option Verdict :=
  if b.allProcessed then some .ok else b.verdicts.lookup id

end BatchOutcome

inductive TickStatus where
  /-- Nothing was due, or another worker holds the rows. -/
  | empty
  | completed
  /-- The fetch or the save failed; nothing was changed. -/
  | failed
  /-- Given up before its save; nothing was changed. -/
  | cancelled
  deriving DecidableEq, Repr

namespace TickStatus

def all : List TickStatus := [.empty, .completed, .failed, .cancelled]

def name : TickStatus → String
  | .empty => "empty"
  | .completed => "completed"
  | .failed => "failed"
  | .cancelled => "cancelled"

end TickStatus

structure TickReport where
  fetched : UInt64 := 0
  processed : UInt64 := 0
  retried : UInt64 := 0
  status : TickStatus
  deriving DecidableEq

end Outbox
