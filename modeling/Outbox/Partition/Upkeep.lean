import Outbox.Partition.Catalogue

/-!
Looking after the partitions of a table: creating those that will be needed and retiring old ones,
one call on the store after another. A partition that is already gone is no error for a retirement,
so that several may run at once and an interrupted one can be repeated.
-/

namespace Outbox

/-- A run of creations or retirements: the calls still to make, or the result. -/
inductive Upkeep where
  | creating (range : PartitionRange) (rest : List PartitionRange) (created : Nat)
  | detaching (name : String) (rest : List String) (dropped : Nat)
  | dropping (name : String) (rest : List String) (dropped : Nat)
  | ended (result : Except OutboxError Nat)

namespace Upkeep

def creations (created : Nat) : List PartitionRange → Upkeep
  | [] => .ended (.ok created)
  | range :: rest => .creating range rest created

def retirements (dropped : Nat) : List String → Upkeep
  | [] => .ended (.ok dropped)
  | name :: rest => .detaching name rest dropped

/-- Makes sure that the ranges needed at `now` exist. -/
def create (s : PartitionSettings) (table : String) (now : Instant) : Upkeep :=
  match s.ranges table now with
  | .ok ranges => creations 0 ranges
  | .error e => .ended (.error e)

/-- Detaches and drops the ranges that have had their time at `now`. -/
def retire (s : PartitionSettings) (table : String) (now : Instant) : Upkeep :=
  match s.expiredRanges table now with
  | .ok ranges => retirements 0 (ranges.map (·.name))
  | .error e => .ended (.error e)

def call? : Upkeep → Option StoreCall
  | .creating range _ _ => some (.create range)
  | .detaching name _ _ => some (.detach name)
  | .dropping name _ _ => some (.drop name)
  | .ended _ => none

/-- The error of a run whose call on a partition failed. -/
def explain (table partition : String) : PartitionError → OutboxError
  | .notPartitioned _ => .partitioningNotConfigured table
  | e => .partition partition e.message

def next (table : String) : Upkeep → Except PartitionError Unit → Upkeep
  | .creating _ rest n, .ok _ => creations (n + 1) rest
  | .creating range _ _, .error e => .ended (.error (explain table range.name e))
  | .detaching name rest n, .ok _ | .detaching name rest n, .error (.notFound _) =>
    .dropping name rest n
  | .detaching name _ _, .error e => .ended (.error (explain table name e))
  | .dropping _ rest n, .ok _ => retirements (n + 1) rest
  | .dropping _ rest n, .error (.notFound _) => retirements n rest
  | .dropping name _ _, .error e => .ended (.error (explain table name e))
  | .ended result, _ => .ended result

/-- At most this many calls are still to be made. -/
def callsLeft : Upkeep → Nat
  | .creating _ rest _ => rest.length + 1
  | .detaching _ rest _ => 2 * rest.length + 2
  | .dropping _ rest _ => 2 * rest.length + 1
  | .ended _ => 0

variable {σ : Type}

/-- Makes at most a number of calls on a store. -/
def runFor (table : String) (perform : σ → StoreCall → Except PartitionError Unit × σ) :
    Nat → Upkeep → σ → Except OutboxError Nat × σ
  | _, .ended result, store => (result, store)
  | 0, _, store => (.ok 0, store)
  | n + 1, u, store =>
    match u.call? with
    | some call =>
      let (answer, store) := perform store call
      runFor table perform n (u.next table answer) store
    | none => (.ok 0, store)

/-- Makes all calls on a store, up to the first that fails. -/
def run (table : String) (perform : σ → StoreCall → Except PartitionError Unit × σ) (u : Upkeep)
    (store : σ) : Except OutboxError Nat × σ :=
  runFor table perform u.callsLeft u store

end Upkeep

end Outbox
