import Outbox.Partition.Upkeep

/-!
A store of partitions for rehearsals: it keeps a log of its calls, and single calls can be made to
fail.
-/

namespace Outbox.Rehearsal

/-- An error that takes the place of the next call of a kind on a partition. -/
structure StoreFault where
  verb : String
  partition : String
  error : PartitionError
  deriving DecidableEq

structure Store where
  catalogue : Catalogue
  faults : List StoreFault := []
  /-- The calls since the log was opened, the last one first. -/
  calls : List StoreCall := []

namespace Store

def perform (s : Store) (call : StoreCall) : Except PartitionError Unit × Store :=
  let s := { s with calls := call :: s.calls }
  match s.faults.find? fun f => f.verb = call.verb ∧ f.partition = call.partition with
  | some fault => (.error fault.error, { s with faults := s.faults.erase fault })
  | none =>
    let (result, catalogue) := s.catalogue.perform call
    (result, { s with catalogue })

def inject (fault : StoreFault) (s : Store) : Store := { s with faults := s.faults ++ [fault] }

def openLog (s : Store) : Store := { s with calls := [] }

end Store

/-- The upkeep of one table under a clock that moves only when it is told to. -/
structure UpkeepRun where
  store : Store
  now : Instant
  settings : PartitionSettings

inductive UpkeepStep where
  | createUpcoming
  | retireOld
  | settings (s : PartitionSettings)
  | setClock (time : Instant)
  | advance (ms : Int)
  | inject (fault : StoreFault)
  | call (c : StoreCall)

inductive UpkeepAnswer where
  | done
  | upkeep (result : Except OutboxError Nat)
  | call (result : Except PartitionError Unit)

namespace UpkeepRun

def upkeep (u : Upkeep) (r : UpkeepRun) : UpkeepAnswer × UpkeepRun :=
  let (result, store) := u.run r.store.catalogue.table Store.perform r.store
  (.upkeep result, { r with store })

def step (r : UpkeepRun) : UpkeepStep → UpkeepAnswer × UpkeepRun
  | .createUpcoming => r.upkeep (.create r.settings r.store.catalogue.table r.now)
  | .retireOld => r.upkeep (.retire r.settings r.store.catalogue.table r.now)
  | .settings s => (.done, { r with settings := s })
  | .setClock t => (.done, { r with now := t })
  | .advance ms => (.done, { r with now := (r.now.shift? (ms * 1000000)).getD r.now })
  | .inject fault => (.done, { r with store := r.store.inject fault })
  | .call c =>
    let (result, store) := r.store.perform c
    (.call result, { r with store })

end UpkeepRun

end Outbox.Rehearsal
