import Outbox.Partition.Upkeep
import Outbox.Sql.Partition

/-!
The statements that partition upkeep would send to a database in which every one of them succeeds.
-/

namespace Outbox.Sql

/-- A database that does nothing, finds nothing and keeps what it was told, the last command first. -/
def recorder : Database (List Command) := fun command log => (.ok (.affected 0), command :: log)

/-- The statements of one cycle of upkeep, in order. -/
def upkeepStatements (m : Mapping) (s : PartitionSettings) (now : Instant) :
    Except OutboxError (List Statement) := do
  let send (u : Upkeep) := u.run m.table (perform recorder m.table)
  let (created, log) := send (.create s m.table now) []
  discard created
  let (retired, log) := send (.retire s m.table now) log
  discard retired
  return log.reverse.filterMap fun
    | .run statement => some statement
    | _ => none

end Outbox.Sql
