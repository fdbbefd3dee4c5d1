import Outbox.Partition.Catalogue
import Outbox.ItemId.Text
import Outbox.Sql.Mapping
import Outbox.Table

/-!
The statements an outbox sends to a database: their text, in which every name is quoted, and the
values sent beside it.
-/

namespace Outbox.Sql

inductive Fragment where
  | plain (text : String)
  /-- The name of a relation or column. -/
  | name (identifier : String)
  /-- A constant of the database's text type. -/
  | literal (text : String)
  deriving DecidableEq, Repr

def Fragment.chars : Fragment → List Char
  | .plain text => text.toList
  | .name identifier => quoted '"' identifier
  | .literal text => quoted '\x27' text

inductive Value where
  | integer (n : Int)
  | instant (t : Instant)
  | ids (l : List ItemId)
  | integers (l : List (Option Int32))
  | instants (l : List (Option Instant))
  deriving DecidableEq

inductive Statement where
  | fetch (features : Features) (mode : Mode) (now : Instant) (limit : Nat)
  | delete (ids : List ItemId)
  | complete (ids : List ItemId)
  | writeStatus (rows : List (ItemId × StatusFields))
  | chunk (skip take : Nat)
  | clear
  | restart (ids : List ItemId)
  | createPartition (range : PartitionRange)
  | detachPartition (partition : String)
  | dropPartition (partition : String)
  deriving DecidableEq

namespace Mapping

def relation (m : Mapping) (name : String) : List Fragment :=
  match m.schema with
  | some schema => [.name schema, .plain ".", .name name]
  | none => [.name name]

def own (m : Mapping) : List Fragment := m.relation m.table

def relationText (m : Mapping) (name : String) : String :=
  .ofList ((m.relation name).flatMap Fragment.chars)

/-- The order of a fetch, the first key first. -/
def orderKeys (m : Mapping) (features : Features) : List (List Fragment) :=
  (if features.priority then [[.name m.priority, .plain " DESC"]] else [])
    ++ [[.name m.id, .plain " ASC"]]
    ++ if features.status then [[.name m.retryAfter, .plain " ASC"]] else []

/-- The rows a fetch may return, where the type tracks status. -/
def condition (m : Mapping) (features : Features) (mode : Mode) : List Fragment :=
  if features.status then
    [.plain " WHERE (", .name m.retryAfter, .plain " IS NULL OR ", .name m.retryAfter, .plain " <= $1)"]
      ++ if mode.partitioned then [.plain " AND ", .name m.status, .plain " <> 3"] else []
  else []

end Mapping

namespace Statement

def lockClause : LockDiscipline → String
  | .skipLocked => "SKIP LOCKED"
  | .noWait => "NOWAIT"

def fragments (m : Mapping) : Statement → List Fragment
  | fetch features mode _ _ =>
    .plain "SELECT * FROM " :: m.own ++ m.condition features mode
      ++ .plain " ORDER BY " :: List.intercalate [.plain ", "] (m.orderKeys features)
      ++ [.plain (if features.status then " LIMIT $2" else " LIMIT $1"),
          .plain (" FOR UPDATE " ++ lockClause mode.lock)]
  | delete _ =>
    .plain "DELETE FROM " :: m.own ++ [.plain " WHERE ", .name m.id, .plain " = ANY($1)"]
  | complete _ =>
    .plain "UPDATE " :: m.own
      ++ [.plain " SET ", .name m.status, .plain " = 3 WHERE ", .name m.id, .plain " = ANY($1)"]
  | writeStatus _ =>
    .plain "UPDATE " :: m.own
      ++ [.plain " AS t SET ", .name m.status, .plain " = u.status, ", .name m.retryCount,
          .plain " = u.retry_count, ", .name m.retryAfter, .plain " = u.retry_after",
          .plain " FROM UNNEST($1::uuid[], $2::int4[], $3::int4[], $4::timestamptz[])",
          .plain " AS u(id, status, retry_count, retry_after) WHERE t.", .name m.id, .plain " = u.id"]
  | chunk _ _ =>
    .plain "SELECT * FROM " :: m.own
      ++ [.plain " ORDER BY ", .name m.id, .plain " ASC LIMIT $1 OFFSET $2"]
  | clear => .plain "TRUNCATE " :: m.own
  | restart _ =>
    .plain "UPDATE " :: m.own
      ++ [.plain " SET ", .name m.status, .plain " = 0, ", .name m.retryAfter,
          .plain " = NULL WHERE ", .name m.id, .plain " = ANY($1)"]
  | createPartition range =>
    .plain "CREATE TABLE IF NOT EXISTS " :: m.relation range.name
      ++ .plain " PARTITION OF " :: m.own
      ++ [.plain " FOR VALUES FROM (", .literal range.low.uuid, .plain ") TO (",
          .literal range.high.uuid, .plain ")"]
  | detachPartition partition =>
    .plain "ALTER TABLE " :: m.own
      ++ .plain " DETACH PARTITION " :: m.relation partition ++ [.plain " CONCURRENTLY"]
  | dropPartition partition => .plain "DROP TABLE " :: m.relation partition

def text (m : Mapping) (s : Statement) : String := .ofList ((s.fragments m).flatMap Fragment.chars)

/-- Counts beyond the database's integers are sent as its greatest integer. -/
def count (n : Nat) : Value := .integer (min n ((1 <<< 63) - 1))

/-- The values of the statement's places `$1`, `$2` and so on. -/
def values : Statement → List Value
  | fetch features _ now limit => if features.status then [.instant now, count limit] else [count limit]
  | delete ids | complete ids | restart ids => [.ids ids]
  | writeStatus rows =>
    [.ids (rows.map (·.1)), .integers (rows.map fun r => some r.2.status.code),
     .integers (rows.map (·.2.retryCount)), .instants (rows.map (·.2.retryAfter))]
  | chunk skip take => [count take, count skip]
  | clear | createPartition _ | detachPartition _ | dropPartition _ => []

/-- Statements on partitions are sent as plain text; they take no part in a transaction. -/
def isPlain : Statement → Bool
  | createPartition _ | detachPartition _ | dropPartition _ => true
  | _ => false

end Statement

end Outbox.Sql
