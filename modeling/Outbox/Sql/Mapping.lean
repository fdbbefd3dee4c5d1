import Outbox.Item
import Outbox.Json.Record
import Outbox.Sql.Quoted

/-!
Where an outbox lives in a database and what its columns are called.
-/

namespace Outbox.Sql

structure Mapping where
  schema : Option String := none
  table : String := "outbox"
  id : String := "id"
  status : String := "status"
  retryCount : String := "retry_count"
  retryAfter : String := "retry_after"
  priority : String := "priority"
  deriving DecidableEq

namespace Mapping

def json (m : Mapping) : Json := .record
  [("schema", .ofOption Json.ofString m.schema), ("table", .ofString m.table), ("id", .ofString m.id),
   ("status", .ofString m.status), ("retry_count", .ofString m.retryCount),
   ("retry_after", .ofString m.retryAfter), ("priority", .ofString m.priority)]

def ofJson? (j : Json) : Option Mapping := do
  let f ← j.fields? ["schema", "table", "id", "status", "retry_count", "retry_after", "priority"]
  let default : Mapping := {}
  let schema ← f.orElse? "schema" (Json.option? Json.string?) default.schema
  let table ← f.orElse? "table" Json.string? default.table
  let id ← f.orElse? "id" Json.string? default.id
  let status ← f.orElse? "status" Json.string? default.status
  let retryCount ← f.orElse? "retry_count" Json.string? default.retryCount
  let retryAfter ← f.orElse? "retry_after" Json.string? default.retryAfter
  let priority ← f.orElse? "priority" Json.string? default.priority
  some { schema, table, id, status, retryCount, retryAfter, priority }

end Mapping

end Outbox.Sql
