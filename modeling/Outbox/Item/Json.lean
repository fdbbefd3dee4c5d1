import Outbox.Item
import Outbox.Instant.Text
import Outbox.ItemId.Text
import Outbox.Json.Record

/-!
Ids, status and capabilities as JSON.
-/

namespace Outbox

namespace ItemId

def json (id : ItemId) : Json := .ofString id.text

def ofJson? (j : Json) : Option ItemId := j.string?.bind fun s => (read s).toOption

end ItemId

namespace Instant

def json (t : Instant) : Json := .ofString t.text

def ofJson? (j : Json) : Option Instant := j.string?.bind ofText?

end Instant

namespace Status

def json (s : Status) : Json := .ofString s.name

def ofJson? : Json → Option Status := Json.named? all name

end Status

namespace StatusFields

def fieldNames : List String := ["status", "retry_count", "retry_after"]

def json (f : StatusFields) : Json := .record
  [("status", f.status.json),
   ("retry_count", .ofOption (fun n => .ofInt n.toInt) f.retryCount),
   ("retry_after", .ofOption Instant.json f.retryAfter)]

def ofJson? (j : Json) : Option StatusFields := do
  let f ← j.fields? fieldNames
  let status ← f.required? "status" Status.ofJson?
  let retryCount ← f.nullable? "retry_count" Json.int32?
  let retryAfter ← f.nullable? "retry_after" Instant.ofJson?
  some { status, retryCount, retryAfter }

end StatusFields

namespace Features

def json (f : Features) : Json := .record [("status", .bool f.status), ("priority", .bool f.priority)]

def ofJson? (j : Json) : Option Features := do
  let f ← j.fields? ["status", "priority"]
  let status ← f.required? "status" Json.bool?
  let priority ← f.required? "priority" Json.bool?
  some { status, priority }

end Features

end Outbox
