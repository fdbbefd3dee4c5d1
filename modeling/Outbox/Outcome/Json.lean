import Outbox.Outcome
import Outbox.Json.Record

/-!
Verdicts and reports as JSON.
-/

namespace Outbox

namespace Verdict

def json (v : Verdict) : Json := .ofString v.name

def ofJson? : Json → Option Verdict := Json.named? all name

end Verdict

namespace TickStatus

def json (s : TickStatus) : Json := .ofString s.name

def ofJson? : Json → Option TickStatus := Json.named? all name

end TickStatus

namespace TickReport

def json (r : TickReport) : Json := .record
  [("fetched", .ofNat r.fetched.toNat), ("processed", .ofNat r.processed.toNat),
   ("retried", .ofNat r.retried.toNat), ("status", r.status.json)]

def ofJson? (j : Json) : Option TickReport := do
  let f ← j.fields? ["fetched", "processed", "retried", "status"]
  let fetched ← f.required? "fetched" Json.uint64?
  let processed ← f.required? "processed" Json.uint64?
  let retried ← f.required? "retried" Json.uint64?
  let status ← f.required? "status" TickStatus.ofJson?
  some { fetched, processed, retried, status }

end TickReport

end Outbox
