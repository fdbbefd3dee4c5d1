import Outbox.Item
import Outbox.Options

/-!
Setting up an outbox. Building refuses what could only fail later, and the options of a running
outbox can be replaced by others that keep to the limits, the worker type and the partitioning.
-/

namespace Outbox

namespace WorkerType

/-- A worker can be made for a handler of its kind only. -/
def accept (w : WorkerType) (outbox : String) (handler : HandlerKind) : Except OutboxError Unit :=
  if handler = w.handlerKind then .ok () else .error (.missingHandler outbox w.handlerKind)

end WorkerType

/-- The options in force, and how often they have been published. -/
structure LiveOptions where
  outbox : String
  current : Options
  version : Nat := 0

namespace LiveOptions

/-- Publishes other options. -/
def update (live : LiveOptions) (o : Options) : Except OutboxError LiveOptions := do
  o.validate live.outbox
  if o.workerType ≠ live.current.workerType then
    throw (.invalidConfiguration live.outbox "worker_type cannot change at runtime")
  if o.partitions.enabled ≠ live.current.partitions.enabled then
    throw (.invalidConfiguration live.outbox "partitions.enabled cannot change at runtime")
  return { live with current := o, version := live.version + 1 }

end LiveOptions

/-- What an outbox is to be built from. -/
structure Plan where
  outbox : String
  options : Options := {}
  hasRepository : Bool := false
  handler : Option HandlerKind := none
  hasStore : Bool := false

structure Registration where
  options : LiveOptions
  /-- Whether its partitions are looked after. -/
  managed : Bool

namespace Plan

/-- Competing workers and partitioning need items that track status. -/
def checkFeatures (p : Plan) (features : Features) : Except OutboxError Unit :=
  if !features.status ∧ (p.options.workerType.requiresStatus ∨ p.options.partitions.enabled) then
    .error (.statusNotSupported p.outbox)
  else .ok ()

def build (features : Features) (p : Plan) : Except OutboxError Registration := do
  p.options.validate p.outbox
  p.checkFeatures features
  if !p.hasRepository then throw (.invalidConfiguration p.outbox "no repository configured")
  let handler ← match p.handler with
    | some handler => pure handler
    | none => throw (.missingHandler p.outbox p.options.workerType.handlerKind)
  if p.options.partitions.enabled ∧ !p.hasStore then
    throw (.invalidConfiguration p.outbox
      "partitioning is enabled but no partition store is configured")
  p.options.workerType.accept p.outbox handler
  return { options := { outbox := p.outbox, current := p.options }, managed := p.options.partitions.enabled }

end Plan

end Outbox
