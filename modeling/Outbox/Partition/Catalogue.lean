import Outbox.Keyed
import Outbox.Partition.Range

/-!
The partitions of one table: those attached to it and those detached and not yet dropped.
-/

namespace Outbox

inductive StoreCall where
  | create (range : PartitionRange)
  | detach (name : String)
  | drop (name : String)
  deriving DecidableEq

namespace StoreCall

def partition : StoreCall → String
  | .create range => range.name
  | .detach name | .drop name => name

def verb : StoreCall → String
  | .create _ => "create"
  | .detach _ => "detach"
  | .drop _ => "drop"

end StoreCall

structure Catalogue where
  table : String
  /-- A plain table cannot have partitions. -/
  partitioned : Bool := true
  attached : Keyed PartitionRange.name := ∅
  detached : Keyed (id : String → String) := ∅

def PartitionRange.overlaps (a b : PartitionRange) : Bool := a.low < b.high && b.low < a.high

namespace Catalogue

def notPartitioned (c : Catalogue) : PartitionError :=
  .notPartitioned ("\"" ++ c.table ++ "\" is not partitioned")

/-- A name that is taken, attached or not, is left as it is. -/
def create (c : Catalogue) (range : PartitionRange) : Except PartitionError Unit × Catalogue :=
  if c.attached.contains range.name || c.detached.contains range.name then (.ok (), c)
  else match c.attached.toList.find? range.overlaps with
    | some other =>
      (.error (.other ("partition \"" ++ range.name ++ "\" would overlap partition \"" ++ other.name
        ++ "\"")), c)
    | none => (.ok (), { c with attached := c.attached.insert range })

def detach (c : Catalogue) (name : String) : Except PartitionError Unit × Catalogue :=
  if c.attached.contains name then
    (.ok (), { c with attached := c.attached.erase name, detached := c.detached.insert name })
  else (.error (.notFound name), c)

def drop (c : Catalogue) (name : String) : Except PartitionError Unit × Catalogue :=
  if c.attached.contains name || c.detached.contains name then
    (.ok (), { c with attached := c.attached.erase name, detached := c.detached.erase name })
  else (.error (.notFound name), c)

/-- Dropping is the one call that works on a plain table too. -/
def perform (c : Catalogue) : StoreCall → Except PartitionError Unit × Catalogue
  | .create range => if c.partitioned then c.create range else (.error c.notPartitioned, c)
  | .detach name => if c.partitioned then c.detach name else (.error c.notPartitioned, c)
  | .drop name => c.drop name

end Catalogue

end Outbox
