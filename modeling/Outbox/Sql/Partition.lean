import Outbox.Sql.Database

/-!
Partitions kept by a database. Its errors are told apart by their texts and, where these say
nothing, by their codes.
-/

namespace Outbox.Sql

def mentions (text part : String) : Bool := go text.toList
where
  go : List Char → Bool
    | [] => part.toList.isEmpty
    | c :: cs => part.toList.isPrefixOf (c :: cs) || go cs

/-- What an error of the server says about a partition. -/
def classifyServer (code message table partition : String) : PartitionError :=
  if mentions message "is not partitioned" then .notPartitioned table
  else if mentions message "is not a partition of" || mentions message "does not exist" then
    .notFound partition
  else if code = "42P01" then .notFound partition
  else if code = "42809" then .notPartitioned table
  else .other message

def classify (table partition : String) : DatabaseError → PartitionError
  | .server code message => classifyServer code message table partition
  | e => .other e.message

def Statement.ofStoreCall : StoreCall → Statement
  | .create range => .createPartition range
  | .detach name => .detachPartition name
  | .drop name => .dropPartition name

variable {σ : Type}

/-- A store of partitions: each call is one statement of its own. -/
def perform (db : Database σ) (table : String) (s : σ) (call : StoreCall) :
    Except PartitionError Unit × σ :=
  let (answer, s) := db (.run (.ofStoreCall call)) s
  ((answer.map fun _ => ()).mapError (classify table call.partition), s)

end Outbox.Sql
