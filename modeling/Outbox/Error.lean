import Outbox.Text.Decimal

/-!
What can go wrong, and how it is told. `OutboxError.isMisconfiguration` marks the errors that will
not go away by trying again.
-/

namespace Outbox

/-- Why a database did not do what it was asked. -/
inductive DatabaseError where
  | rowNotFound
  /-- An error the server answered, with its code. -/
  | server (code message : String)
  | unreachable (reason : String)
  | columnNotFound (name : String)
  /-- A column that holds null where a value is needed; `column` is its name in quotes or its place. -/
  | unexpectedNull (column : String)
  | unknownStatus (code : Int)
  deriving DecidableEq, Repr

namespace DatabaseError

def message : DatabaseError → String
  | .rowNotFound => "no rows returned by a query that expected to return at least one row"
  | .server _ message => "error returned from database: " ++ message
  | .unreachable reason => "error communicating with database: " ++ reason
  | .columnNotFound name => "no column found for name: " ++ name
  | .unexpectedNull column =>
    "error occurred while decoding column " ++ column
      ++ ": unexpected null; try decoding as an `Option`"
  | .unknownStatus code =>
    "error occurred while decoding column \"status\": error occurred while decoding: invalid value "
      ++ Decimal.signedText code ++ " for enum OutboxItemStatus"

end DatabaseError

inductive HandlerKind where
  | item | batch
  deriving DecidableEq, Repr

def HandlerKind.name : HandlerKind → String
  | .item => "item"
  | .batch => "batch"

inductive OutboxError where
  | database (cause : DatabaseError)
  | transactionNotOpen
  | transactionAlreadyOpen
  | retryNotSupported
  | statusNotSupported (outbox : String)
  | partitioningNotConfigured (table : String)
  | partition (name reason : String)
  | invalidConfiguration (outbox reason : String)
  | missingHandler (outbox : String) (expected : HandlerKind)
  deriving DecidableEq, Repr

namespace OutboxError

def kind : OutboxError → String
  | .database _ => "Database"
  | .transactionNotOpen => "TransactionNotOpen"
  | .transactionAlreadyOpen => "TransactionAlreadyOpen"
  | .retryNotSupported => "RetryNotSupported"
  | .statusNotSupported _ => "StatusNotSupported"
  | .partitioningNotConfigured _ => "PartitioningNotConfigured"
  | .partition _ _ => "Partition"
  | .invalidConfiguration _ _ => "InvalidConfiguration"
  | .missingHandler _ _ => "MissingHandler"

def message : OutboxError → String
  | .database cause => "database error: " ++ cause.message
  | .transactionNotOpen => "no open transaction; lock_and_fetch must run before save"
  | .transactionAlreadyOpen => "a transaction is already open on this repository"
  | .retryNotSupported => "strict-ordering repositories cannot save retried items"
  | .statusNotSupported outbox => "item type of outbox `" ++ outbox ++ "` does not track status"
  | .partitioningNotConfigured table =>
    "table `" ++ table ++ "` is not partitioned but partitioning is enabled"
  | .partition name reason =>
    "partition `" ++ name ++ "` maintenance failed: " ++ reason
  | .invalidConfiguration outbox reason =>
    "invalid configuration for outbox `" ++ outbox ++ "`: " ++ reason
  | .missingHandler outbox expected =>
    "outbox `" ++ outbox ++ "` has no " ++ expected.name ++ " handler registered"

/-- An error of the set-up, which trying again does not mend. -/
def isMisconfiguration : OutboxError → Bool
  | .partitioningNotConfigured _ | .invalidConfiguration _ _ | .missingHandler _ _
  | .statusNotSupported _ => true
  | _ => false

end OutboxError

inductive PartitionError where
  | notPartitioned (detail : String)
  | notFound (partition : String)
  | other (reason : String)
  deriving DecidableEq, Repr

namespace PartitionError

def kind : PartitionError → String
  | .notPartitioned _ => "NotPartitioned"
  | .notFound _ => "NotFound"
  | .other _ => "Other"

def message : PartitionError → String
  | .notPartitioned detail => "table is not partitioned: " ++ detail
  | .notFound partition => "partition does not exist: " ++ partition
  | .other reason => reason

end PartitionError

end Outbox
