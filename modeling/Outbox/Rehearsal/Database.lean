import Outbox.Sql.Database

/-!
A database for rehearsals. It answers from a script, keeps a log of what it did and may be out of
reach, in which case it does nothing.
-/

namespace Outbox.Rehearsal

/-- A row of a scripted answer. -/
structure ScriptedRow where
  id : ItemId
  payload : String := "ok"
  priority : Option Int32 := none
  status : Option Int32 := none
  retryCount : Option Int32 := none
  retryAfter : Option Instant := none

inductive ScriptedAnswer where
  | rows (l : List ScriptedRow)
  | affected (count : Nat)
  | error (code message : String)

/-- An answer kept for one command of a transaction, or else for any statement. -/
structure ScriptedReply where
  only : Option Sql.Command := none
  answer : ScriptedAnswer

def ScriptedReply.fits (reply : ScriptedReply) : Sql.Command → Bool
  | .run _ => reply.only = none
  | .rollback => false
  | command => reply.only = some command

structure ScriptedDatabase where
  features : Features
  mapping : Sql.Mapping := {}
  /-- Why the database is out of reach, if it is. -/
  fault : Option String := none
  replies : List ScriptedReply := []
  /-- The commands since the log was opened, the last one first. -/
  log : List Sql.Command := []

/-- The database keeps whole microseconds. -/
def wholeMicros (t : Instant) : Instant :=
  (Instant.make? t.second (t.nano / 1000 * 1000)).getD t

def ScriptedRow.record (features : Features) (m : Sql.Mapping) (r : ScriptedRow) : Sql.Record :=
  let integer (n : Option Int32) : Sql.Cell := (n.map .integer).getD .null
  [⟨m.id, .id r.id⟩, ⟨"payload", .text r.payload⟩]
    ++ (if features.priority then [⟨m.priority, integer r.priority⟩] else [])
    ++ if features.status then
        [⟨m.status, integer r.status⟩, ⟨m.retryCount, integer r.retryCount⟩,
         ⟨m.retryAfter, (r.retryAfter.map fun t => .instant (wholeMicros t)).getD .null⟩]
      else []

namespace ScriptedDatabase

def read (d : ScriptedDatabase) : ScriptedAnswer → Except DatabaseError Sql.Answer
  | .rows l => .ok (.rows (l.map (·.record d.features d.mapping)))
  | .affected count => .ok (.affected count)
  | .error code message => .error (.server code message)

/-- Answers with the first reply of the script if it is for the command, and else that all went well
and nothing was found. -/
def perform : Sql.Database ScriptedDatabase := fun command d =>
  match d.fault with
  | some reason => (.error (.unreachable reason), d)
  | none =>
    let d := { d with log := command :: d.log }
    match d.replies with
    | [] => (.ok (.affected 0), d)
    | reply :: rest =>
      if reply.fits command then (d.read reply.answer, { d with replies := rest })
      else (.ok (.affected 0), d)

/-- Opens the log and puts in a script; what was left of the last one is gone. -/
def prepare (replies : List ScriptedReply) (d : ScriptedDatabase) : ScriptedDatabase :=
  { d with replies, log := [] }

end ScriptedDatabase

end Outbox.Rehearsal
