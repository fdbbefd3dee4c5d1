import Outbox.Sql.Database

/-!
What an operator does to an outbox in a database. Nothing is sent where nothing could come of it.
-/

namespace Outbox.Sql.Maintenance

variable {σ : Type} (db : Database σ) (features : Features)

def chunk (skip take : Nat) (s : σ) : Except OutboxError (List Row) × σ :=
  let (answer, s) := db (.run (.chunk skip take)) s
  ((answer.bind fun a => a.records.mapM (Record.item features)).mapError .database, s)

def clear (s : σ) : Except OutboxError Unit × σ :=
  let (answer, s) := db (.run .clear) s
  ((answer.map fun _ => ()).mapError .database, s)

/-- Deletes rows; answers how many there were. -/
def delete (ids : List ItemId) (s : σ) : Except OutboxError Nat × σ :=
  if ids = [] then (.ok 0, s)
  else
    let (answer, s) := db (.run (.delete ids)) s
    ((answer.map Answer.count).mapError .database, s)

/-- Puts rows back in the queue; answers how many there were. -/
def restart (ids : List ItemId) (s : σ) : Except OutboxError Nat × σ :=
  if !features.status ∨ ids = [] then (.ok 0, s)
  else
    let (answer, s) := db (.run (.restart ids)) s
    ((answer.map Answer.count).mapError .database, s)

end Outbox.Sql.Maintenance
