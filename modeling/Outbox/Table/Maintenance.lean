import Outbox.Table

/-!
What an operator does to a table. Locks are neither taken nor looked at.
-/

namespace Outbox.Table

def chunk (skip take : Nat) (t : Table) : List Row := (t.rows.toList.drop skip).take take

def clear (t : Table) : Table := { t with rows := ∅ }

/-- Deletes rows; answers how many there were. -/
def delete (t : Table) : List ItemId → Nat × Table
  | [] => (0, t)
  | id :: rest =>
    let (n, t') := delete { t with rows := t.rows.erase id } rest
    (if t.rows.contains id then n + 1 else n, t')

/-- Puts rows back in the queue; answers how many times a row was put back. -/
def restart (features : Features) (t : Table) : List ItemId → Nat × Table
  | [] => (0, t)
  | id :: rest =>
    let rows := t.rows.modify id (·.modifyStatus features .restart)
    let (n, t') := restart features { t with rows } rest
    (if features.status && t.rows.contains id then n + 1 else n, t')

end Outbox.Table
