import Outbox.Sql.Statement

/-!
A database as its client sees it: commands go in one after another and each is answered. Rows come
back as columns with names and are read into items: id, payload and priority by their place, the
status by the columns' default names.
-/

namespace Outbox.Sql

inductive Cell where
  | null
  | id (id : ItemId)
  | text (s : String)
  | integer (n : Int32)
  | instant (t : Instant)
  deriving DecidableEq

structure Column where
  name : String
  cell : Cell
  deriving DecidableEq

abbrev Record := List Column

inductive Command where
  | begin
  | commit
  | rollback
  | run (s : Statement)
  deriving DecidableEq

inductive Answer where
  | rows (records : List Record)
  | affected (count : Nat)
  deriving DecidableEq

namespace Answer

/-- A statement that answers with a count returned no rows. -/
def records : Answer → List Record
  | .rows records => records
  | .affected _ => []

def count : Answer → Nat
  | .rows _ => 0
  | .affected count => count

end Answer

/-- Something that answers commands and goes on from a changed state. -/
abbrev Database (σ : Type) := Command → σ → Except DatabaseError Answer × σ

namespace Record

/-- What a column holds that must not be null. -/
def needed {α : Type} (column : String) (read? : Cell → Option α) (cell : Option Cell) :
    Except DatabaseError α :=
  match cell with
  | none => .error (.columnNotFound column)
  | some .null => .error (.unexpectedNull column)
  | some cell =>
    match read? cell with
    | some a => .ok a
    | none => .error (.columnNotFound column)

def id? : Cell → Option ItemId
  | .id id => some id
  | _ => none

def text? : Cell → Option String
  | .text s => some s
  | _ => none

def integer? : Cell → Option Int32
  | .integer n => some n
  | _ => none

def instant? : Cell → Option Instant
  | .instant t => some t
  | _ => none

def at? (r : Record) (place : Nat) : Option Cell := (r[place]?).map (·.cell)

def named? (r : Record) (name : String) : Option Cell := (r.find? (·.name = name)).map (·.cell)

def neededAt {α : Type} (r : Record) (place : Nat) (read? : Cell → Option α) : Except DatabaseError α :=
  needed (Decimal.text place) read? (at? r place)

def nullable {α : Type} (r : Record) (name : String) (read? : Cell → Option α) :
    Except DatabaseError (Option α) :=
  match named? r name with
  | none => .error (.columnNotFound name)
  | some .null => .ok none
  | some cell =>
    match read? cell with
    | some a => .ok (some a)
    | none => .error (.columnNotFound name)

def statusFields (r : Record) : Except DatabaseError StatusFields := do
  let code ← match named? r "status" with
    | none => throw (.columnNotFound "status")
    | cell => needed "\"status\"" integer? cell
  let status ← match Status.ofCode? code with
    | some status => pure status
    | none => throw (.unknownStatus code.toInt)
  let retryCount ← nullable r "retry_count" integer?
  let retryAfter ← nullable r "retry_after" instant?
  return { status, retryCount, retryAfter }

def item (features : Features) (r : Record) : Except DatabaseError Row := do
  let id ← neededAt r 0 id?
  let payload ← neededAt r 1 text?
  let priority ← if features.priority then neededAt r 2 integer? else pure 0
  let fields ← if features.status then statusFields r else pure {}
  return { id, payload, priority, fields }

end Record

end Outbox.Sql
