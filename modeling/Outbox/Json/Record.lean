import Outbox.Json
import Outbox.Instant

/-!
Reading typed values from JSON. A record is read from an object or from an array of its fields in
order. Unknown keys of an object are passed over and known ones may stand once.
-/

namespace Outbox.Json

def bool? : Json → Option Bool
  | .bool b => some b
  | _ => none

def string? : Json → Option String
  | .string text => text
  | _ => none

/-- An integer written without fraction and exponent; zero has no sign. -/
def int? : Json → Option Int
  | .number ('-' :: ds) =>
    if ds.all Char.isDigit ∧ Decimal.value ds ≠ 0 then some (-(Decimal.value ds : Int)) else none
  | .number ds => if ds.all Char.isDigit then some (Decimal.value ds) else none
  | _ => none

def nat? (j : Json) : Option Nat :=
  match j.int? with
  | some (.ofNat n) => some n
  | _ => none

def uint64? (j : Json) : Option UInt64 :=
  match j.nat? with
  | some n => if h : n < UInt64.size then some (.ofNatLT n h) else none
  | none => none

def uint32? (j : Json) : Option UInt32 :=
  match j.nat? with
  | some n => if h : n < UInt32.size then some (.ofNatLT n h) else none
  | none => none

def int32? (j : Json) : Option Int32 :=
  match j.int? with
  | some n => if Int32.minValue.toInt ≤ n ∧ n ≤ Int32.maxValue.toInt then some (.ofInt n) else none
  | none => none

def duration? (j : Json) : Option Duration := j.uint64?.map .ofMillis

def option? {α : Type} (read? : Json → Option α) : Json → Option (Option α)
  | .null => some none
  | j => (read? j).map some

/-- One of some named values: its name, or an object of the name alone and null. -/
def named? {α : Type} (all : List α) (name : α → String) : Json → Option α
  | .string (some s) => all.find? (name · = s)
  | .object [(some s, .null)] => all.find? (name · = s)
  | _ => none

structure Fields where
  /-- The fields came in order, without their names. -/
  inOrder : Bool
  given : List (String × Json)

def fields? (names : List String) : Json → Option Fields
  | .array elements =>
    if elements.length ≤ names.length then some { inOrder := true, given := names.zip elements }
    else none
  | .object members =>
    if members.all (·.1.isSome) then
      let known := members.filterMap fun (key, v) =>
        key.bind fun k => if k ∈ names then some (k, v) else none
      if (known.map (·.1)).Nodup then some { inOrder := false, given := known } else none
    else none
  | _ => none

namespace Fields

variable {α : Type}

def find? (f : Fields) (name : String) : Option Json := f.given.lookup name

def required? (f : Fields) (name : String) (read? : Json → Option α) : Option α :=
  (f.find? name).bind read?

/-- A field that may be left out of a record of named fields, which means null. -/
def nullable? (f : Fields) (name : String) (read? : Json → Option α) : Option (Option α) :=
  match f.find? name with
  | some j => option? read? j
  | none => if f.inOrder then none else some none

/-- A field that has a value of its own when it is left out. -/
def orElse? (f : Fields) (name : String) (read? : Json → Option α) (left : α) : Option α :=
  match f.find? name with
  | some j => read? j
  | none => some left

end Fields

end Outbox.Json
