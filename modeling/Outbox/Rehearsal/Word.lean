import Outbox.Text.Decimal
import Outbox.Item

/-!
Scripts for handlers. The payload of an item is a script of words with `/` between them: one word for
each time the item is handed over, the last one for all further times.
-/

namespace Outbox.Rehearsal

inductive Word where
  | ok
  | skip
  | retry
  | boom
  /-- Nothing is said about the item. -/
  | missing
  /-- Cancels the token of the tick and waits for good. -/
  | cancel
  /-- Cancels the token of the tick and goes on. -/
  | late
  | sleep (ms : UInt64)
  /-- Runs a tick of another worker inside the handler. -/
  | nest (worker : String)
  deriving DecidableEq, Repr

namespace Word

/-- A number of milliseconds with an optional sign. -/
def millis? (cs : List Char) : Option UInt64 :=
  let ds := match cs with
    | '+' :: rest => rest
    | _ => cs
  if ds ≠ [] ∧ ds.all Char.isDigit then
    if h : Decimal.value ds < UInt64.size then some (.ofNatLT (Decimal.value ds) h) else none
  else none

def after? (start : String) (cs : List Char) : Option (List Char) :=
  if start.toList.isPrefixOf cs then some (cs.drop start.length) else none

/-- A word that is none of the known ones means that all is well. -/
def ofChars (cs : List Char) : Word :=
  if cs = "retry".toList then .retry
  else if cs = "skip".toList then .skip
  else if cs = "boom".toList then .boom
  else if cs = "missing".toList then .missing
  else if cs = "cancel".toList then .cancel
  else if cs = "late".toList then .late
  else match after? "sleep:" cs with
    | some ms => ((millis? ms).map Word.sleep).getD .ok
    | none =>
      match after? "nest:" cs with
      | some worker => .nest (.ofList worker)
      | none => .ok

/-- The first word of a script and those after it. -/
def cut : List Char → List Char × List (List Char)
  | [] => ([], [])
  | c :: cs =>
    let (word, rest) := cut cs
    if c = '/' then ([], word :: rest) else (c :: word, rest)

/-- The word of a payload that was acted on `n` times before. -/
def ofPayload (payload : String) (n : Nat) : Word :=
  let (first, rest) := cut payload.toList
  let words := first :: rest
  ofChars (words.getD (min n rest.length) [])

end Word

end Outbox.Rehearsal
