import Outbox.Options.Json
import Outbox.Rehearsal.Demo
import Outbox.Sql.Preview

/-!
The command line: a demonstration in virtual time and a preview of partition upkeep.
-/

namespace Outbox

inductive CommandLine where
  | demo (d : Rehearsal.Demo) (workerType : Option WorkerType) (config : Bool)
  | partitions (m : Sql.Mapping) (now : Instant) (config : Bool)

namespace CommandLine

def usage : String :=
  "usage: outbox demo [--seconds N] [--worker-type TYPE] [--items N] [--fail-every N] [--delay-ms N]\n"
    ++ "                   [--config]\n"
    ++ "       outbox partitions --table NAME --now TIME [--schema NAME] [--config]\n"
    ++ "With --config the options are read from standard input as JSON."

def flags (names : List String) : List String → Except String (List (String × String))
  | [] => .ok []
  | "--config" :: rest => (flags names rest).map (("--config", "") :: ·)
  | [flag] => .error ("no value or unknown argument: " ++ flag)
  | flag :: value :: rest =>
    if flag ∈ names then (flags names rest).map ((flag, value) :: ·)
    else .error ("unknown argument: " ++ flag)

def number (given : List (String × String)) (flag : String) (left : UInt64) : Except String UInt64 :=
  match given.lookup flag with
  | none => .ok left
  | some text =>
    match (Json.parse? text).bind Json.uint64? with
    | some n => .ok n
    | none => .error ("no number: " ++ flag ++ " " ++ text)

def needed (given : List (String × String)) (flag : String) : Except String String :=
  match given.lookup flag with
  | some text => .ok text
  | none => .error ("missing argument: " ++ flag)

def parse : List String → Except String CommandLine
  | "demo" :: args => do
    let given ← flags ["--seconds", "--worker-type", "--items", "--fail-every", "--delay-ms"] args
    let workerType ← match given.lookup "--worker-type" with
      | none => pure none
      | some name =>
        match WorkerType.ofName? name with
        | some w => pure (some w)
        | none => throw (WorkerType.unknownName name)
    let delay ← number given "--delay-ms" 500
    let d : Rehearsal.Demo :=
      { seconds := ← number given "--seconds" 5
        items := (← number given "--items" 20).toNat
        failEvery := (← number given "--fail-every" 4).toNat
        options := { workerDelay := .ofMillis delay, itemsLimit := 5 } }
    return .demo d workerType (given.lookup "--config").isSome
  | "partitions" :: args => do
    let given ← flags ["--table", "--schema", "--now"] args
    let time ← needed given "--now"
    let now ← match Instant.ofText? time with
      | some now => pure now
      | none => throw ("no instant: " ++ time)
    let m : Sql.Mapping := { table := ← needed given "--table", schema := given.lookup "--schema" }
    return .partitions m now (given.lookup "--config").isSome
  | _ => .error usage

def readsConfig : CommandLine → Bool
  | .demo _ _ config | .partitions _ _ config => config

/-- What the command prints, given the options it reads. -/
def run (options : Option Options) : CommandLine → Except OutboxError (List String)
  | .demo d workerType _ =>
    let o := options.getD d.options
    { d with options := { o with workerType := workerType.getD o.workerType } }.run .epoch
  | .partitions m now _ =>
    let s := { (options.getD {}).partitions with enabled := true }
    (Sql.upkeepStatements m s now).map fun statements => statements.map fun s => s.text m ++ ";"

end CommandLine

end Outbox
