import Outbox.CommandLine

/-!
The program: reads its arguments and, where they ask for it, options from standard input.
-/

def main (args : List String) : IO UInt32 := do
  match Outbox.CommandLine.parse args with
  | .error message =>
    IO.eprintln message
    return 2
  | .ok command =>
    let text ← if command.readsConfig then (← IO.getStdin).readToEnd else pure "\x7b\x7d"
    match Outbox.Options.ofText? text with
    | none =>
      IO.eprintln "the options cannot be read"
      return 1
    | some options =>
      match command.run (if command.readsConfig then some options else none) with
      | .error e =>
        IO.eprintln e.message
        return 1
      | .ok lines =>
        for line in lines do
          IO.println line
        return 0
