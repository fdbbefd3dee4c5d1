import Outbox.Rehearsal.Bench

/-!
Ticks and their handlers. A handler may wait over a row; there a cancelled token is noticed, and there
a tick may be put aside until its time has come. Handlers of rehearsals do what the scripts of their
rows say. A tick may run inside the handler of another: if the token of the outer one is cancelled,
the inner one is swept away with it.
-/

namespace Outbox.Rehearsal

/-- What a handler says about one item. -/
inductive Said where
  | verdict (v : Verdict)
  | failed
  | nothing
  deriving DecidableEq, Repr

/-- A handler of one item that says nothing about it did well. -/
def Said.verdict? : Said → Option Verdict
  | .verdict v => some v
  | .failed => none
  | .nothing => some .ok

/-- What the handler of a batch has said so far. -/
structure Notes where
  outcome : BatchOutcome := {}
  failed : Bool := false

namespace Notes

def add (row : Row) (said : Said) (n : Notes) : Notes :=
  match said with
  | .verdict v => { n with outcome := n.outcome.add row.id v }
  | .failed => { n with failed := true }
  | .nothing => n

/-- One failure fails the whole batch. -/
def outcome? (n : Notes) : Option BatchOutcome := if n.failed then none else some n.outcome

end Notes

structure Play where
  worker : WorkerKey
  session : Session
  /-- Whether the token of the tick is cancelled. -/
  cancelled : Bool := false
  /-- Whether the token of a tick around it is cancelled. -/
  abandoned : Bool := false

/-- Why a handler never comes back: its own tick is cancelled, or one around it. -/
inductive Halt where
  | cancelled | swept
  deriving DecidableEq, Repr

/-- The row that a handler waits over and those that it has still to be given. -/
inductive Remainder where
  | items (row : Row) (rest : List Row)
  | batch (row : Row) (rest : List Row) (notes : Notes)

/-- How the handlers of a tick came to a stop. -/
inductive Stop where
  | ended
  | halted (why : Halt)
  | paused (ms : UInt64) (left : Remainder)

/-- What becomes of a row that is handed over. -/
inductive Turn where
  | said (s : Said)
  | halted (why : Halt)
  | paused (ms : UInt64)

structure Reply where
  turn : Turn
  /-- Whether the token of the tick was cancelled. -/
  cancels : Bool := false
  bench : Bench

/-- What handlers do with a row when it is handed over, and when a wait over it has passed. -/
abbrev Handling := (awake : Bool) → Row → Play → Bench → Reply

/-- What scripts may do beside answering. -/
structure Setting where
  /-- Runs a tick of the worker of a name inside another; whether it was swept away. -/
  nest : String → Play → Bench → Bool × Bench
  /-- Whether a wait puts the tick aside. -/
  pauses : Bool

namespace Play

def halt (p : Play) : Halt := if p.abandoned then .swept else .cancelled

end Play

/-- Handlers that do what the words of their rows say. -/
def Handling.scripted (s : Setting) : Handling := fun awake row p b =>
  if awake then { turn := .said (.verdict .ok), bench := b }
  else
    let (word, b) := b.hand row
    let well : Reply := { turn := .said (.verdict .ok), bench := b }
    match word with
    | .ok => well
    | .skip => { well with turn := .said (.verdict .skip) }
    | .retry => { well with turn := .said (.verdict .retry) }
    | .boom => { well with turn := .said .failed }
    | .missing => { well with turn := .said .nothing }
    | .late => { well with cancels := true }
    | .cancel => { well with turn := .halted p.halt, cancels := true }
    | .sleep ms =>
      if ms = 0 then well
      else if p.abandoned ∨ p.cancelled then { well with turn := .halted p.halt }
      else if s.pauses then { well with turn := .paused ms }
      else well
    | .nest name =>
      let (swept, b) := s.nest name p b
      if swept then { turn := .halted p.halt, bench := b } else { well with bench := b }

namespace Play

def act (a : Act) (p : Play) (b : Bench) : Play × Bench :=
  let (session, table, samples) := p.session.act b.now b.table a
  let told := session.tick.retried.length - p.session.tick.retried.length
  let retries := if p.session.job.options.retry.logOnRetry then b.log.retries + told else b.log.retries
  ({ p with session }, { b with table, log := { b.log with retries } }.record p.worker samples)

def heed (r : Reply) (p : Play) : Play := { p with cancelled := p.cancelled || r.cancels }

/-- Hands over the items of a tick one by one. -/
def items (h : Handling) : Bool → List Row → Play → Bench → Stop × Play × Bench
  | _, [], p, b => (.ended, p, b)
  | awake, row :: rest, p, b =>
    let reply := h awake row p (if awake then b else b.call (.item row.id))
    let p := p.heed reply
    match reply.turn with
    | .halted why => (.halted why, p, reply.bench)
    | .paused ms => (.paused ms (.items row rest), p, reply.bench)
    | .said said =>
      let (p, b) := p.act (.answer (.verdict said.verdict?)) reply.bench
      match p.session.tick with
      | .item .. => items h false rest p b
      | _ => (.ended, p, b)

/-- Goes through a batch inside one call of its handler. -/
def batch (h : Handling) : Bool → List Row → Notes → Play → Bench → Stop × Play × Bench
  | _, [], notes, p, b =>
    let (p, b) := p.act (.answer (.outcome notes.outcome?)) b
    (.ended, p, b)
  | awake, row :: rest, notes, p, b =>
    let reply := h awake row p b
    let p := p.heed reply
    match reply.turn with
    | .halted why => (.halted why, p, reply.bench)
    | .paused ms => (.paused ms (.batch row rest notes), p, reply.bench)
    | .said said => batch h false rest (notes.add row said) p reply.bench

/-- The handlers of a tick that has its rows. -/
def handle (h : Handling) (p : Play) (b : Bench) : Stop × Play × Bench :=
  match p.session.tick with
  | .item _ _ row rest => items h false (row :: rest) p b
  | .batch rows =>
    let allProcessed := ((b.worker? p.worker).map (·.allProcessed)).getD false
    batch h false rows { outcome := { allProcessed } } p (b.call (.batch (rows.map (·.id))))
  | _ => (.ended, p, b)

/-- The handlers go on after a wait. -/
def wake (h : Handling) (left : Remainder) (p : Play) (b : Bench) : Stop × Play × Bench :=
  match left with
  | .items row rest => items h true (row :: rest) p b
  | .batch row rest notes => batch h true (row :: rest) notes p b

end Play

/-- A tick that was run for as long as it could. -/
inductive Played where
  | ended (report : TickReport) (cancelled : Bool)
  | swept
  | paused (ms : UInt64) (left : Remainder) (p : Play)

namespace Played

/-- The save of a tick whose handlers are through, or its end. -/
def finish : Stop × Play × Bench → Played × Bench
  | (.ended, p, b) =>
    let (p, b) := match p.session.tick with
      | .saving .. =>
        let (fault, b) := b.takeFault .save
        p.act (.save fault) b
      | _ => (p, b)
    (.ended (p.session.tick.report?.getD { status := .failed }) p.cancelled, b)
  | (.halted .cancelled, p, b) =>
    let (p, b) := p.act .cancel b
    (.ended (p.session.tick.report?.getD { status := .cancelled }) p.cancelled, b)
  | (.halted .swept, p, b) => (.swept, (p.act .cancel b).2)
  | (.paused ms left, p, b) => (.paused ms left p, b)

def start (h : Handling) (p : Play) (b : Bench) : Played × Bench :=
  let (p, b) := match p.session.tick with
    | .fetching =>
      let (fault, b) := b.takeFault .fetch
      p.act (.fetch fault) b
    | _ => (p, b)
  finish (p.handle h b)

def resume (h : Handling) (left : Remainder) (p : Play) (b : Bench) : Played × Bench :=
  finish (p.wake h left b)

end Played

/-- A tick of a worker about to begin. -/
def Worker.play (w : Worker) (features : Features) (key : WorkerKey) (options : Options)
    (cancelled abandoned : Bool) (jitter : Option (ItemId → Fin RetrySettings.maxJitter)) : Play :=
  { worker := key, session := .start { worker := w.type, features, options, jitter } cancelled,
    cancelled, abandoned }

namespace Bench

/-- Runs a tick to its end without regard to time, with ticks inside it down to a depth. -/
def tick : Nat → WorkerKey → Options → Bool → Bool → Bench → Option Played × Bench
  | depth, key, options, cancelled, abandoned, b =>
    match b.worker? key with
    | none => (none, b)
    | some w =>
      let nest := match depth with
        | 0 => fun _ _ b => (false, b)
        | depth + 1 => fun name p b =>
          match tick depth (.direct name) options false (p.abandoned || p.cancelled) b with
          | (some (.ended report _), b) => (false, b.addNested name report)
          | (some .swept, b) => (true, b)
          | (_, b) => (false, b)
      let (played, b) := Played.start (.scripted { nest, pauses := false })
        (w.play b.features key options cancelled abandoned none) b
      (some played, b)

end Bench

end Outbox.Rehearsal
