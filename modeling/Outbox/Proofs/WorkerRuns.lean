import Outbox.Loop.Worker
import Outbox.Proofs.Registration
import Outbox.Proofs.Runs
import Outbox.Proofs.Sessions

/-!
The loop of a worker among everything it waits for: its timer, new options, its token and the tick it
runs. Whichever of the things that are ready it takes first, every firing runs one tick if the worker is
switched on then and no other step does, and the times of all firings follow from when the delay was
changed and how long the ticks took (`on_time`).
-/

namespace Outbox

namespace Act

/-- Only a tick whose token is cancelled is given up. -/
def isAllowed (cancelled : Bool) : Act → Bool
  | .cancel => cancelled
  | _ => true

end Act

namespace WorkerRuns

/-- What the loop does. A delay that was published at `changed` sets the timer anew at `time`. -/
inductive Beat where
  | fired (time : Nat) (options : Options)
  | ticked (lasted : Nat) (report : TickReport)
  | rearmed (time changed : Nat) (delay : Duration)
  | stopped

/-- The loop with what it waits for. Its tick is there with the time at which it began. -/
structure World where
  features : Features
  worker : WorkerType
  time : Nat := 0
  beats : List Beat := []
  live : LiveOptions
  /-- When the published delay became what it is. -/
  changed : Nat := 0
  /-- The version of the options that the loop has taken note of. -/
  seen : Nat
  loop : WorkerLoop
  cancelled : Bool := false
  tick : Option (Nat × Session) := none
  table : Table
  metrics : Metrics

inductive Event where
  | pass (ns : Nat)
  | publish (o : Options)
  | cancel
  /-- The loop finds new options. -/
  | notice
  /-- The loop finds its timer due. -/
  | fire (jitter : Option (ItemId → Fin RetrySettings.maxJitter))
  /-- The loop finds its token cancelled. -/
  | stop
  | act (now : Instant) (a : Act)
  | change (t : Table)

namespace World

def start (features : Features) (worker : WorkerType) (live : LiveOptions) (table : Table) : World where
  features
  worker
  live
  seen := live.version
  loop := .start 0 live.current
  table
  metrics := { outbox := live.outbox }

/-- A tick that is over is reported to the loop. -/
def settle (w : World) : World :=
  match w.tick with
  | some (began, s) =>
    match s.tick with
    | .ended report =>
      let (loop, samples) := w.loop.finish report
      { w with
        loop
        tick := none
        metrics := w.metrics.recordAll samples
        beats := w.beats ++ [.ticked (w.time - began) report] }
    | _ => w
  | none => w

def notice (w : World) : World :=
  let o := w.live.current
  { w with
    loop := w.loop.notice w.time o
    seen := w.live.version
    beats := if o.workerDelay = w.loop.delay then w.beats
      else w.beats ++ [.rearmed w.time w.changed o.workerDelay] }

/-- A firing: a tick begins with the options in force if the worker is switched on. -/
def fire (jitter : Option (ItemId → Fin RetrySettings.maxJitter)) (w : World) : World :=
  let o := w.live.current
  let job : Job := { worker := w.worker, features := w.features, options := o, jitter }
  { w with
    loop := (w.loop.fire w.time o.isWorkerEnabled).1
    tick := if o.isWorkerEnabled then some (w.time, .start job w.cancelled) else none
    metrics := w.metrics.recordAll (w.loop.fire w.time o.isWorkerEnabled).2
    beats := w.beats ++ [.fired w.time o] }

def act (now : Instant) (a : Act) (began : Nat) (s : Session) (w : World) : World :=
  { w with
    tick := some (began, (s.act now w.table a).1)
    table := (s.act now w.table a).2.1
    metrics := w.metrics.recordAll (s.act now w.table a).2.2 }

/-- One step. What the loop is not ready for changes nothing; of all it is ready for it may take any. -/
def step (w : World) : Event → World
  | .pass ns => { w with time := w.time + ns }
  | .publish o =>
    match w.live.update o with
    | .ok live =>
      { w with live, changed := if o.workerDelay = w.live.current.workerDelay then w.changed else w.time }
    | .error _ => w
  | .cancel => { w with cancelled := true }
  | .notice => if w.loop.stage = .waiting ∧ w.seen ≠ w.live.version then w.notice else w
  | .fire jitter => if w.loop.stage = .waiting ∧ w.loop.timer.due ≤ w.time then (w.fire jitter).settle else w
  | .stop =>
    if w.loop.stage = .waiting ∧ w.cancelled then
      { w with loop := w.loop.cancel, beats := w.beats ++ [.stopped] }
    else w
  | .act now a =>
    match w.tick with
    | some (began, s) => if a.isAllowed w.cancelled then (w.act now a began s).settle else w
    | none => w
  | .change table => { w with table }

/-- No time goes by while the loop waits and could do something, and none beyond its timer. -/
def Prompt (w : World) : Event → Prop
  | .pass ns => w.loop.stage = .waiting →
      w.cancelled = false ∧ w.seen = w.live.version ∧ w.time + ns ≤ w.loop.timer.due
  | _ => True

end World

/-! ### What the loop does in which order -/

namespace Beat

def isFiring : Beat → Bool
  | .fired .. => true
  | _ => false

def isTick : Beat → Bool
  | .ticked .. => true
  | _ => false

/-- The stage that a loop is in afterwards. Only a firing begins a tick, and only with the worker
switched on; only a cancelled tick or the token ends the loop. -/
def follow : WorkerLoop.Stage → Beat → Option WorkerLoop.Stage
  | .waiting, .fired _ o => some (if o.isWorkerEnabled then .ticking else .waiting)
  | .ticking, .ticked _ report => some (if report.status = .cancelled then .ended else .waiting)
  | .waiting, .rearmed .. => some .waiting
  | .waiting, .stopped => some .ended
  | _, _ => none

end Beat

/-! ### When the loop does it -/

/-- What decides about the times of firings: that the timer fires, that the tick after it takes time,
and that another delay is published. -/
inductive Input where
  | fire
  | busy (ns : Nat)
  | rearm (changed : Nat) (delay : Duration)
  deriving DecidableEq

def Beat.inputs : Beat → List Input
  | .fired .. => [.fire]
  | .ticked lasted _ => if lasted = 0 then [] else [.busy lasted]
  | .rearmed _ changed delay => [.rearm changed delay]
  | .stopped => []

def Beat.firing? : Beat → Option Nat
  | .fired time _ => some time
  | _ => none

/-- The timer, and when the loop came back to it from the last firing. -/
structure Pace where
  timer : Timer
  back : Nat := 0

namespace Pace

def start (delay : Duration) : Pace := { timer := .start 0 delay }

/-- The next firing, unless the timer is set anew before. -/
def next (p : Pace) : Nat := max p.timer.due p.back

def step (p : Pace) : Input → Pace
  | .fire => { timer := p.timer.fire p.next, back := p.next }
  | .busy ns => { p with back := p.back + ns }
  | .rearm changed delay => { p with timer := .start (max p.back changed) delay }

def firings (p : Pace) : List Input → List Nat
  | [] => []
  | .fire :: rest => p.next :: firings (p.step .fire) rest
  | i :: rest => firings (p.step i) rest

theorem firings_append (p : Pace) (earlier later : List Input) :
    p.firings (earlier ++ later) = p.firings earlier ++ (earlier.foldl step p).firings later := by
  induction earlier generalizing p with
  | nil => rfl
  | cons i rest ih => cases i <;> simp only [List.cons_append, firings, List.foldl_cons, ih]

end Pace

namespace World

def inputs (w : World) : List Input := w.beats.flatMap Beat.inputs

def firings (w : World) : List Nat := w.beats.filterMap Beat.firing?

end World

end WorkerRuns

/-! ### Steps of a tick as the loop sees them -/

namespace Tick

variable {job : Job} {now : Instant} {tick : Tick} {r : Reply} {report : TickReport}

/-- No answer gives a tick up. -/
theorem next_report (going : tick.report? = none) (ended : tick.next job now r = .ended report) :
    report.status ≠ .cancelled := by
  unfold next at ended
  split at ended
  · rename_i rows
    cases rows with
    | nil =>
      cases ended
      decide
    | cons row rest =>
      simp only [afterFetch] at ended
      split at ended <;> cases ended
  · cases ended
    decide
  · rename_i n d row rest v
    have working := Session.afterItem_isWorking n rest (d.settle job now row (some (v.getD .retry)))
    rw [ended] at working
    cases working
  · cases ended
  · cases ended
    intro cancelled
    cases cancelled
  · cases ended
    decide
  · rw [ended] at going
    cases going

theorem samples_own (tick : Tick) (job : Job) (r : Reply) :
    ∀ x ∈ tick.samples job r, x ≠ .slept ∧ x ≠ .processed := by
  unfold samples
  split <;> simp

end Tick

theorem Metrics.recordAll_own {samples : List Sample} (own : ∀ x ∈ samples, x ≠ .slept ∧ x ≠ .processed)
    (m : Metrics) : (m.recordAll samples).sleeps = m.sleeps ∧ (m.recordAll samples).processes = m.processes := by
  induction samples generalizing m with
  | nil => exact ⟨rfl, rfl⟩
  | cons x rest ih =>
    obtain ⟨sleeps, processes⟩ := ih (fun y member => own y (List.mem_cons_of_mem _ member)) (m.record x)
    have first := own x List.mem_cons_self
    simp only [recordAll, List.foldl_cons] at sleeps processes ⊢
    rw [sleeps, processes]
    cases x <;> first | exact ⟨rfl, rfl⟩ | simp at first

namespace Session

variable {s : Session}

/-- A step answers the tick, gives it up or does nothing to it. -/
theorem act_tick (now : Instant) (s : Session) (t : Table) (a : Act) :
    (s.act now t a).1.tick = s.tick ∧ (s.act now t a).2.2 = [] ∨
      a = .cancel ∧ (s.act now t a).1.tick = s.tick.cancel ∧ (s.act now t a).2.2 = [] ∨
      ∃ r, (s.act now t a).1.tick = s.tick.next s.job now r ∧ (s.act now t a).2.2 = s.tick.samples s.job r := by
  obtain ⟨job, repository, tick⟩ := s
  cases a with
  | fetch fault =>
    cases tick with
    | fetching =>
      cases fault with
      | none =>
        exact .inr (.inr ⟨.fetched (repository.fetch job.features now job.limit t).1, settle_tick _ _, rfl⟩)
      | some e => exact .inr (.inr ⟨.fetched (.error e), rfl, rfl⟩)
    | _ => exact .inl ⟨rfl, rfl⟩
  | answer r =>
    cases r with
    | verdict v => exact .inr (.inr ⟨.verdict v, rfl, rfl⟩)
    | outcome b => exact .inr (.inr ⟨.outcome b, rfl, rfl⟩)
    | _ => exact .inl ⟨rfl, rfl⟩
  | save fault =>
    cases tick with
    | saving n d =>
      cases fault with
      | none =>
        refine .inr (.inr ⟨.saved (repository.save job.features (d.processed.map (·.id)) d.retried t).1, ?_, rfl⟩)
        simp only [act]
        exact settle_tick _ _
      | some e => exact .inr (.inr ⟨.saved (.error e), rfl, rfl⟩)
    | _ => exact .inl ⟨rfl, rfl⟩
  | cancel => exact .inr (.inl ⟨rfl, settle_tick _ _, rfl⟩)

theorem act_own (now : Instant) (s : Session) (t : Table) (a : Act) :
    ∀ x ∈ (s.act now t a).2.2, x ≠ .slept ∧ x ≠ .processed := by
  rcases act_tick now s t a with ⟨-, samples⟩ | ⟨-, -, samples⟩ | ⟨r, -, samples⟩
  · simp [samples]
  · simp [samples]
  · rw [samples]
    exact s.tick.samples_own s.job r

/-- Only giving a tick up makes it a cancelled one. -/
theorem act_cancelled {now : Instant} {t : Table} {a : Act} {report : TickReport}
    (going : s.tick.report? = none) (ended : (s.act now t a).1.tick = .ended report)
    (cancelled : report.status = .cancelled) : a = .cancel := by
  rcases act_tick now s t a with ⟨same, -⟩ | ⟨rfl, -, -⟩ | ⟨r, next, -⟩
  · rw [same] at ended
    rw [ended] at going
    cases going
  · rfl
  · exact absurd cancelled (Tick.next_report going (next.symm.trans ended))

end Session

theorem WorkerLoop.fire_delay (now : Nat) (enabled : Bool) (l : WorkerLoop) :
    (l.fire now enabled).1.delay = l.delay := by
  obtain ⟨delay, timer, stage⟩ := l
  exact Eq.refl delay

namespace WorkerRuns

namespace World

variable {w : World} {e : Event} {events : List Event} {report : TickReport} {began : Nat} {s : Session}

/-! ### One tick for each firing with the worker switched on -/

/-- The loop keeps to its order and counts what it does. -/
structure Orderly (w : World) : Prop where
  followed : w.beats.foldlM Beat.follow .waiting = some w.loop.stage
  ticking : w.tick.isSome ↔ w.loop.stage = .ticking
  given : ∀ began s report, w.tick = some (began, s) → s.tick = .ended report →
    report.status = .cancelled → w.cancelled
  ended : w.loop.stage = .ended → w.cancelled
  sleeps : w.metrics.sleeps = w.beats.countP Beat.isFiring
  processes : w.metrics.processes = w.beats.countP Beat.isTick

def Going (w : World) : Prop := ∀ began s, w.tick = some (began, s) → s.tick.report? = none

theorem settle_of_going (going : w.Going) : w.settle = w := by
  unfold settle
  split
  · rename_i began s tick
    split
    · rename_i report ended
      have open_ := going began s tick
      rw [ended] at open_
      cases open_
    · rfl
  · rfl

theorem settle_of_ended (tick : w.tick = some (began, s)) (ended : s.tick = .ended report) :
    w.settle = { w with
      loop := (w.loop.finish report).1
      tick := none
      metrics := w.metrics.recordAll [.processed]
      beats := w.beats ++ [.ticked (w.time - began) report] } := by
  simp only [settle, tick, ended]
  rfl

theorem going_or_ended (w : World) :
    w.Going ∨ ∃ began s report, w.tick = some (began, s) ∧ s.tick = .ended report := by
  cases tick : w.tick with
  | none => exact .inl fun _ _ given => nomatch tick.symm.trans given
  | some given =>
    obtain ⟨began, s⟩ := given
    cases finished : s.tick with
    | ended report => exact .inr ⟨began, s, report, rfl, finished⟩
    | _ =>
      refine .inl fun began' s' given => ?_
      cases tick.symm.trans given
      rw [finished]
      rfl

theorem follow_concat {beats : List Beat} {b : Beat} {stage : WorkerLoop.Stage}
    (followed : beats.foldlM Beat.follow .waiting = some stage) :
    (beats ++ [b]).foldlM Beat.follow .waiting = Beat.follow stage b := by
  rw [List.foldlM_append, followed]
  simp

theorem Orderly.settle (h : w.Orderly) : w.settle.Orderly ∧ w.settle.Going := by
  rcases w.going_or_ended with going | ⟨began, s, report, tick, ended⟩
  · rw [settle_of_going going]
    exact ⟨h, going⟩
  · rw [settle_of_ended tick ended]
    have stage : w.loop.stage = .ticking := h.ticking.mp (by rw [tick]; rfl)
    have given := h.given began s report tick ended
    refine ⟨⟨?_, ?_, fun _ _ _ tick => (nomatch tick), ?_, ?_, ?_⟩, fun _ _ tick => (nomatch tick)⟩
    · rw [follow_concat h.followed, stage]
      rfl
    · by_cases cancelled : report.status = .cancelled <;> simp [WorkerLoop.finish, cancelled]
    · intro finished
      by_cases cancelled : report.status = .cancelled
      · exact given cancelled
      · simp [WorkerLoop.finish, cancelled] at finished
    · rw [List.countP_append, ← h.sleeps]
      rfl
    · rw [List.countP_append, ← h.processes]
      rfl

theorem Orderly.notice (h : w.Orderly) (stage : w.loop.stage = .waiting) : w.notice.Orderly := by
  have same : w.notice.loop.stage = w.loop.stage := by
    simp only [World.notice, WorkerLoop.notice]
    split <;> rfl
  refine ⟨?_, by rw [same]; exact h.ticking, h.given, by rw [same]; exact h.ended, ?_, ?_⟩
  · rw [same]
    simp only [World.notice]
    split
    · exact h.followed
    · rw [follow_concat h.followed, stage]
      rfl
  · simp only [World.notice]
    split
    · exact h.sleeps
    · rw [List.countP_append]
      exact h.sleeps
  · simp only [World.notice]
    split
    · exact h.processes
    · rw [List.countP_append]
      exact h.processes

theorem Orderly.fire (h : w.Orderly) (stage : w.loop.stage = .waiting)
    (jitter : Option (ItemId → Fin RetrySettings.maxJitter)) : (w.fire jitter).Orderly := by
  refine ⟨?_, ?_, ?_, ?_, ?_, ?_⟩
  · simp only [World.fire, WorkerLoop.fire]
    rw [follow_concat h.followed, stage]
    rfl
  · cases enabled : w.live.current.isWorkerEnabled <;> simp [World.fire, WorkerLoop.fire, enabled]
  · intro began s report tick ended cancelled
    simp only [World.fire] at tick
    split at tick
    · cases tick
      -- a tick that is over at once was cancelled beforehand
      cases token : w.cancelled
      · rw [token] at ended
        cases ended
      · exact token
    · cases tick
  · intro ended
    cases enabled : w.live.current.isWorkerEnabled <;> simp [World.fire, WorkerLoop.fire, enabled] at ended
  · simp [World.fire, WorkerLoop.fire, Metrics.recordAll, Metrics.record, Beat.isFiring, h.sleeps]
  · simp [World.fire, WorkerLoop.fire, Metrics.recordAll, Metrics.record, Beat.isTick, h.processes]

theorem Orderly.act (h : w.Orderly) (going : w.Going) (tick : w.tick = some (began, s)) (now : Instant) {a : Act}
    (allowed : a.isAllowed w.cancelled) : (w.act now a began s).Orderly := by
  obtain ⟨sleeps, processes⟩ := Metrics.recordAll_own (Session.act_own now s w.table a) w.metrics
  refine ⟨h.followed, ?_, ?_, h.ended, sleeps.trans h.sleeps, processes.trans h.processes⟩
  · exact ⟨fun _ => h.ticking.mp (by rw [tick]; rfl), fun _ => rfl⟩
  · intro _ _ report given ended cancelled
    cases given
    cases Session.act_cancelled (going began s tick) ended cancelled
    exact allowed

theorem Orderly.stop (h : w.Orderly) (stage : w.loop.stage = .waiting) (cancelled : w.cancelled) :
    Orderly { w with loop := w.loop.cancel, beats := w.beats ++ [.stopped] } where
  followed := by
    rw [follow_concat h.followed, stage]
    simp only [WorkerLoop.cancel, stage]
    rfl
  ticking := by
    have idle := h.ticking
    rw [stage] at idle
    simp [WorkerLoop.cancel, stage, idle]
  given := h.given
  ended _ := cancelled
  sleeps := by
    rw [List.countP_append]
    exact h.sleeps
  processes := by
    rw [List.countP_append]
    exact h.processes

theorem Orderly.step (h : w.Orderly) (going : w.Going) (e : Event) : (w.step e).Orderly ∧ (w.step e).Going := by
  cases e with
  | pass ns => exact ⟨⟨h.followed, h.ticking, h.given, h.ended, h.sleeps, h.processes⟩, going⟩
  | publish o =>
    simp only [World.step]
    split
    · exact ⟨⟨h.followed, h.ticking, h.given, h.ended, h.sleeps, h.processes⟩, going⟩
    · exact ⟨h, going⟩
  | cancel =>
    exact ⟨⟨h.followed, h.ticking, fun _ _ _ _ _ _ => rfl, fun _ => rfl, h.sleeps, h.processes⟩, going⟩
  | notice =>
    simp only [World.step]
    split
    · rename_i ready
      exact ⟨h.notice ready.1, going⟩
    · exact ⟨h, going⟩
  | fire jitter =>
    simp only [World.step]
    split
    · rename_i ready
      exact (h.fire ready.1 jitter).settle
    · exact ⟨h, going⟩
  | stop =>
    simp only [World.step]
    split
    · rename_i ready
      exact ⟨h.stop ready.1 ready.2, going⟩
    · exact ⟨h, going⟩
  | act now a =>
    simp only [World.step]
    split
    · rename_i began s tick
      split
      · rename_i allowed
        exact (h.act going tick now allowed).settle
      · exact ⟨h, going⟩
    · exact ⟨h, going⟩
  | change table => exact ⟨⟨h.followed, h.ticking, h.given, h.ended, h.sleeps, h.processes⟩, going⟩

/-! ### Times of firings -/

def pace (p : Pace) (w : World) : Pace := w.inputs.foldl Pace.step p

/-- The loop keeps to the pace of its inputs. -/
structure Timed (p : Pace) (w : World) : Prop where
  firings : w.firings = p.firings w.inputs
  timer : (w.pace p).timer = w.loop.timer
  waiting : w.loop.stage = .waiting → (w.pace p).back ≤ w.time ∧ w.time ≤ (w.pace p).next
  ticking : ∀ began s, w.tick = some (began, s) → (w.pace p).back = began ∧ began ≤ w.time
  /-- The loop sees another delay at once, or when it is back from its tick. -/
  unseen : w.loop.stage = .waiting → w.live.current.workerDelay ≠ w.loop.delay →
    w.time = max (w.pace p).back w.changed
  seen : w.seen = w.live.version → w.live.current.workerDelay = w.loop.delay
  known : w.seen ≤ w.live.version
  changed : w.changed ≤ w.time

variable {p : Pace}

section Beats

variable {w' : World} {b : Beat}

theorem pace_concat (more : w'.beats = w.beats ++ [b]) :
    w'.pace p = b.inputs.foldl Pace.step (w.pace p) := by
  simp [pace, inputs, more]

/-- A beat keeps to the pace if what it fires is what its inputs lead to. -/
theorem Timed.firings_concat (h : w.Timed p) (more : w'.beats = w.beats ++ [b])
    (fired : b.firing?.toList = (w.pace p).firings b.inputs) : w'.firings = p.firings w'.inputs := by
  have inputs : w'.inputs = w.inputs ++ b.inputs := by simp [World.inputs, more]
  have firings : w'.firings = w.firings ++ b.firing?.toList := by
    simp only [World.firings, more, List.filterMap_append]
    cases b <;> rfl
  rw [inputs, firings, Pace.firings_append, h.firings, fired]
  rfl

end Beats

theorem Timed.settle (h : w.Timed p) : w.settle.Timed p := by
  rcases w.going_or_ended with going | ⟨began, s, report, tick, ended⟩
  · rw [settle_of_going going]
    exact h
  · obtain ⟨back, before⟩ := h.ticking began s tick
    rw [settle_of_ended tick ended]
    generalize settled : World.mk .. = w'
    have more : w'.beats = w.beats ++ [.ticked (w.time - began) report] := by rw [← settled]
    -- the loop is back at this moment, whether or not the tick took any time
    have pace : w'.pace p = { timer := (w.pace p).timer, back := w.time } := by
      rw [pace_concat more]
      by_cases none : w.time - began = 0
      · have same : (w.pace p).back = w.time := by omega
        rw [Beat.inputs, if_pos none, ← same]
        rfl
      · have same : (w.pace p).back + (w.time - began) = w.time := by omega
        simp [Beat.inputs, none, Pace.step, same]
    subst settled
    refine ⟨h.firings_concat more ?_, ?_, fun _ => ?_, fun _ _ tick => (nomatch tick), fun _ _ => ?_, h.seen,
      h.known, h.changed⟩
    · by_cases none : w.time - began = 0 <;> simp [Beat.inputs, Beat.firing?, none, Pace.firings]
    · rw [pace]
      exact h.timer
    · rw [pace]
      exact ⟨Nat.le_refl _, Nat.le_max_right ..⟩
    · rw [pace]
      exact (Nat.max_eq_left h.changed).symm

theorem Timed.notice (h : w.Timed p) (stage : w.loop.stage = .waiting) : w.notice.Timed p := by
  by_cases same : w.live.current.workerDelay = w.loop.delay
  · have loop : w.loop.notice w.time w.live.current = w.loop := if_pos same
    simp only [World.notice, if_pos same, loop]
    exact ⟨h.firings, h.timer, h.waiting, h.ticking, h.unseen, fun _ => same, Nat.le_refl _, h.changed⟩
  · have loop : w.loop.notice w.time w.live.current = { w.loop with
        delay := w.live.current.workerDelay, timer := .start w.time w.live.current.workerDelay } := if_neg same
    have time := h.unseen stage same
    obtain ⟨back, -⟩ := h.waiting stage
    simp only [World.notice, if_neg same, loop]
    generalize noticed : World.mk .. = w'
    have more : w'.beats = w.beats ++ [.rearmed w.time w.changed w.live.current.workerDelay] := by rw [← noticed]
    have pace : w'.pace p = { w.pace p with timer := .start w.time w.live.current.workerDelay } := by
      rw [pace_concat more]
      simp [Beat.inputs, Pace.step, ← time]
    subst noticed
    refine ⟨h.firings_concat more rfl, ?_, fun _ => ?_, ?_, fun _ other => absurd rfl other, fun _ => rfl,
      Nat.le_refl _, h.changed⟩
    · rw [pace]
    · rw [pace]
      exact ⟨back, Nat.le_trans (Nat.le_add_right ..) (Nat.le_max_left ..)⟩
    · intro began s tick
      rw [pace]
      exact h.ticking began s tick

theorem Timed.fire (h : w.Timed p) (stage : w.loop.stage = .waiting) (due : w.loop.timer.due ≤ w.time)
    (jitter : Option (ItemId → Fin RetrySettings.maxJitter)) : (w.fire jitter).Timed p := by
  have next : (w.pace p).next = w.time := by
    obtain ⟨back, time⟩ := h.waiting stage
    rw [← h.timer] at due
    exact Nat.le_antisymm (Nat.max_le.mpr ⟨due, back⟩) time
  have more : (w.fire jitter).beats = w.beats ++ [.fired w.time w.live.current] := by simp only [World.fire]
  have pace : (w.fire jitter).pace p = { timer := w.loop.timer.fire w.time, back := w.time } := by
    rw [pace_concat more]
    simp [Beat.inputs, Pace.step, next, h.timer]
  have time : (w.fire jitter).time = w.time := by simp only [World.fire]
  refine ⟨h.firings_concat more ?_, ?_, ?_, ?_, ?_, ?_, ?_, ?_⟩
  · simp [Beat.inputs, Beat.firing?, Pace.firings, next]
  · rw [pace]
    simp only [World.fire, WorkerLoop.fire]
  · intro _
    rw [pace, time]
    exact ⟨Nat.le_refl _, Nat.le_max_right ..⟩
  · intro began s tick
    rw [pace, time]
    simp only [World.fire] at tick
    split at tick <;> cases tick
    exact ⟨rfl, Nat.le_refl _⟩
  · intro _ _
    rw [pace, time]
    exact (Nat.max_eq_left h.changed).symm
  · have delay : (w.fire jitter).loop.delay = w.loop.delay := WorkerLoop.fire_delay ..
    rw [delay]
    exact h.seen
  · exact h.known
  · exact h.changed

theorem Timed.publish (h : w.Timed p) (o : Options) :
    Timed p { w with
      live := w.live.publish o
      changed := if o.workerDelay = w.live.current.workerDelay then w.changed else w.time } := by
  refine ⟨h.firings, h.timer, h.waiting, h.ticking, fun stage other => ?_, fun seen => ?_,
    Nat.le_succ_of_le h.known, ?_⟩
  · by_cases same : o.workerDelay = w.live.current.workerDelay
    · simp only [if_pos same]
      exact h.unseen stage (same ▸ other)
    · simp only [if_neg same]
      exact (Nat.max_eq_right (h.waiting stage).1).symm
  · -- whoever has seen the version before has not seen this one
    have known := h.known
    have seen : w.seen = w.live.version + 1 := seen
    omega
  · show (if _ then _ else _) ≤ w.time
    split
    · exact h.changed
    · exact Nat.le_refl _

theorem Timed.pass (h : w.Timed p) {ns : Nat} (prompt : w.Prompt (.pass ns)) :
    Timed p { w with time := w.time + ns } := by
  have later : w.time ≤ w.time + ns := Nat.le_add_right ..
  refine ⟨h.firings, h.timer, fun stage => ?_, fun began s tick => ?_, fun stage other => ?_, h.seen, h.known,
    h.changed.trans later⟩
  · obtain ⟨back, -⟩ := h.waiting stage
    obtain ⟨-, -, due⟩ := prompt stage
    rw [← h.timer] at due
    exact ⟨back.trans later, due.trans (Nat.le_max_left ..)⟩
  · obtain ⟨back, before⟩ := h.ticking began s tick
    exact ⟨back, before.trans later⟩
  · obtain ⟨-, seen, -⟩ := prompt stage
    exact absurd (h.seen seen) other

theorem Timed.stop (h : w.Timed p) (stage : w.loop.stage = .waiting) :
    Timed p { w with loop := w.loop.cancel, beats := w.beats ++ [.stopped] } := by
  have loop : w.loop.cancel = { w.loop with stage := .ended } := by simp only [WorkerLoop.cancel, stage]
  rw [loop]
  generalize stopped : World.mk .. = w'
  have more : w'.beats = w.beats ++ [.stopped] := by rw [← stopped]
  have pace : w'.pace p = w.pace p := by rw [pace_concat more, Beat.inputs, List.foldl_nil]
  subst stopped
  refine ⟨h.firings_concat more rfl, by rw [pace]; exact h.timer, nofun, ?_, nofun, h.seen, h.known, h.changed⟩
  rw [pace]
  exact h.ticking

theorem Timed.step (h : w.Timed p) (prompt : w.Prompt e) : (w.step e).Timed p := by
  cases e with
  | pass ns => exact h.pass prompt
  | publish o =>
    simp only [World.step]
    split
    · rename_i live accepted
      cases (LiveOptions.update_of_admits (LiveOptions.admits_of_update accepted)).symm.trans accepted
      exact h.publish o
    · exact h
  | cancel => exact ⟨h.firings, h.timer, h.waiting, h.ticking, h.unseen, h.seen, h.known, h.changed⟩
  | notice =>
    simp only [World.step]
    split
    · rename_i ready
      exact h.notice ready.1
    · exact h
  | fire jitter =>
    simp only [World.step]
    split
    · rename_i ready
      exact (h.fire ready.1 ready.2 jitter).settle
    · exact h
  | stop =>
    simp only [World.step]
    split
    · rename_i ready
      exact h.stop ready.1
    · exact h
  | act now a =>
    simp only [World.step]
    split
    · rename_i began s tick
      split
      · refine Timed.settle ⟨h.firings, h.timer, h.waiting, fun began' s' tick' => ?_, h.unseen, h.seen, h.known,
          h.changed⟩
        cases tick'
        exact h.ticking began s tick
      · exact h
    · exact h
  | change table => exact ⟨h.firings, h.timer, h.waiting, h.ticking, h.unseen, h.seen, h.known, h.changed⟩

/-! ### Whole runs -/

variable {features : Features} {worker : WorkerType} {live : LiveOptions} {table : Table}

theorem Orderly.start : (start features worker live table).Orderly := by
  constructor <;> simp [World.start, WorkerLoop.start]

theorem Orderly.run (events : List Event) :
    (events.foldl World.step (World.start features worker live table)).Orderly ∧
      (events.foldl World.step (World.start features worker live table)).Going := by
  have going : (World.start features worker live table).Going := by simp [Going, World.start]
  have keeps : ∀ (w : World) (e : Event), w.Orderly ∧ w.Going → True → (w.step e).Orderly ∧ (w.step e).Going :=
    fun _ e h _ => h.1.step h.2 e
  exact foldl_invariant keeps ⟨.start, going⟩ (Along.of_forall fun _ _ _ => trivial)

theorem Timed.start : (start features worker live table).Timed (.start live.current.workerDelay) := by
  constructor <;> simp [World.start, WorkerLoop.start, Pace.start, pace, inputs, World.firings, Pace.firings]

theorem Timed.run (prompt : Along World.step Prompt (World.start features worker live table) events) :
    (events.foldl World.step (World.start features worker live table)).Timed (.start live.current.workerDelay) :=
  foldl_invariant (fun _ _ h prompt => h.step prompt) .start prompt

/-- A run that goes on from the same inputs has fired at the same times, and fires next no sooner than
the other has come to. -/
theorem Timed.same_firings {w' : World} (h : w.Timed p) (h' : w'.Timed p) (more : w.inputs <+: w'.inputs) :
    w.firings <+: w'.firings ∧ (w.loop.stage = .waiting → w.inputs ++ [.fire] <+: w'.inputs →
      ∀ t, w'.firings[w.firings.length]? = some t → w.time ≤ t) := by
  rw [h.firings, h'.firings]
  constructor
  · obtain ⟨later, same⟩ := more
    rw [← same, Pace.firings_append]
    exact List.prefix_append ..
  · rintro stage ⟨later, same⟩ t fired
    rw [← same, List.append_assoc, Pace.firings_append, List.getElem?_append_right (Nat.le_refl _),
      Nat.sub_self] at fired
    cases fired
    exact (h.waiting stage).2

end World

open World

/-- What can be said of the loop at every moment of every run. -/
structure OnTime (w : World) : Prop where
  /-- There is one tick for each firing with the worker switched on and no other, and only a tick that is
  cancelled or the token ends the loop. -/
  followed : w.beats.foldlM Beat.follow .waiting = some w.loop.stage
  atWork : w.tick.isSome ↔ w.loop.stage = .ticking
  sleeps : w.metrics.sleeps = w.beats.countP Beat.isFiring
  processes : w.metrics.processes = w.beats.countP Beat.isTick
  ended : w.loop.stage = .ended → w.cancelled
  begins : ∀ jitter, w.loop.stage = .waiting → w.loop.timer.due ≤ w.time → w.live.current.isWorkerEnabled →
    w.cancelled = false → (w.step (.fire jitter)).tick = some (w.time, .start
      { worker := w.worker, features := w.features, options := w.live.current, jitter } false)
  /-- A tick with its token cancelled beforehand leaves its table alone and calls no handler. -/
  late : ∀ jitter, w.loop.stage = .waiting → w.loop.timer.due ≤ w.time → w.live.current.isWorkerEnabled →
    w.cancelled → (w.step (.fire jitter)).table = w.table ∧
      (w.step (.fire jitter)).metrics = w.metrics.recordAll [.slept, .processed] ∧
      (w.step (.fire jitter)).loop.stage = .ended
  /-- Options with the same delay change nothing for the loop, neither when they are published nor when
  the loop finds them. -/
  steady : ∀ o, o.workerDelay = w.live.current.workerDelay → (w.step (.publish o)).loop = w.loop ∧
    (w.step (.publish o)).changed = w.changed ∧ (w.step (.publish o)).inputs = w.inputs
  found : w.live.current.workerDelay = w.loop.delay →
    (w.step .notice).loop = w.loop ∧ (w.step .notice).inputs = w.inputs
  rearmed : w.loop.stage = .waiting → w.seen ≠ w.live.version → w.live.current.workerDelay ≠ w.loop.delay →
    (w.step .notice).loop.timer =
      { period := max w.live.current.workerDelay.nanos 1000000
        due := w.time + max w.live.current.workerDelay.nanos 1000000 }

theorem onTime (w : World) (h : w.Orderly) : OnTime w where
  followed := h.followed
  atWork := h.ticking
  sleeps := h.sleeps
  processes := h.processes
  ended := h.ended
  begins jitter stage due enabled token := by
    have going : (w.fire jitter).Going := by
      intro began s tick
      simp only [fire, enabled, if_true, token] at tick
      cases tick
      rfl
    simp only [step, stage, due, and_self, if_true]
    rw [settle_of_going going]
    simp only [fire, enabled, if_true, token]
  late jitter stage due enabled token := by
    have tick : (w.fire jitter).tick = some (w.time, .start
        { worker := w.worker, features := w.features, options := w.live.current, jitter } true) := by
      simp only [fire, enabled, if_true, token]
    simp only [step, stage, due, and_self, if_true]
    rw [settle_of_ended tick rfl]
    exact ⟨rfl, rfl, rfl⟩
  steady o same := by
    simp only [step]
    split
    · exact ⟨rfl, if_pos same, rfl⟩
    · exact ⟨rfl, rfl, rfl⟩
  found same := by
    simp only [step]
    split
    · exact ⟨if_pos same, by simp only [notice, inputs, if_pos same]⟩
    · exact ⟨rfl, rfl⟩
  rearmed stage unseen other := by
    simp only [step, stage, ne_eq, unseen, not_false_eq_true, and_self, if_true, notice, WorkerLoop.notice, other,
      if_false]
    rfl

/-- The loop obeys its timer and the options in force. In runs in which no time is lost the times of its
firings follow from when the delay was changed and how long each firing kept it busy: as long as updates
leave both as they are, no firing moves and none is left out. -/
theorem on_time (features : Features) (worker : WorkerType) (live : LiveOptions) (table : Table)
    (events : List Event) :
    let start := World.start features worker live table
    let w := events.foldl step start
    OnTime w ∧ (Along step Prompt start events →
      w.firings = (Pace.start live.current.workerDelay).firings w.inputs ∧
      ∀ others, Along step Prompt start others →
        w.inputs <+: (others.foldl step start).inputs → w.firings <+: (others.foldl step start).firings ∧
          (w.loop.stage = .waiting → w.inputs ++ [.fire] <+: (others.foldl step start).inputs →
            ∀ t, (others.foldl step start).firings[w.firings.length]? = some t → w.time ≤ t)) := by
  refine ⟨onTime _ (Orderly.run events).1, fun prompt => ?_⟩
  have timed := Timed.run prompt
  exact ⟨timed.firings, fun others prompt' more => timed.same_firings (Timed.run prompt') more⟩

/-! ### Two runs -/

instance (w : World) : (e : Event) → Decidable (w.Prompt e)
  | .pass _ => inferInstanceAs (Decidable (_ → _))
  | .publish _ | .cancel | .notice | .fire _ | .stop | .act .. | .change _ => .isTrue trivial

def millis : Nat := 1000000

def orders (enabled : Bool) : LiveOptions where
  outbox := "orders"
  current := { workerDelay := .ofMillis 1000, isWorkerEnabled := enabled }

def oneRow : Table where
  rows := .ofList [{ id := .ofNat 1, payload := "a" }]

abbrev outbox (enabled : Bool) : World := .start { status := true } .competing (orders enabled) oneRow

/-- A firing whose tick has its handler at work for a time. -/
def firing (ns : Nat) : List Event :=
  [.fire none, .act .epoch (.fetch none), .pass ns, .act .epoch (.answer (.verdict (some .skip))),
    .act .epoch (.save none)]

def plain : List Event := .pass (1000 * millis) :: firing (300 * millis) ++ .pass (700 * millis) :: firing 0

/-- The same with other options published twice, once while the tick is at work. -/
def reloaded : List Event :=
  [.pass (400 * millis), .publish { workerDelay := .ofMillis 1000, itemsLimit := 7 }, .notice,
    .pass (600 * millis), .fire none, .act .epoch (.fetch none), .pass (300 * millis),
    .publish { workerDelay := .ofMillis 1000, itemsLimit := 8 },
    .act .epoch (.answer (.verdict (some .skip))), .act .epoch (.save none), .notice, .pass (700 * millis)] ++
    firing 0

theorem on_time_reloaded : Along step Prompt (outbox true) plain ∧ Along step Prompt (outbox true) reloaded ∧
    OnTime (reloaded.foldl step (outbox true)) ∧
    (plain.foldl step (outbox true)).firings <+: (reloaded.foldl step (outbox true)).firings ∧
    (plain.foldl step (outbox true)).firings = [1000 * millis, 2000 * millis] := by
  have prompt : Along step Prompt (outbox true) plain := by decide
  have others : Along step Prompt (outbox true) reloaded := by decide
  have more : (plain.foldl step (outbox true)).inputs <+: (reloaded.foldl step (outbox true)).inputs := by decide
  have regular := (on_time { status := true } .competing (orders true) oneRow reloaded).1
  obtain ⟨-, timed⟩ := (on_time { status := true } .competing (orders true) oneRow plain).2 prompt
  exact ⟨prompt, others, regular, (timed reloaded others more).1, by decide⟩

/-- A worker that is switched on has a tick to run, and the tick is still at work when the timer is due. -/
def switchedOn : List Event :=
  [.pass (500 * millis), .publish { workerDelay := .ofMillis 1000 }, .notice, .pass (500 * millis)] ++
    firing (2500 * millis) ++ [.fire none]

def switchedOff : List Event :=
  [.pass (1000 * millis), .fire none, .pass (1000 * millis), .fire none, .pass (1000 * millis), .fire none,
    .pass (500 * millis)]

/-- Both runs last as long, and all that was added to the second are options with the same delay. -/
theorem firing_moved :
    Along step Prompt (outbox false) switchedOff ∧ Along step Prompt (outbox false) switchedOn ∧
    (∀ o, .publish o ∈ switchedOn → o.workerDelay = (outbox false).live.current.workerDelay) ∧
    (switchedOn.foldl step (outbox false)).time = (switchedOff.foldl step (outbox false)).time ∧
    (switchedOff.foldl step (outbox false)).firings = [1000 * millis, 2000 * millis, 3000 * millis] ∧
    (switchedOn.foldl step (outbox false)).firings = [1000 * millis, 3500 * millis] := by
  refine ⟨by decide, by decide, ?_, by decide, by decide, by decide⟩
  intro o published
  simp [switchedOn, firing] at published
  rw [published]
  rfl

end WorkerRuns

end Outbox
