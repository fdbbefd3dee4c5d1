import Outbox.Proofs.Atomicity
import Outbox.Proofs.InOrder

/-!
A tick as a walk over its batch. Whether a tick hands out its rows one by one or all at once, it
decides what `Decision.settleAll` decides from the verdicts on them (`Tick.walks_afterItem`, `Tick.walks_afterBatch`), also where
others are at its table between its steps (`Course.through_follows`).
-/

namespace Outbox

/-- What the handlers of a tick make of a row of its batch, if they say anything about it. -/
def Handlers.verdict? (h : Handlers) (job : Job) (batch : List Row) (row : Row) : Option Verdict :=
  match job.worker.handlerKind with
  | .item => some ((h.item row).getD .retry)
  | .batch => Decision.batchVerdict job (h.batch batch) row

namespace Decision

variable {job : Job} {now clock : Instant} {d : Decision} {row : Row} {rows : List Row}

/-- The decision about the rows of a batch from what the handlers make of them. -/
def about (h : Handlers) (job : Job) (now : Instant) (batch : List Row) : Decision :=
  settleAll job now {} (batch.map fun r => (r, h.verdict? job batch r))

/-- The rows that the walk comes to: all of them up to the first stop. -/
def visited (job : Job) (now : Instant) (verdict : Row → Option Verdict) (d : Decision) :
    List Row → List Row
  | [] => []
  | row :: rest =>
    match d.settle job now row (verdict row) with
    | .next d => row :: visited job now verdict d rest
    | .stop _ => [row]

/-- Only a worker that reschedules looks at the clock. -/
theorem settle_clock (timely : job.worker.lock = .noWait ∨ clock = now) (d : Decision) (row : Row)
    (verdict : Option Verdict) : d.settle job clock row verdict = d.settle job now row verdict := by
  rcases timely with strict | same
  · unfold settle
    rw [strict]
    cases verdict <;> rfl
  · rw [same]

theorem settleAll_clock (timely : job.worker.lock = .noWait ∨ clock = now) (d : Decision)
    (pairs : List (Row × Option Verdict)) : settleAll job clock d pairs = settleAll job now d pairs := by
  induction pairs generalizing d with
  | nil => rfl
  | cons pair rest ih =>
    obtain ⟨row, verdict⟩ := pair
    simp only [settleAll, settle_clock timely, ih]

end Decision

namespace Tick

variable {h : Handlers} {job : Job} {now clock : Instant} {batch rows rest : List Row} {d : Decision}
  {row : Row} {n : Nat}

/-- A tick on its way to the decision about its batch: what it is still to settle leads there. -/
def Walks (h : Handlers) (job : Job) (now : Instant) (batch : List Row) : Tick → Prop
  | .fetching => batch = []
  | .item n d row rest => job.worker.handlerKind = .item ∧ n = batch.length ∧
      Decision.settleAll job now d ((row :: rest).map fun r => (r, h.verdict? job batch r)) =
        .about h job now batch
  | .batch rows => job.worker.handlerKind = .batch ∧ rows = batch
  | .saving n d => n = batch.length ∧ d = .about h job now batch
  | .ended _ => True

/-- The calls of handlers that are still to come. -/
def toCall (h : Handlers) (job : Job) (now : Instant) (batch : List Row) : Tick → List (List Row)
  | .item _ d row rest => (Decision.visited job now (h.verdict? job batch) d (row :: rest)).map ([·])
  | .batch rows => [rows]
  | _ => []

def calls (h : Handlers) (job : Job) (now : Instant) (batch : List Row) : List (List Row) :=
  match job.worker.handlerKind with
  | .item => (Decision.visited job now (h.verdict? job batch) {} batch).map ([·])
  | .batch => [batch]

theorem walks_afterFetch (h : Handlers) (job : Job) (now : Instant) (found : rows ≠ []) :
    (afterFetch job rows).Walks h job now rows ∧
      (afterFetch job rows).toCall h job now rows = calls h job now rows := by
  cases rows with
  | nil => exact absurd rfl found
  | cons row rest =>
    simp only [afterFetch]
    split
    · rename_i single
      exact ⟨⟨single, rfl, rfl⟩, by simp only [toCall, calls, single]⟩
    · rename_i whole
      exact ⟨⟨whole, rfl⟩, by simp only [toCall, calls, whole]⟩

theorem verdict?_item (single : job.worker.handlerKind = .item) (h : Handlers) (batch : List Row)
    (row : Row) : h.verdict? job batch row = some ((h.item row).getD .retry) := by
  unfold Handlers.verdict?
  rw [single]

theorem verdict?_batch (whole : job.worker.handlerKind = .batch) (h : Handlers) (batch : List Row)
    (row : Row) : h.verdict? job batch row = Decision.batchVerdict job (h.batch batch) row := by
  unfold Handlers.verdict?
  rw [whole]

/-- After an item the walk goes on with the next one, and there is one call less to come. -/
theorem walks_afterItem (walks : (item n d row rest).Walks h job now batch)
    (timely : job.worker.lock = .noWait ∨ clock = now) :
    let onwards := afterItem n rest (d.settle job clock row (some ((h.item row).getD .retry)))
    onwards.Walks h job now batch ∧
      [row] :: onwards.toCall h job now batch = (item n d row rest).toCall h job now batch := by
  obtain ⟨single, count, decision⟩ := walks
  rw [Decision.settle_clock timely, ← verdict?_item single h batch]
  rw [List.map_cons, Decision.settleAll] at decision
  simp only [toCall, Decision.visited]
  cases settled : d.settle job now row (h.verdict? job batch row) with
  | stop d' =>
    rw [settled] at decision
    exact ⟨⟨count, decision⟩, rfl⟩
  | next d' =>
    rw [settled] at decision
    cases rest with
    | nil => exact ⟨⟨count, decision⟩, rfl⟩
    | cons next rest => exact ⟨⟨single, count, decision⟩, rfl⟩

theorem walks_afterBatch (walks : (Tick.batch rows).Walks h job now batch)
    (timely : job.worker.lock = .noWait ∨ clock = now) :
    (saving rows.length (Decision.settleAll job clock {}
      (rows.map fun r => (r, Decision.batchVerdict job (h.batch rows) r)))).Walks h job now batch := by
  obtain ⟨whole, rfl⟩ := walks
  refine ⟨rfl, ?_⟩
  simp only [Decision.settleAll_clock timely, Decision.about, verdict?_batch whole]

end Tick

/-- What a tick meets at one of its steps, its table included, which others may have been at. -/
structure Encounter extends Surroundings where
  table : Table
  begun : table.Begun

namespace Course

/-- The course of a tick of the job through what it meets. -/
def through (job : Job) (encounters : List Encounter) : Course :=
  encounters.foldl (fun c e => (c.act e.now e.table (e.act c.session.tick)).1) { session := .start job false }

/-- The handlers are the same all along, and so is the clock for a worker that looks at it. -/
def Steady (h : Handlers) (job : Job) (now : Instant) (encounters : List Encounter) : Prop :=
  ∀ e ∈ encounters, e.toHandlers = h ∧ (job.worker.lock = .noWait ∨ e.now = now)

/-- The course follows the walk over a batch that was fetched on the way. -/
structure Follows (h : Handlers) (job : Job) (now : Instant) (encounters : List Encounter) (c : Course) :
    Prop where
  sound : c.Sound
  ofJob : c.session.job = job
  walks : c.session.tick.Walks h job now c.batch
  unheard : c.session.tick = .fetching → c.answers = []
  underway : c.session.tick.isWorking →
    c.answers.map (·.1) ++ c.session.tick.toCall h job now c.batch = Tick.calls h job now c.batch ∧
      ∃ e ∈ encounters,
        e.table.window? job.features e.now job.mode job.limit e.table.nextTransaction = some c.batch

variable {h : Handlers} {job : Job} {now : Instant} {encounters : List Encounter} {e : Encounter}
  {c : Course} {s' : Session} {t' : Table} {a : Act}

theorem Follows.start (h : Handlers) (job : Job) (now : Instant) :
    Follows h job now [] { session := .start job false } where
  sound := Ticks.begin_sound job false
  ofJob := rfl
  walks := rfl
  unheard _ := rfl
  underway working := by cases working

theorem Follows.over {c : Course} {report : TickReport} (sound : c.Sound) (ofJob : c.session.job = job)
    (ended : c.session.tick = .ended report) : Follows h job now encounters c where
  sound
  ofJob
  walks := by
    rw [ended]
    trivial
  unheard fetching := by cases ended.symm.trans fetching
  underway working := by
    rw [ended] at working
    cases working

/-- The answer of a handler takes one call off those to come. -/
theorem Follows.answered {rows : List Row} {reply : Reply} {tick : Tick}
    (follows : Follows h job now encounters c)
    (sound : (c.follow a { c.session with tick }).Sound) (heard : c.session.tick.heard a = [(rows, reply)])
    (working : c.session.tick.isWorking) (onwards : tick.isWorking)
    (walks : tick.Walks h job now c.batch)
    (call : rows :: tick.toCall h job now c.batch = c.session.tick.toCall h job now c.batch) :
    Follows h job now encounters (c.follow a { c.session with tick }) := by
  have batch : (c.follow a { c.session with tick }).batch = c.batch := by
    apply follow_batch
    intro fetching
    rw [fetching] at working
    cases working
  obtain ⟨calls, fetched⟩ := follows.underway working
  refine ⟨sound, follows.ofJob, ?_, ?_, fun _ => ?_⟩
  · rw [batch]
    exact walks
  · intro fetching
    have fetching : tick = .fetching := fetching
    rw [fetching] at onwards
    cases onwards
  · rw [batch]
    refine ⟨?_, fetched⟩
    rw [← calls, ← call]
    simp [follow, heard]

/-- A fetch that found rows leaves the whole walk over them to come. -/
theorem Follows.opened {rows : List Row} (follows : Follows h c.session.job now encounters c)
    (met : e ∈ encounters) (fetching : c.session.tick = .fetching)
    (window : e.table.window? c.session.job.features e.now c.session.job.mode c.session.job.limit
      e.table.nextTransaction = some rows) (found : rows ≠ [])
    (sound : (c.follow (.fetch none) (c.session.opening e.table.nextTransaction rows)).Sound) :
    Follows h c.session.job now encounters
      (c.follow (.fetch none) (c.session.opening e.table.nextTransaction rows)) := by
  obtain ⟨walks, calls⟩ := Tick.walks_afterFetch h c.session.job now found
  have batch : (c.follow (.fetch none) (c.session.opening e.table.nextTransaction rows)).batch = rows := by
    simp only [follow, fetching, Session.opening, toHandle_afterFetch]
  have answers : (c.follow (.fetch none)
      (c.session.opening e.table.nextTransaction rows)).answers = [] := by
    simp only [follow, follows.unheard fetching, fetching]
    rfl
  refine ⟨sound, rfl, ?_, fun _ => answers, fun _ => ?_⟩
  · rw [batch]
    exact walks
  · rw [batch, answers]
    exact ⟨calls, e, met, window⟩

theorem Follows.mono {encounters' : List Encounter} (follows : Follows h job now encounters c)
    (more : encounters ⊆ encounters') : Follows h job now encounters' c where
  sound := follows.sound
  ofJob := follows.ofJob
  walks := follows.walks
  unheard := follows.unheard
  underway working := by
    obtain ⟨calls, fetched, member, window⟩ := follows.underway working
    exact ⟨calls, fetched, more member, window⟩

theorem Follows.move (follows : Follows h job now encounters c) (met : e ∈ encounters)
    (timely : job.worker.lock = .noWait ∨ e.now = now)
    (moves : Session.Move e.now c.session e.table a s' t')
    (awaited : c.session.tick.report? = none → c.session.tick.Awaits a)
    (asked : ∀ reply, a = .answer reply → c.session.tick.asked h e.fault = .answer reply) :
    Follows h job now encounters (c.follow a s') := by
  have sound := follow_sound follows.sound moves
  have ofJob : s'.job = job := moves.job.trans follows.ofJob
  have walks := follows.walks
  cases moves with
  | idle idle =>
    -- a tick is asked for what it waits for, so only one that is over stays as it is
    cases tick : c.session.tick with
    | ended report => exact .over sound ofJob tick
    | _ => exact absurd (awaited (by rw [tick]; rfl)) idle
  | quit | empty | commit | refused | rollback => exact .over sound ofJob rfl
  | fetched fetching window found =>
    obtain rfl := follows.ofJob
    exact follows.opened met fetching window found sound
  | @item n d row rest v handling =>
    have answer := asked _ rfl
    obtain rfl := follows.ofJob
    rw [handling] at answer walks
    cases answer
    obtain ⟨onwards, call⟩ := Tick.walks_afterItem walks timely
    rw [← handling] at call
    exact follows.answered sound (by rw [handling]; rfl) (by rw [handling]; rfl)
      (Session.afterItem_isWorking ..) onwards call
  | @batch rows b handling =>
    have answer := asked _ rfl
    obtain rfl := follows.ofJob
    rw [handling] at answer walks
    cases answer
    exact follows.answered sound (by rw [handling]; rfl) (by rw [handling]; rfl) rfl
      (Tick.walks_afterBatch walks timely) (by rw [handling]; rfl)

theorem Follows.step (follows : Follows h job now encounters c) (met : e ∈ encounters)
    (handlers : e.toHandlers = h) (timely : job.worker.lock = .noWait ∨ e.now = now) :
    Follows h job now encounters (c.act e.now e.table (e.act c.session.tick)).1 := by
  have moves := Session.act_moves e.now (e.act c.session.tick) follows.sound.session fun _ => e.begun
  apply follows.move met timely moves e.act_awaited
  intro reply answer
  unfold Surroundings.act at answer
  split at answer
  · cases answer
  · rw [← handlers]
    exact answer

theorem Follows.run (follows : Follows h job now encounters c) (later : List Encounter)
    (met : later ⊆ encounters) (steady : Steady h job now later) :
    Follows h job now encounters
      (later.foldl (fun c e => (c.act e.now e.table (e.act c.session.tick)).1) c) := by
  induction later generalizing c with
  | nil => exact follows
  | cons e rest ih =>
    obtain ⟨handlers, timely⟩ := steady e List.mem_cons_self
    apply ih (follows.step (met List.mem_cons_self) handlers timely)
    · exact fun _ member => met (List.mem_cons_of_mem e member)
    · exact fun e' member => steady e' (List.mem_cons_of_mem e member)

theorem through_follows (steady : Steady h job now encounters) :
    Follows h job now encounters (through job encounters) :=
  ((Follows.start h job now).mono (List.nil_subset _)).run encounters (fun _ member => member) steady

end Course

end Outbox
