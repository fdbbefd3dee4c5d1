import Outbox.Proofs.Runs
import Outbox.Sql.Repository

/-!
What a unit of work sends to a database, whatever the database answers. A transcript has every command
with its answer, and `Phase` reads along in it: which commands are in place depends on the transaction
that is open. No call of a unit of work ever gets out of place, and when the unit is dropped no
transaction is left (`Life.disciplined`).
-/

namespace Outbox.Sql

structure Exchange where
  command : Command
  answer : Except DatabaseError Answer

def Exchange.Succeeded (x : Exchange) : Prop := ∃ a, x.answer = .ok a

def Command.statement? : Command → Option Statement
  | .run s => some s
  | _ => none

def statements (l : List Exchange) : List Statement := l.filterMap (·.command.statement?)

theorem statements_append (l l' : List Exchange) : statements (l ++ l') = statements l ++ statements l' :=
  List.filterMap_append

/-! The two writes of a save: rows that are done are taken out of the queue, failed ones are put off. -/

def Statement.takesOut : Statement → Bool
  | delete _ | complete _ => true
  | _ => false

def Statement.putsOff : Statement → Bool
  | writeStatus _ => true
  | _ => false

/-- Where a client is: outside of transactions, in one whose statements all succeeded, in one with a
statement that failed, or in one whose commit was refused. -/
inductive Phase where
  | idle
  | sound
  | spoiled
  | refused
  deriving DecidableEq

namespace Phase

/-- A transaction begins where none is open, statements are sent inside it, it is committed only if all
of them succeeded, and what is not committed is rolled back. A commit that is refused leaves a transaction
that is dropped, and its rollback follows. Anything else is out of place. -/
def next : Phase → Exchange → Option Phase
  | .idle, ⟨.begin, .ok _⟩ => some .sound
  | .idle, ⟨.begin, .error _⟩ => some .idle
  | .sound, ⟨.run _, .ok _⟩ => some .sound
  | .sound, ⟨.run _, .error _⟩ => some .spoiled
  | .sound, ⟨.commit, .ok _⟩ => some .idle
  | .sound, ⟨.commit, .error _⟩ => some .refused
  | .sound, ⟨.rollback, _⟩ | .spoiled, ⟨.rollback, _⟩ | .refused, ⟨.rollback, _⟩ => some .idle
  | _, _ => none

/-- The phase after a transcript, if nothing in it is out of place. -/
def after (p : Phase) (l : List Exchange) : Option Phase := l.foldlM next p

@[simp] theorem after_nil (p : Phase) : p.after [] = some p := rfl

@[simp] theorem after_cons (p : Phase) (x : Exchange) (l : List Exchange) :
    p.after (x :: l) = (p.next x).bind (·.after l) := rfl

theorem after_append (p : Phase) (l l' : List Exchange) :
    p.after (l ++ l') = (p.after l).bind (·.after l') := List.foldlM_append

/-- A commit after a statement that failed is out of place. -/
example : Phase.idle.after [⟨.begin, .ok (.affected 0)⟩, ⟨.run .clear, .error .rowNotFound⟩,
    ⟨.commit, .ok (.affected 0)⟩] = none := rfl

def ofOpen (inTransaction : Bool) : Phase := if inTransaction then .sound else .idle

end Phase

variable {σ : Type} {db : Database σ} {features : Features} {mode : Mode}

/-- A database with a transcript of what it was told and what it answered. -/
def recorded (db : Database σ) : Database (σ × List Exchange) := fun command state =>
  let (answer, s) := db command state.1
  (answer, s, state.2 ++ [⟨command, answer⟩])

/-! ### The exchanges of a call -/

inductive Sends : List Statement → Except DatabaseError Unit → List Exchange → Prop
  | none : Sends [] (.ok ()) []
  | failed (s : Statement) (rest : List Statement) (e : DatabaseError) :
    Sends (s :: rest) (.error e) [⟨.run s, .error e⟩]
  | sent (s : Statement) (answer : Answer) {rest : List Statement} {result : Except DatabaseError Unit}
    {l : List Exchange} : Sends rest result l → Sends (s :: rest) result (⟨.run s, .ok answer⟩ :: l)

namespace Sends

variable {asked : List Statement} {result : Except DatabaseError Unit} {l : List Exchange}

theorem phase (h : Sends asked result l) :
    Phase.sound.after l = some (if result.toBool then .sound else .spoiled) := by
  induction h with
  | none | failed => rfl
  | sent s answer _ ih => exact ih

theorem statements (h : Sends asked result l) : Sql.statements l <+: asked := by
  induction h with
  | none => exact List.nil_prefix
  | failed s rest e => exact (List.prefix_cons_inj s).mpr List.nil_prefix
  | sent s answer _ ih => exact (List.prefix_cons_inj s).mpr ih

theorem statements_eq (h : Sends asked (.ok ()) l) : Sql.statements l = asked := by
  generalize ok : Except.ok () = result at h
  induction h with
  | none => rfl
  | failed => cases ok
  | sent s answer _ ih => exact congrArg (s :: ·) (ih ok)

theorem not_commit (h : Sends asked result l) (answer : Except DatabaseError Answer) :
    ⟨.commit, answer⟩ ∉ l := by
  induction h with
  | none | failed => simp
  | sent s _ _ ih => simpa using ih

theorem failure {e : DatabaseError} (h : Sends asked (.error e) l) :
    ∃ s ∈ asked, ⟨.run s, .error e⟩ ∈ l := by
  generalize error : Except.error e = result at h
  induction h with
  | none => cases error
  | failed s rest e =>
    cases error
    exact ⟨s, List.mem_cons_self, List.mem_cons_self⟩
  | sent s answer _ ih =>
    obtain ⟨s', asked, failed⟩ := ih error
    exact ⟨s', List.mem_cons_of_mem _ asked, List.mem_cons_of_mem _ failed⟩

theorem succeeded (h : Sends asked (.ok ()) l) : ∀ x ∈ l, x.Succeeded := by
  generalize ok : Except.ok () = result at h
  induction h with
  | none => exact fun _ member => absurd member List.not_mem_nil
  | failed => cases ok
  | sent s answer _ ih =>
    intro x member
    rcases List.mem_cons.mp member with rfl | later
    · exact ⟨answer, rfl⟩
    · exact ih ok x later

end Sends

/-- What a fetch may send, given whether a transaction was open before, and what comes of it. -/
inductive Fetches (features : Features) (mode : Mode) (now : Instant) (limit : Nat) :
    Bool → Except OutboxError (List Row) → Bool → List Exchange → Prop
  | alreadyOpen : Fetches features mode now limit true (.error .transactionAlreadyOpen) true []
  | unreachable (e : DatabaseError) :
    Fetches features mode now limit false (.error (.database e)) false [⟨.begin, .error e⟩]
  | conflict (started : Answer) (e : DatabaseError) (ended : Except DatabaseError Answer) :
    isLockConflict e → Fetches features mode now limit false (.ok []) false
      [⟨.begin, .ok started⟩, ⟨.run (.fetch features mode now limit), .error e⟩, ⟨.rollback, ended⟩]
  | failed (started : Answer) (e : DatabaseError) (ended : Except DatabaseError Answer) :
    isLockConflict e = false → Fetches features mode now limit false (.error (.database e)) false
      [⟨.begin, .ok started⟩, ⟨.run (.fetch features mode now limit), .error e⟩, ⟨.rollback, ended⟩]
  | unreadable (started answer : Answer) (e : DatabaseError) (ended : Except DatabaseError Answer) :
    answer.records.mapM (Record.item features) = .error e →
    Fetches features mode now limit false (.error (.database e)) false
      [⟨.begin, .ok started⟩, ⟨.run (.fetch features mode now limit), .ok answer⟩, ⟨.rollback, ended⟩]
  | fetched (started answer : Answer) (rows : List Row) :
    answer.records.mapM (Record.item features) = .ok rows →
    Fetches features mode now limit false (.ok rows) true
      [⟨.begin, .ok started⟩, ⟨.run (.fetch features mode now limit), .ok answer⟩]

/-- What a save may send, given whether a transaction was open before. It leaves none open. -/
inductive Saves (features : Features) (mode : Mode) (completed : List ItemId) (retried : List Row) :
    Bool → Except OutboxError Unit → List Exchange → Prop
  | notOpen : Saves features mode completed retried false (.error .transactionNotOpen) []
  | unsupported (ended : Except DatabaseError Answer) : retried ≠ [] → mode.lock.supportsRetry = false →
    Saves features mode completed retried true (.error .retryNotSupported) [⟨.rollback, ended⟩]
  | failed (e : DatabaseError) (ended : Except DatabaseError Answer) {l : List Exchange} :
    (retried = [] ∨ mode.lock.supportsRetry) →
    Sends (Repository.writes features mode completed retried) (.error e) l →
    Saves features mode completed retried true (.error (.database e)) (l ++ [⟨.rollback, ended⟩])
  | refused (e : DatabaseError) (ended : Except DatabaseError Answer) {l : List Exchange} :
    (retried = [] ∨ mode.lock.supportsRetry) →
    Sends (Repository.writes features mode completed retried) (.ok ()) l →
    Saves features mode completed retried true (.error (.database e))
      (l ++ [⟨.commit, .error e⟩, ⟨.rollback, ended⟩])
  | committed (answer : Answer) {l : List Exchange} :
    (retried = [] ∨ mode.lock.supportsRetry) →
    Sends (Repository.writes features mode completed retried) (.ok ()) l →
    Saves features mode completed retried true (.ok ()) (l ++ [⟨.commit, .ok answer⟩])

theorem recorded_apply (db : Database σ) (command : Command) (s : σ) (sent : List Exchange) :
    recorded db command (s, sent) = ((db command s).1, (db command s).2, sent ++ [⟨command, (db command s).1⟩]) :=
  rfl

namespace Repository

theorem rollback_recorded (db : Database σ) (s : σ) (sent : List Exchange) :
    rollback (recorded db) (s, sent) = ((db .rollback s).2, sent ++ [⟨.rollback, (db .rollback s).1⟩]) :=
  rfl

theorem fetch_fetches (db : Database σ) (features : Features) (now : Instant) (limit : Nat)
    (r : Repository) (s : σ) :
    ∃ result opened s' l,
      r.fetch (recorded db) features now limit (s, []) = (result, ⟨r.mode, opened⟩, s', l) ∧
      Fetches features r.mode now limit r.inTransaction result opened l := by
  obtain ⟨mode, inTransaction⟩ := r
  cases inTransaction with
  | true => exact ⟨_, _, _, _, rfl, .alreadyOpen⟩
  | false =>
    simp only [fetch, recorded_apply, Bool.false_eq_true, if_false]
    obtain ⟨started, s⟩ := db .begin s
    cases started with
    | error e => exact ⟨_, _, _, _, rfl, .unreachable e⟩
    | ok started =>
      simp only [recorded_apply]
      obtain ⟨answer, s⟩ := db (.run (.fetch features mode now limit)) s
      cases answer with
      | error e =>
        simp only [rollback_recorded]
        cases conflict : isLockConflict e with
        | true => exact ⟨_, _, _, _, rfl, .conflict started e _ conflict⟩
        | false => exact ⟨_, _, _, _, rfl, .failed started e _ conflict⟩
      | ok answer =>
        simp only [rollback_recorded]
        cases read : answer.records.mapM (Record.item features) with
        | error e => exact ⟨_, _, _, _, rfl, .unreadable started answer e _ read⟩
        | ok rows => exact ⟨_, _, _, _, rfl, .fetched started answer rows read⟩

theorem sendAll_sends (db : Database σ) (s : σ) (sent : List Exchange) (statements : List Statement) :
    ∃ result s' l, sendAll (recorded db) (s, sent) statements = (result, s', sent ++ l) ∧
      Sends statements result l := by
  induction statements generalizing s sent with
  | nil => exact ⟨.ok (), s, [], by simp only [sendAll, List.append_nil], .none⟩
  | cons statement rest ih =>
    simp only [sendAll, recorded_apply]
    obtain ⟨answer, s⟩ := db (.run statement) s
    cases answer with
    | error e => exact ⟨_, _, _, rfl, .failed statement rest e⟩
    | ok answer =>
      -- the rest is sent with this exchange on record
      obtain ⟨result, s', l, later, sends⟩ := ih s (sent ++ [⟨.run statement, .ok answer⟩])
      exact ⟨result, s', _, by simpa using later, .sent statement answer sends⟩

theorem save_saves (db : Database σ) (features : Features) (completed : List ItemId)
    (retried : List Row) (r : Repository) (s : σ) :
    ∃ result s' l,
      r.save (recorded db) features completed retried (s, []) = (result, ⟨r.mode, false⟩, s', l) ∧
      Saves features r.mode completed retried r.inTransaction result l := by
  obtain ⟨mode, inTransaction⟩ := r
  cases inTransaction with
  | false => exact ⟨_, _, _, rfl, .notOpen⟩
  | true =>
    simp only [save, commit, Bool.not_true, Bool.false_eq_true, if_false]
    -- whichever way it ends, the transaction was taken first
    split
    · rename_i unsupported
      rw [rollback_recorded]
      exact ⟨_, _, _, rfl, .unsupported _ unsupported.1 (by simpa using unsupported.2)⟩
    · rename_i supported
      have accepted : retried = [] ∨ mode.lock.supportsRetry := by
        by_cases none : retried = []
        · exact .inl none
        · exact .inr (by simpa [none] using supported)
      obtain ⟨result, s, l, sent, sends⟩ := sendAll_sends db s [] (writes features mode completed retried)
      rw [sent]
      cases result with
      | error e => exact ⟨_, _, _, rfl, .failed e _ accepted sends⟩
      | ok _ =>
        simp only [recorded_apply, List.nil_append]
        obtain ⟨answer, s⟩ := db .commit s
        cases answer with
        | error e =>
          simp only [rollback_recorded, List.append_assoc]
          exact ⟨_, _, _, rfl, .refused e _ accepted sends⟩
        | ok answer => exact ⟨_, _, _, rfl, .committed answer accepted sends⟩

end Repository

/-! ### The life of a unit of work -/

inductive Call where
  | fetch (now : Instant) (limit : Nat)
  | save (completed : List ItemId) (retried : List Row)

inductive Outcome where
  | fetched (result : Except OutboxError (List Row))
  | saved (result : Except OutboxError Unit)

structure Turn where
  call : Call
  outcome : Outcome
  sent : List Exchange

def Repository.turn (db : Database σ) (features : Features) (c : Call) (r : Repository) (s : σ) :
    Turn × Repository × σ :=
  match c with
  | .fetch now limit =>
    let (result, r, s, sent) := r.fetch (recorded db) features now limit (s, [])
    (⟨c, .fetched result, sent⟩, r, s)
  | .save completed retried =>
    let (result, r, s, sent) := r.save (recorded db) features completed retried (s, [])
    (⟨c, .saved result, sent⟩, r, s)

structure Life (σ : Type) where
  turns : List Turn := []
  repository : Repository
  state : σ

namespace Life

def step (db : Database σ) (features : Features) (l : Life σ) (c : Call) : Life σ :=
  let (turn, repository, state) := l.repository.turn db features c l.state
  { turns := l.turns ++ [turn], repository, state }

def sent (l : Life σ) : List Exchange := l.turns.flatMap (·.sent)

def closing (db : Database σ) (l : Life σ) : List Exchange := (l.repository.drop (recorded db) (l.state, [])).2

end Life

/-- A save sends one write at most for the rows that are done and one for those that failed, both if it
answers well, it tries to commit only if all it wrote succeeded, and it answers well if and only if it
committed. -/
structure Saves.InOrder (features : Features) (completed : List ItemId) (retried : List Row)
    (result : Except OutboxError Unit) (sent : List Exchange) : Prop where
  writes : ∀ s ∈ statements sent,
    s = .delete completed ∨ s = .complete completed ∨ s = .writeStatus (retried.map fun r => (r.id, r.fields))
  takesOut : (statements sent).countP (·.takesOut) ≤ if completed = [] then 0 else 1
  putsOff : (statements sent).countP (·.putsOff) ≤ if features.status ∧ retried ≠ [] then 1 else 0
  written : result = .ok () →
    (statements sent).countP (·.takesOut) = (if completed = [] then 0 else 1) ∧
    (statements sent).countP (·.putsOff) = if features.status ∧ retried ≠ [] then 1 else 0
  commits : ∀ answer, ⟨.commit, answer⟩ ∈ sent → ∀ x ∈ sent, x.command.statement?.isSome → x.Succeeded
  saved : result = .ok () ↔ ∃ answer, ⟨.commit, .ok answer⟩ ∈ sent

/-- Only a save commits. -/
def Turn.InOrder (features : Features) (turn : Turn) : Prop :=
  match turn.call, turn.outcome with
  | .fetch _ _, .fetched _ => ∀ x ∈ turn.sent, x.command ≠ .commit
  | .save completed retried, .saved result => Saves.InOrder features completed retried result turn.sent
  | _, _ => False

structure Life.Sound (features : Features) (l : Life σ) : Prop where
  inPlace : Phase.idle.after l.sent = some (.ofOpen l.repository.inTransaction)
  turns : ∀ turn ∈ l.turns, turn.InOrder features

/-- A unit of work that may be dropped leaves no transaction behind. -/
structure Life.Disciplined (db : Database σ) (features : Features) (l : Life σ) : Prop
    extends Life.Sound features l where
  ended : Phase.idle.after (l.sent ++ l.closing db) = some .idle
  abandoned : ∀ x ∈ l.closing db, x.command = .rollback

theorem Fetches.phase {now : Instant} {limit : Nat} {opened opened' : Bool}
    {result : Except OutboxError (List Row)} {l : List Exchange}
    (h : Fetches features mode now limit opened result opened' l) :
    (Phase.ofOpen opened).after l = some (.ofOpen opened') := by
  cases h <;> rfl

theorem Fetches.commitFree {now : Instant} {limit : Nat} {opened opened' : Bool}
    {result : Except OutboxError (List Row)} {l : List Exchange}
    (h : Fetches features mode now limit opened result opened' l) : ∀ x ∈ l, x.command ≠ .commit := by
  cases h <;> simp

section Writes

variable {completed : List ItemId} {retried : List Row}

theorem mem_writes {s : Statement} (member : s ∈ Repository.writes features mode completed retried) :
    s = .delete completed ∨ s = .complete completed ∨
      s = .writeStatus (retried.map fun r => (r.id, r.fields)) := by
  unfold Repository.writes at member
  grind

theorem countP_takesOut_writes : (Repository.writes features mode completed retried).countP (·.takesOut) =
    if completed = [] then 0 else 1 := by
  simp only [Repository.writes, List.countP_append]
  split
  · split <;> rfl
  · split <;> split <;> rfl

theorem countP_putsOff_writes : (Repository.writes features mode completed retried).countP (·.putsOff) =
    if features.status ∧ retried ≠ [] then 1 else 0 := by
  have done : (if completed = [] then [] else if mode.partitioned ∧ features.status then
      [Statement.complete completed] else [.delete completed]).countP (·.putsOff) = 0 := by
    split
    · rfl
    · split <;> rfl
  rw [Repository.writes, List.countP_append, done, Nat.zero_add]
  split <;> rfl

end Writes

namespace Saves

variable {completed : List ItemId} {retried : List Row} {opened : Bool}
  {result : Except OutboxError Unit} {l : List Exchange}

theorem phase (h : Saves features mode completed retried opened result l) :
    (Phase.ofOpen opened).after l = some .idle := by
  cases h with
  | notOpen | unsupported => rfl
  | failed e ended _ sends | refused e ended _ sends | committed answer _ sends =>
    rw [Phase.after_append, Phase.ofOpen, if_pos rfl, sends.phase]
    rfl

theorem statements (h : Saves features mode completed retried opened result l) :
    Sql.statements l <+: Repository.writes features mode completed retried := by
  cases h with
  | notOpen | unsupported => exact List.nil_prefix
  | failed e ended _ sends | refused e ended _ sends | committed answer _ sends =>
    rw [statements_append]
    exact (List.append_nil _).symm ▸ sends.statements

theorem inOrder (h : Saves features mode completed retried opened result l) :
    InOrder features completed retried result l where
  writes s member := mem_writes (h.statements.subset member)
  takesOut := Nat.le_trans h.statements.sublist.countP_le (Nat.le_of_eq countP_takesOut_writes)
  putsOff := Nat.le_trans h.statements.sublist.countP_le (Nat.le_of_eq countP_putsOff_writes)
  written ok := by
    cases h with
    | notOpen | unsupported | failed | refused => cases ok
    | @committed answer l _ sends =>
      have all : Sql.statements (l ++ [⟨.commit, .ok answer⟩]) =
          Repository.writes features mode completed retried := by
        rw [statements_append, sends.statements_eq]
        exact List.append_nil _
      rw [all]
      exact ⟨countP_takesOut_writes, countP_putsOff_writes⟩
  commits answer tried x member statement := by
    -- only a save that sent all its writes goes on to commit
    cases h with
    | notOpen | unsupported => simp at tried
    | failed e ended _ sends => simp [sends.not_commit] at tried
    | refused e ended _ sends =>
      rcases List.mem_append.mp member with sent | last
      · exact sends.succeeded x sent
      · simp only [List.mem_cons, List.not_mem_nil, or_false] at last
        rcases last with rfl | rfl <;> cases statement
    | committed answer _ sends =>
      rcases List.mem_append.mp member with sent | last
      · exact sends.succeeded x sent
      · exact ⟨answer, List.mem_singleton.mp last ▸ rfl⟩
  saved := by
    cases h with
    | notOpen | unsupported => simp
    | failed e ended _ sends | refused e ended _ sends => simp [sends.not_commit]
    | committed answer _ sends => simp

end Saves

/-! ### Any calls in any order -/

namespace Repository

theorem turn_phase (db : Database σ) (features : Features) (c : Call) (r : Repository) (s : σ) :
    (Phase.ofOpen r.inTransaction).after (r.turn db features c s).1.sent =
      some (.ofOpen (r.turn db features c s).2.1.inTransaction) := by
  cases c with
  | fetch now limit =>
    obtain ⟨result, opened, s', l, eq, fetches⟩ := r.fetch_fetches db features now limit s
    simp only [turn, eq]
    exact fetches.phase
  | save completed retried =>
    obtain ⟨result, s', l, eq, saves⟩ := r.save_saves db features completed retried s
    simp only [turn, eq]
    exact saves.phase

theorem turn_inOrder (db : Database σ) (features : Features) (c : Call) (r : Repository) (s : σ) :
    (r.turn db features c s).1.InOrder features := by
  cases c with
  | fetch now limit =>
    obtain ⟨result, opened, s', l, eq, fetches⟩ := r.fetch_fetches db features now limit s
    simp only [turn, eq]
    exact fetches.commitFree
  | save completed retried =>
    obtain ⟨result, s', l, eq, saves⟩ := r.save_saves db features completed retried s
    simp only [turn, eq]
    exact saves.inOrder

end Repository

namespace Life

variable {l : Life σ}

theorem step_sent (db : Database σ) (features : Features) (l : Life σ) (c : Call) :
    (l.step db features c).sent = l.sent ++ (l.repository.turn db features c l.state).1.sent := by
  simp [step, sent]

theorem closing_eq (db : Database σ) (l : Life σ) :
    l.closing db = if l.repository.inTransaction then [⟨.rollback, (db .rollback l.state).1⟩] else [] := by
  unfold closing Repository.drop
  split <;> rfl

theorem closing_phase (db : Database σ) (l : Life σ) :
    (Phase.ofOpen l.repository.inTransaction).after (l.closing db) = some .idle := by
  rw [closing_eq]
  cases l.repository.inTransaction <;> rfl

theorem Sound.step (h : l.Sound features) (db : Database σ) (c : Call) :
    (l.step db features c).Sound features where
  inPlace := by
    rw [step_sent, Phase.after_append, h.inPlace]
    exact l.repository.turn_phase db features c l.state
  turns turn member := by
    rcases List.mem_append.mp member with before | last
    · exact h.turns turn before
    · exact List.mem_singleton.mp last ▸ l.repository.turn_inOrder db features c l.state

theorem Sound.closed (h : l.Sound features) (db : Database σ) : l.Disciplined db features where
  toSound := h
  ended := by
    rw [Phase.after_append, h.inPlace]
    exact l.closing_phase db
  abandoned x member := by
    rw [closing_eq] at member
    split at member
    · rw [List.mem_singleton.mp member]
    · cases member

/-- Whatever the database answers, every transaction is begun when none is open and ended once, at the
latest when the unit of work is dropped, and a save commits if and only if it answers well. Where a commit
is refused, what ends the transaction is the rollback that its drop sends after it. -/
theorem disciplined (db : Database σ) (features : Features) (mode : Mode) (s : σ) (calls : List Call) :
    (calls.foldl (step db features) { repository := { mode }, state := s }).Disciplined db features := by
  have start : ({ repository := { mode }, state := s } : Life σ).Sound features :=
    ⟨rfl, fun _ member => absurd member List.not_mem_nil⟩
  have sound : (calls.foldl (step db features) { repository := { mode }, state := s }).Sound features :=
    foldl_invariant (fun _ c h _ => h.step db c) start (Along.of_forall fun _ _ _ => trivial)
  exact sound.closed db

end Life

end Outbox.Sql
