import Outbox.Proofs.Registration
import Outbox.Proofs.Sessions

/-!
Any number of ticks on one table, with inserts and a moving clock between their steps. Each tick is
followed on its course: what it fetched, what its handlers answered and what its save wrote. Whatever
the order of the steps, the locks are exact and every tick keeps track of its batch (`step_sound`).
-/

namespace Outbox

/-- The answer says of the row that it went well. -/
def Reply.Approves (row : Row) : Reply → Prop
  | .verdict (some v) => v.isSuccess
  | .outcome (some b) => b.allProcessed ∨ ∃ v, b.verdicts.lookup row.id = some v ∧ v.isSuccess
  | _ => False

namespace Tick

def atHand : Tick → List Row
  | .item _ _ row _ => [row]
  | .batch rows => rows
  | _ => []

/-- The answer of a handler, with the rows it is about. -/
def heard : Tick → Act → List (List Row × Reply)
  | .item _ _ row _, .answer (.verdict v) => [([row], .verdict v)]
  | .batch rows, .answer (.outcome b) => [(rows, .outcome b)]
  | _, _ => []

end Tick

/-- A tick, and what became of it so far: the batch it fetched, the answers about rows of it, and the
decision that its save wrote. -/
structure Course where
  session : Session
  batch : List Row := []
  answers : List (List Row × Reply) := []
  saved : Option Decision := none

namespace Course

def follow (c : Course) (a : Act) (session : Session) : Course where
  session
  batch := match c.session.tick with
    | .fetching => session.tick.toHandle
    | _ => c.batch
  answers := c.answers ++ c.session.tick.heard a
  saved := match c.session.tick, session.tick with
    | .saving _ d, .ended report => if report.status = .completed then some d else c.saved
    | _, _ => c.saved

def act (now : Instant) (c : Course) (t : Table) (a : Act) : Course × Table :=
  let (session, t, _) := c.session.act now t a
  (c.follow a session, t)

def Approved (c : Course) (row : Row) : Prop :=
  ∃ rows reply, (rows, reply) ∈ c.answers ∧ row ∈ rows ∧ reply.Approves row

/-- The locks of a tick are those of its batch while it is at work. -/
def holding (c : Course) : Holding := ⟨c.session.repository.transaction, c.batch.map (·.id)⟩

structure Sound (c : Course) : Prop where
  session : c.session.Sound
  tracks : c.session.tick.Tracks c.session.job c.Approved c.batch
  unique : (c.batch.map (·.id)).Nodup
  saved : ∀ d, c.saved = some d →
    d.Sorted c.session.job c.Approved c.batch ∧ ∃ report, c.session.tick = .ended report

variable {now : Instant} {c c' : Course} {s' : Session} {t t' : Table} {a : Act} {others : List Lock}
  {rest : List Holding}

/-- What a step of a tick means for the rows: nothing, or a batch of them is taken up, or a decision
about the batch is written. -/
inductive Effect (now : Instant) (c : Course) (t : Table) : Course → Table → Prop where
  | quiet {c' : Course} {t' : Table} (rows : t'.rows = t.rows) (saved : c'.saved = c.saved)
      (batch : c'.batch = c.batch)
      (working : c'.session.tick.isWorking → c.session.tick.isWorking) : Effect now c t c' t'
  | fetched {c' : Course} {t' : Table} (rows : t'.rows = t.rows) (saved : c'.saved = c.saved)
      (window : t.window? c.session.job.features now c.session.job.mode c.session.job.limit
        t.nextTransaction = some c'.batch) : Effect now c t c' t'
  | committed {c' : Course} {n : Nat} {d : Decision} {txn : TransactionId}
      (saving : c.session.tick = .saving n d) (saved : c'.saved = some d)
      (batch : c'.batch = c.batch) (ended : c'.session.tick = .ended (Tick.completed n d)) :
      Effect now c t c' (c.session.commit txn d t)

theorem toHandle_afterFetch (job : Job) (rows : List Row) :
    (Tick.afterFetch job rows).toHandle = rows := by
  cases rows with
  | nil => rfl
  | cons row rest =>
    simp only [Tick.afterFetch]
    split <;> rfl

theorem follow_batch (working : c.session.tick ≠ .fetching) : (c.follow a s').batch = c.batch := by
  unfold follow
  split
  · rename_i fetching
    exact absurd fetching working
  · rfl

theorem follow_saved (other : ∀ n d, c.session.tick ≠ .saving n d) :
    (c.follow a s').saved = c.saved := by
  unfold follow
  simp only
  split
  · rename_i saving _
    exact absurd saving (other _ _)
  · rfl

theorem follow_self (sound : c.Sound) : (c.follow a c.session).batch = c.batch := by
  have tracks := sound.tracks
  cases tick : c.session.tick <;> rw [tick] at tracks <;> simp only [follow, tick]
  exact tracks.symm

theorem follow_ended {report : TickReport} (ended : c.session.tick = .ended report) :
    c.follow a c.session = c := by
  cases c
  simp_all [follow, Tick.heard]

theorem follow_effect (sound : c.Sound) (moves : Session.Move now c.session t a s' t') :
    Effect now c t (c.follow a s') t' := by
  have tracks := sound.tracks
  cases moves with
  | idle =>
    refine .quiet rfl ?_ (follow_self sound) id
    cases tick : c.session.tick <;> simp [follow, tick]
  | quit fetching | empty fetching =>
    rw [fetching] at tracks
    refine .quiet rfl (follow_saved (by simp [fetching])) ?_ (fun working => by cases working)
    simp only [follow, fetching]
    exact tracks.symm
  | fetched fetching window =>
    refine .fetched rfl (follow_saved (by simp [fetching])) ?_
    simp only [follow, fetching, Session.opening, toHandle_afterFetch]
    exact window
  | item handling =>
    exact .quiet rfl (follow_saved (by simp [handling])) (follow_batch (by simp [handling]))
      (by simp [handling, Tick.isWorking])
  | batch handling =>
    exact .quiet rfl (follow_saved (by simp [handling])) (follow_batch (by simp [handling]))
      (by simp [handling, Tick.isWorking])
  | commit saving =>
    exact .committed saving (by simp [follow, saving, Session.ended, Tick.completed])
      (follow_batch (by simp [saving])) rfl
  | refused saving =>
    exact .quiet rfl (by simp [follow, saving, Session.ended]) (follow_batch (by simp [saving]))
      (fun working => by cases working)
  | rollback working opened gaveUp =>
    have failed := Act.gaveUp_ne gaveUp
    refine .quiet rfl ?_ (follow_batch ?_) (fun working => by cases working)
    · cases tick : c.session.tick <;> simp [follow, tick, Session.ended, failed]
    · intro fetching
      rw [fetching] at working
      cases working

/-- No batch is longer than what was asked for. -/
theorem follow_short (sound : c.Sound) (moves : Session.Move now c.session t a s' t')
    (short : c.batch.length ≤ c.session.job.limit) : (c.follow a s').batch.length ≤ s'.job.limit := by
  have effect := follow_effect sound moves
  rw [moves.job]
  generalize c.follow a s' = c' at effect ⊢
  cases effect with
  | quiet _ _ batch | committed _ _ batch => rwa [batch]
  | fetched _ _ window => exact (Table.window?_some window).2.1

theorem Approved.follow {row : Row} (h : c.Approved row) : (c.follow a s').Approved row := by
  obtain ⟨rows, reply, member, about, approves⟩ := h
  exact ⟨rows, reply, List.mem_append_left _ member, about, approves⟩

theorem follow_approved {rows : List Row} {reply : Reply} {row : Row}
    (heard : c.session.tick.heard a = [(rows, reply)]) (about : row ∈ rows)
    (approves : reply.Approves row) : (c.follow a s').Approved row :=
  ⟨rows, reply, List.mem_append_right _ (by simp [heard]), about, approves⟩

theorem approves_of_batchVerdict {job : Job} {b : Option BatchOutcome} {row : Row} {v : Verdict}
    (verdict : Decision.batchVerdict job b row = some v) (success : v.isSuccess) :
    (Reply.outcome b).Approves row := by
  cases b with
  | none =>
    cases lock : job.worker.lock <;> simp only [Decision.batchVerdict, lock] at verdict
    · cases verdict
      cases success
    · cases verdict
  | some b =>
    simp only [Decision.batchVerdict, BatchOutcome.verdict?] at verdict
    split at verdict
    · rename_i all
      exact .inl all
    · exact .inr ⟨v, verdict, success⟩

theorem follow_tracks (sound : c.Sound) (moves : Session.Move now c.session t a s' t') :
    s'.tick.Tracks s'.job (c.follow a s').Approved (c.follow a s').batch := by
  have grows : ∀ r, c.Approved r → (c.follow a s').Approved r := fun _ => Approved.follow
  have tracks := sound.tracks
  cases moves with
  | idle =>
    rw [follow_self sound]
    exact tracks.mono grows
  | quit | empty | commit | refused | rollback => trivial
  | fetched fetching _ found =>
    simp only [follow, fetching, Session.opening, toHandle_afterFetch]
    exact Tick.tracks_afterFetch found
  | @item n d row rest v handling =>
    rw [handling] at tracks
    rw [follow_batch (by simp [handling])]
    have heard : c.session.tick.heard (.answer (.verdict v)) = [([row], .verdict v)] := by
      rw [handling]
      rfl
    refine Tick.tracks_afterItem tracks now grows fun success => ?_
    refine follow_approved heard (List.mem_singleton_self row) ?_
    cases v with
    | none => cases success
    | some v => exact success
  | @batch rows b handling =>
    rw [handling] at tracks
    rw [follow_batch (by simp [handling])]
    refine Tick.tracks_afterBatch tracks now fun r member v verdict success => ?_
    refine follow_approved (by rw [handling]; rfl) (tracks ▸ member)
      (approves_of_batchVerdict verdict success)

theorem Sound.unsaved (sound : c.Sound) {n : Nat} {d : Decision}
    (saving : c.session.tick = .saving n d) : c.saved = none := by
  cases written : c.saved with
  | none => rfl
  | some d' =>
    obtain ⟨-, report, ended⟩ := sound.saved d' written
    cases saving.symm.trans ended

theorem Sound.decided (sound : c.Sound) {n : Nat} {d : Decision}
    (saving : c.session.tick = .saving n d) : d.Sorted c.session.job c.Approved c.batch := by
  have tracks := sound.tracks
  rw [saving] at tracks
  exact tracks.2

theorem Sound.of_mem_atHand (sound : c.Sound) {r : Row} (member : r ∈ c.session.tick.atHand) :
    c.session.tick.isWorking ∧ r ∈ c.batch := by
  have tracks := sound.tracks
  cases tick : c.session.tick with
  | item n d row rest =>
    rw [tick] at tracks member
    obtain ⟨-, seen, whole, -⟩ := tracks
    rw [List.mem_singleton.mp member, ← whole]
    exact ⟨rfl, List.mem_append_right _ List.mem_cons_self⟩
  | batch rows =>
    rw [tick] at tracks member
    exact ⟨rfl, tracks ▸ member⟩
  | _ =>
    rw [tick] at member
    cases member

theorem follow_sound (sound : c.Sound) (moves : Session.Move now c.session t a s' t') :
    (c.follow a s').Sound where
  session := moves.sound sound.session
  tracks := follow_tracks sound moves
  unique := by
    have effect := follow_effect sound moves
    generalize c.follow a s' = c' at effect ⊢
    cases effect with
    | quiet _ _ batch => exact batch ▸ sound.unique
    | fetched _ _ window =>
      exact Table.eligible_nodup.sublist ((Table.window?_some window).1.map _)
    | committed _ _ batch => exact batch ▸ sound.unique
  saved d written := by
    cases before : c.saved with
    | some d' =>
      -- a tick that saved is over, so nothing happened
      obtain ⟨sorted, report, ended⟩ := sound.saved d' before
      obtain ⟨rfl, rfl⟩ := moves.ended ended
      rw [follow_saved (by simp [ended]), before] at written
      cases written
      rw [follow_batch (by simp [ended])]
      exact ⟨sorted.mono fun _ => Approved.follow, report, ended⟩
    | none =>
      have effect := follow_effect sound moves
      have tracks := sound.tracks
      have job : (c.follow a s').session.job = c.session.job := moves.job
      have grows : ∀ r, c.Approved r → (c.follow a s').Approved r := fun _ => Approved.follow
      generalize c.follow a s' = c' at *
      cases effect with
      | quiet _ saved | fetched _ saved => cases before.symm.trans (saved.symm.trans written)
      | committed saving saved batch ended =>
        cases saved.symm.trans written
        rw [saving] at tracks
        rw [job, batch]
        exact ⟨tracks.2.mono grows, _, ended⟩

end Course

namespace Table.LocksExact

variable {now : Instant} {c : Course} {s' : Session} {t t' : Table} {a : Act} {others : List Lock}
  {rest : List Holding}

theorem follow (h : LocksExact others (c.holding :: rest) t) (sound : c.Sound)
    (moves : Session.Move now c.session t a s' t') :
    LocksExact others ((c.follow a s').holding :: rest) t' := by
  have opened := sound.session.opened
  have closed (fetching : c.session.tick = .fetching) : LocksExact others rest t := by
    rw [fetching] at opened
    exact (cons_closed (Option.not_isSome_iff_eq_none.mp (ne_true_of_eq_false opened))).mp h
  have same (batch : (c.follow a s').batch = c.batch)
      (transaction : s'.repository.transaction = c.session.repository.transaction) :
      (c.follow a s').holding = c.holding := by
    unfold Course.holding
    rw [batch]
    exact congrArg (Holding.mk · _) transaction
  cases moves with
  | idle =>
    rw [same (Course.follow_self sound) rfl]
    exact h
  | quit fetching => exact (cons_closed rfl).mpr (closed fetching)
  | empty fetching => exact (cons_closed rfl).mpr (closed fetching).begin
  | fetched fetching window =>
    obtain ⟨sublist, -, free⟩ := window?_some window
    have locked := (closed fetching).lock (eligible_nodup.sublist (sublist.map _)) free
    simp only [Course.holding, Course.follow, fetching, Session.opening, Course.toHandle_afterFetch]
    exact locked
  | item handling | batch handling =>
    rw [same (Course.follow_batch (by simp [handling])) rfl]
    exact h
  | @commit n d txn _ opened =>
    have written : LocksExact others (c.holding :: rest) (t.write c.session.job.features
        c.session.job.mode.partitioned (d.processed.map (·.id)) d.retried) :=
      h.congr (write_locks ..) (write_nextTransaction ..)
    exact (cons_closed rfl).mpr (written.release opened)
  | refused _ opened | rollback _ opened => exact (cons_closed rfl).mpr (h.release opened)

end Table.LocksExact

namespace Ticks

structure State where
  now : Instant
  table : Table := {}
  courses : List Course := []
  inserted : List Row := []

def State.place (s : State) (i : Nat) (c : Course) (table : Table) : State :=
  { s with table, courses := s.courses.set i c }

inductive Event where
  | insert (rows : List Row)
  | clock (now : Instant)
  | begin (job : Job) (cancelled : Bool)
  | act (tick : Nat) (a : Act)

/-- One step of the system. A step of a tick that was not begun changes nothing. -/
def step (s : State) : Event → State
  | .insert rows => { s with table := s.table.insert rows, inserted := s.inserted ++ rows }
  | .clock now => { s with now }
  | .begin job cancelled => { s with courses := s.courses ++ [{ session := .start job cancelled }] }
  | .act i a =>
    match s.courses[i]? with
    | some c =>
      let (c, table) := c.act s.now s.table a
      s.place i c table
    | none => s

variable {others : List Lock} {s : State} {e : Event} {i : Nat} {c : Course}

/-- The locks are those of `others` and of the ticks at work, and each tick keeps track of its batch. -/
structure Sound (others : List Lock) (s : State) : Prop where
  locks : s.table.LocksExact others (s.courses.map (·.holding))
  courses : ∀ c ∈ s.courses, c.Sound

theorem Sound.moves (h : Sound others s) (at_i : s.courses[i]? = some c) (a : Act) :
    Session.Move s.now c.session s.table a (c.session.act s.now s.table a).1
      (c.session.act s.now s.table a).2.1 :=
  Session.act_moves s.now a (h.courses c (List.mem_of_getElem? at_i)).session fun _ => h.locks.allBegun

theorem step_act (at_i : s.courses[i]? = some c) (a : Act) :
    step s (.act i a) = s.place i (c.act s.now s.table a).1 (c.act s.now s.table a).2 := by
  simp only [step, at_i]

theorem Sound.disjoint (h : Sound others s) {j : Nat} {e : Course} (at_i : s.courses[i]? = some c)
    (at_j : s.courses[j]? = some e) (apart : j ≠ i) (hc : c.session.tick.isWorking)
    (he : e.session.tick.isWorking) : (c.batch.map (·.id)).Disjoint (e.batch.map (·.id)) := by
  obtain ⟨a, ha⟩ := Option.isSome_iff_exists.mp
    ((h.courses c (List.mem_of_getElem? at_i)).session.opened.trans hc)
  obtain ⟨b, hb⟩ := Option.isSome_iff_exists.mp
    ((h.courses e (List.mem_of_getElem? at_j)).session.opened.trans he)
  have other : e ∈ s.courses.eraseIdx i := List.mem_eraseIdx_iff_getElem?.mpr ⟨j, apart, at_j⟩
  exact ((Table.LocksExact.focus at_i).mp h.locks).disjoint (List.mem_map_of_mem other) ha hb

/-- After a step of tick `i` the other ticks are as before. -/
theorem State.of_mem_place {table : Table} {e : Course} (placed : e ∈ (s.place i c table).courses) :
    e = c ∨ ∃ j, j ≠ i ∧ s.courses[j]? = some e := by
  obtain ⟨j, at_j⟩ := List.getElem?_of_mem placed
  simp only [State.place] at at_j
  by_cases same : j = i
  · subst same
    rw [List.getElem?_set] at at_j
    split at at_j
    · split at at_j <;> cases at_j
      exact .inl rfl
    · rename_i other
      exact absurd rfl other
  · rw [List.getElem?_set_ne (Ne.symm same)] at at_j
    exact .inr ⟨j, same, at_j⟩

theorem getElem?_place {c' e : Course} {t : Table} (at_j : (s.place i c' t).courses[j]? = some e) :
    j = i ∧ e = c' ∨ j ≠ i ∧ s.courses[j]? = some e := by
  simp only [State.place, List.getElem?_set] at at_j
  split at at_j
  · rename_i same
    split at at_j
    · exact .inl ⟨same.symm, (Option.some.inj at_j).symm⟩
    · cases at_j
  · rename_i other
    exact .inr ⟨fun same => other same.symm, at_j⟩

theorem State.forall_place {P : Course → Prop} {table : Table} (old : ∀ e ∈ s.courses, P e)
    (new : P c) : ∀ e ∈ (s.place i c table).courses, P e := by
  intro e placed
  rcases List.mem_or_eq_of_mem_set placed with other | rfl
  · exact old e other
  · exact new

theorem begin_sound (job : Job) (cancelled : Bool) :
    Course.Sound { session := .start job cancelled } := by
  cases cancelled <;> exact ⟨⟨rfl, rfl⟩, by trivial, .nil, nofun⟩

theorem step_sound (h : Sound others s) (e : Event) : Sound others (step s e) := by
  cases e with
  | insert rows => exact ⟨h.locks.congr rfl rfl, h.courses⟩
  | clock now => exact ⟨h.locks, h.courses⟩
  | begin job cancelled =>
    refine ⟨?_, fun c member => ?_⟩
    · have closed : (Session.start job cancelled).repository.transaction = none := by
        cases cancelled <;> rfl
      have grown := (Table.LocksExact.cons_closed (u := Course.holding { session := .start job cancelled })
        closed).mpr h.locks
      simp only [step, List.map_append, List.map_cons, List.map_nil]
      exact grown.perm (List.perm_append_singleton _ _).symm
    · rcases List.mem_append.mp member with old | new
      · exact h.courses c old
      · rw [List.mem_singleton.mp new]
        exact begin_sound job cancelled
  | act i a =>
    simp only [step]
    split
    · rename_i c at_i
      have sound := h.courses c (List.mem_of_getElem? at_i)
      have moves := h.moves at_i a
      refine ⟨?_, State.forall_place h.courses (Course.follow_sound sound moves)⟩
      exact (Table.LocksExact.focus_set at_i _).mpr
        (((Table.LocksExact.focus at_i).mp h.locks).follow sound moves)
    · exact h

end Ticks

end Outbox
