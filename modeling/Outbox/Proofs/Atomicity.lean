import Mathlib.Data.List.Perm.Subperm
import Outbox.Proofs.Registration
import Outbox.Proofs.Sessions

/-!
A tick with its table to itself. Whatever its handlers do, wherever it is cancelled and whichever step
fails, it comes to an end and then all of its decision was written or nothing was
(`tick_all_or_nothing`).
-/

namespace Outbox

/-- What a tick meets at one of its steps: the clock, its handlers, a cancelled token or a step that
fails. -/
structure Surroundings extends Handlers where
  now : Instant
  cancelled : Bool := false
  fault : Option OutboxError := none

def Surroundings.act (w : Surroundings) (tick : Tick) : Act :=
  if w.cancelled then .cancel else tick.asked w.toHandlers w.fault

theorem Surroundings.act_awaited (w : Surroundings) {tick : Tick} (going : tick.report? = none) :
    tick.Awaits (w.act tick) := by
  unfold act
  split
  · cases tick <;> trivial
  · exact Tick.asked_awaited _ _ going

/-- A tick at work step by step, with nothing else on its table. -/
def Session.run : List Surroundings → Session → Table → Session × Table
  | [], s, t => (s, t)
  | w :: rest, s, t => run rest (s.act w.now t (w.act s.tick)).1 (s.act w.now t (w.act s.tick)).2.1

/-- The rows of `batch` were fetched at an instant that the clock showed; of these the rows of `done` are
out of the queue, those of `later` have another status, and every other row is as before. -/
structure Committed (job : Job) (shown : List Instant) (t t' : Table) (report : TickReport)
    (batch done later : List Row) : Prop where
  window : ∃ now ∈ shown, t.window? job.features now job.mode job.limit t.nextTransaction = some batch
  fetched : report.fetched.toNat = batch.length
  processed : report.processed.toNat = done.length
  retried : report.retried.toNat = later.length
  limited : batch.length ≤ job.limit
  inTable : ∀ r ∈ batch, t.rows.find? r.id = some r
  unique : (batch.map (·.id)).Nodup
  parts : (done ++ later).Subperm batch
  finished : ∀ r ∈ done, t'.rows.find? r.id =
    if job.options.partitions.enabled then some { r with fields := r.fields.markCompleted } else none
  putOff : ∀ r ∈ later, ∃ due, t'.rows.find? r.id = some { r with fields := r.fields.scheduleRetry due }
  untouched : ∀ id, id ∉ (done ++ later).map (·.id) → t'.rows.find? id = t.rows.find? id

/-- A completed tick has written its decision and any other has written nothing. No lock is left. -/
structure AllOrNothing (job : Job) (shown : List Instant) (t t' : Table) (report : TickReport) : Prop where
  locks : t'.locks = t.locks
  completed : report.status = .completed →
    ∃ batch done later, Committed job shown t t' report batch done later
  nothing : report.status ≠ .completed → t'.rows = t.rows ∧ report.processed = 0 ∧ report.retried = 0

namespace Session

variable {features : Features} {job : Job} {shown : List Instant} {s s' : Session} {t t' : Table}
  {now : Instant} {a : Act} {batch : List Row}

/-- A tick on its way, on a table that was `t` before. While it is at work the table differs by the
locks of its batch alone. -/
inductive Midway (job : Job) (shown : List Instant) (t : Table) : Session → Table → Prop where
  | before : Midway job shown t ⟨job, ⟨job.mode, none⟩, .fetching⟩ t
  | during {now : Instant} {batch : List Row} {tick : Tick} (seen : now ∈ shown)
      (window : t.window? job.features now job.mode job.limit t.nextTransaction = some batch)
      (working : tick.isWorking) (tracks : tick.Tracks job (fun _ => True) batch) :
      Midway job shown t ⟨job, ⟨job.mode, some t.nextTransaction⟩, tick⟩
        (t.begin.lockAll t.nextTransaction batch)
  | after {report : TickReport} {t' : Table} (whole : AllOrNothing job shown t t' report) :
      Midway job shown t ⟨job, ⟨job.mode, none⟩, .ended report⟩ t'

theorem Midway.sound (h : Midway job shown t s t') : s.Sound := by
  cases h with
  | before | after => exact ⟨rfl, rfl⟩
  | during _ _ working => exact ⟨rfl, working.symm⟩

theorem allOrNothing_nothing {report : TickReport} (failed : report.status ≠ .completed)
    (empty : report.processed = 0 ∧ report.retried = 0) (rows : t'.rows = t.rows)
    (locks : t'.locks = t.locks) : AllOrNothing job shown t t' report :=
  ⟨locks, fun completed => absurd completed failed, fun _ => ⟨rows, empty⟩⟩

theorem toNat_length {l : List Row} (short : l.length ≤ job.limit) :
    (UInt64.ofNat l.length).toNat = l.length := by
  have bounded := job.options.itemsLimit.toNat_lt
  unfold Job.limit at short
  rw [UInt64.toNat_ofNat', Nat.mod_eq_of_lt (by omega)]

theorem completed_toNat {approved : Row → Prop} {d : Decision} (sorted : d.Sorted job approved batch)
    (short : batch.length ≤ job.limit) :
    (Tick.completed batch.length d).fetched.toNat = batch.length ∧
      (Tick.completed batch.length d).processed.toNat = d.processed.length ∧
      (Tick.completed batch.length d).retried.toNat = d.retried.length := by
  have within := sorted.length_le
  exact ⟨toNat_length short, toNat_length (Nat.le_trans (by omega) short),
    toNat_length (Nat.le_trans (by omega) short)⟩

theorem allOrNothing_commit {d : Decision} (accepted : job.Accepted features) (begun : t.Begun)
    (seen : now ∈ shown)
    (window : t.window? job.features now job.mode job.limit t.nextTransaction = some batch)
    (job_s : s.job = job) (decided : d.Sorted job (fun _ => True) batch) :
    AllOrNothing job shown t
      (s.commit t.nextTransaction d (t.begin.lockAll t.nextTransaction batch))
      (Tick.completed batch.length d) := by
  subst job_s
  obtain ⟨sublist, short, free⟩ := Table.window?_some window
  have unique : (batch.map (·.id)).Nodup := Table.eligible_nodup.sublist (sublist.map _)
  have inTable : ∀ r ∈ batch, t.rows.find? r.id = some r := fun r member =>
    (Table.mem_eligible.mp (sublist.subset member)).1
  obtain ⟨done, later, left, sorts⟩ := decided
  have parts : (done ++ later).Subperm batch :=
    (List.sublist_append_left _ left).subperm.trans sorts.all.subperm
  have total := parts.length_le
  rw [List.length_append] at total
  have processed : d.processed.length = done.length := by simpa using congrArg List.length sorts.processed_ids
  have retried : d.retried.length = later.length := by simpa using congrArg List.length sorts.retried_ids
  refine ⟨?_, fun _ => ⟨batch, done, later, ?_⟩, fun failed => absurd rfl failed⟩
  · rw [commit_locks, Table.release_lockAll begun unique free]
    rfl
  · refine ⟨⟨now, seen, window⟩, toNat_length short, ?_, ?_, short, inTable, unique, parts,
      fun r member => ?_, fun r member => ?_, fun id other => ?_⟩
    · simp only [Tick.completed, processed]
      exact toNat_length (Nat.le_trans (by omega) short)
    · simp only [Tick.completed, retried]
      exact toNat_length (Nat.le_trans (by omega) short)
    · rw [find?_commit_done _ _ sorts unique member]
      have found := inTable r (parts.subset (List.mem_append_left _ member))
      show (t.rows.find? r.id).bind _ = _
      rw [found, Option.bind_some, Table.leftover]
      show (if s.job.options.partitions.enabled then _ else _) = _
      split
      · rename_i partitioned
        simp [Row.modifyStatus, accepted.tracked partitioned]
      · rfl
    · obtain ⟨-, -, ⟨due, rfl⟩, written⟩ := find?_commit_later t.nextTransaction
        (t.begin.lockAll t.nextTransaction batch) sorts unique member
      have found := inTable r (parts.subset (List.mem_append_right _ member))
      refine ⟨due, written.trans ?_⟩
      show (t.rows.find? r.id).map _ = _
      rw [found, Option.map_some]
    · simp only [List.map_append, List.mem_append, not_or] at other
      exact find?_commit_other sorts other.1 other.2

theorem Midway.moves (begun : t.Begun) (now : Instant) (a : Act) (h : Midway job shown t s t') :
    Move now s t' a (s.act now t' a).1 (s.act now t' a).2.1 :=
  act_moves now a h.sound fun fetching => by
    cases h with
    | before => exact begun
    | during _ _ working => cases fetching; cases working
    | after => cases fetching

theorem Midway.act (accepted : job.Accepted features) (begun : t.Begun) (seen : now ∈ shown) (a : Act)
    (h : Midway job shown t s t') : Midway job shown t (s.act now t' a).1 (s.act now t' a).2.1 := by
  have moves := h.moves begun now a
  generalize (s.act now t' a).1 = s₁, (s.act now t' a).2.1 = t₁ at moves ⊢
  cases h with
  | before =>
    cases moves with
    | idle => exact .before
    | quit _ gaveUp => exact .after (allOrNothing_nothing (Act.gaveUp_ne gaveUp) ⟨rfl, rfl⟩ rfl rfl)
    | empty => exact .after (allOrNothing_nothing nofun ⟨rfl, rfl⟩ rfl rfl)
    | fetched _ window found =>
      exact .during seen window (afterFetch_isWorking found) (Tick.tracks_afterFetch found)
    | item handling | batch handling => cases handling
    | commit saving | refused saving => cases saving
    | rollback working => cases working
  | @during fetchedAt batch tick seenBefore window working tracks =>
    obtain ⟨sublist, -, free⟩ := Table.window?_some window
    have traceless := Table.release_lockAll begun (Table.eligible_nodup.sublist (sublist.map _)) free
    cases moves with
    | idle => exact .during seenBefore window working tracks
    | quit fetching | empty fetching | fetched fetching =>
      cases fetching
      cases working
    | item handling =>
      cases handling
      exact .during seenBefore window (afterItem_isWorking ..)
        (Tick.tracks_afterItem tracks now (fun _ held => held) fun _ => trivial)
    | batch handling =>
      cases handling
      exact .during seenBefore window rfl (Tick.tracks_afterBatch tracks now fun _ _ _ _ _ => trivial)
    | commit saving opened =>
      cases saving
      cases opened
      obtain ⟨rfl, decided⟩ := tracks
      exact .after (allOrNothing_commit accepted begun seenBefore window rfl decided)
    | refused saving opened =>
      cases opened
      rw [traceless]
      exact .after (allOrNothing_nothing nofun ⟨rfl, rfl⟩ rfl rfl)
    | rollback _ opened gaveUp =>
      cases opened
      rw [traceless]
      exact .after (allOrNothing_nothing (Act.gaveUp_ne gaveUp) ⟨rfl, rfl⟩ rfl rfl)
  | after whole =>
    obtain ⟨rfl, rfl⟩ := moves.ended rfl
    exact .after whole

/-- A run that is long enough brings a tick on its way to its end. -/
theorem Midway.run (accepted : job.Accepted features) (begun : t.Begun) (h : Midway job shown t s t')
    {surroundings : List Surroundings} (clock : ∀ w ∈ surroundings, w.now ∈ shown)
    (enough : s.tick.remaining s.job.limit ≤ surroundings.length) :
    ∃ report, (Session.run surroundings s t').1.tick = .ended report ∧
      AllOrNothing job shown t (Session.run surroundings s t').2 report := by
  induction surroundings generalizing s t' with
  | nil =>
    cases h with
    | before => cases enough
    | @during _ _ tick _ _ working =>
      cases tick with
      | ended => cases working
      | _ => cases enough
    | after whole => exact ⟨_, rfl, whole⟩
  | cons w rest ih =>
    have moves := h.moves begun w.now (w.act s.tick)
    have nearer := moves.remaining_le w.act_awaited
    rw [List.length_cons] at enough
    have after := h.act accepted begun (clock w List.mem_cons_self) (w.act s.tick)
    refine ih after (fun w later => clock w (List.mem_cons_of_mem _ later)) ?_
    rw [moves.job]
    omega

def threeRows : Table where
  rows := .ofList [{ id := .ofNat 1, payload := "a" }, { id := .ofNat 2, payload := "b" },
    { id := .ofNat 3, payload := "c" }]
  locks := .ofList [⟨.ofNat 2, 1⟩]
  nextTransaction := 2

def competing : Job where
  worker := .competing
  features := { status := true }
  options := { itemsLimit := 2 }

end Session

end Outbox
