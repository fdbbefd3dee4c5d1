import Mathlib.Algebra.GroupWithZero.Nat
import Mathlib.Algebra.Order.BigOperators.Group.List
import Mathlib.Algebra.Order.Group.Nat
import Outbox.Proofs.Atomicity
import Outbox.Proofs.Runs
import Outbox.Proofs.Ticks

/-!
What the counters of an outbox say about its ticks. They are raised at different points of a tick, some
of them before it can still be given up, so each is a sum over what the ticks did (`Course.tally`) and
only together with how the ticks ended a sum over their reports (`accounts_balance`).
-/

namespace Outbox

namespace Metrics

variable {m n : Metrics}

/-- Counted together, under the name of the first. -/
def add (m n : Metrics) : Metrics where
  outbox := m.outbox
  fetched := m.fetched + n.fetched
  processed := m.processed + n.processed
  retried := m.retried + n.retried
  fullBatches := m.fullBatches + n.fullBatches
  failedTicks := m.failedTicks + n.failedTicks
  itemHandlers := m.itemHandlers + n.itemHandlers
  batchHandlers := m.batchHandlers + n.batchHandlers
  processes := m.processes + n.processes
  sleeps := m.sleeps + n.sleeps

theorem record_add (m n : Metrics) (x : Sample) : (m.record x).add n = (m.add n).record x := by
  cases x <;> simp only [record, add] <;> congr 1 <;> first | omega | (split <;> omega)

theorem add_record (m n : Metrics) (x : Sample) : m.add (n.record x) = (m.add n).record x := by
  cases x <;> simp only [record, add] <;> congr 1 <;> first | omega | (split <;> omega)

theorem recordAll_add (m n : Metrics) (samples : List Sample) :
    (m.recordAll samples).add n = (m.add n).recordAll samples :=
  (List.foldl_hom (·.add n) fun m x => (record_add m n x).symm).symm

theorem add_recordAll (m n : Metrics) (samples : List Sample) :
    m.add (n.recordAll samples) = (m.add n).recordAll samples :=
  (List.foldl_hom m.add fun n x => (add_record m n x).symm).symm

end Metrics

def Reply.kind? : Reply → Option HandlerKind
  | .verdict _ => some .item
  | .outcome _ => some .batch
  | _ => none

/-! ### One step of a tick -/

namespace Session

variable {now : Instant} {s s' : Session} {t t' : Table} {a : Act} {rows : List Row}

/-- What a fetch that succeeds returns in this step. -/
def fetched? (now : Instant) (s : Session) (t : Table) (a : Act) : Option (List Row) :=
  match s.tick, a with
  | .fetching, .fetch none => (s.repository.fetch s.job.features now s.job.limit t).1.toOption
  | _, _ => none

/-- What a step adds to the metrics apart from what it fetched. -/
def noted (before : Tick) (a : Act) (after : Tick) : List Sample :=
  match before, a, after with
  | .fetching, .fetch (some _), _ => [.tickFailed]
  | .item .., .answer (.verdict _), _ => [.itemHandled]
  | .batch _, .answer (.outcome _), _ => [.batchHandled]
  | .saving _ d, .save _, .ended report =>
    if report.status = .completed then [.saved d.processed.length d.retried.length] else [.tickFailed]
  | _, _, _ => []

theorem act_samples (sound : s.Sound) (now : Instant) (t : Table) (a : Act) :
    (s.act now t a).2.2 = ((s.fetched? now t a).toList.map fun rows => .fetched rows.length s.job.limit) ++
      noted s.tick a (s.act now t a).1.tick := by
  obtain ⟨job, ⟨mode, transaction⟩, tick⟩ := s
  have opened : transaction.isSome = tick.isWorking := sound.opened
  cases tick with
  | fetching =>
    obtain rfl : transaction = none := Option.not_isSome_iff_eq_none.mp (ne_true_of_eq_false opened)
    cases a with
    | fetch fault =>
      cases fault with
      | some e => rfl
      | none =>
        rcases Repository.fetch_cases job.features now job.limit ⟨mode, none⟩ t with
          ⟨_, impossible, _⟩ | ⟨_, _, result⟩ | ⟨rows, _, _, result⟩
        · cases impossible
        · simp only [act, fetched?, result]
          rfl
        · simp only [act, fetched?, result]
          rfl
    | answer r => cases r <;> rfl
    | _ => rfl
  | saving n d =>
    obtain ⟨txn, rfl⟩ := Option.isSome_iff_exists.mp opened
    cases a with
    | save fault =>
      cases fault with
      | some e => rfl
      | none =>
        rcases Repository.save_cases job.features (d.processed.map (·.id)) d.retried ⟨mode, some txn⟩ t with
          ⟨impossible, _⟩ | ⟨_, _, _, _, result⟩ | ⟨_, _, _, result⟩
        · cases impossible
        · simp only [act, fetched?, result, settle_tick]
          rfl
        · simp only [act, fetched?, result, settle_tick]
          rfl
    | answer r => cases r <;> rfl
    | _ => rfl
  | _ =>
    cases a with
    | answer r => cases r <;> rfl
    | _ => rfl

theorem fetched?_none (other : s.tick ≠ .fetching ∨ a ≠ .fetch none) : s.fetched? now t a = none := by
  unfold fetched?
  split
  · rename_i fetching
    exact other.elim (fun h => absurd fetching h) fun h => absurd rfl h
  · rfl

theorem exists_fetched (sound : s.Sound) (fetching : s.tick = .fetching) (now : Instant) (t : Table) :
    ∃ rows, s.fetched? now t (.fetch none) = some rows ∧ rows.length ≤ s.job.limit ∧
      (s.act now t (.fetch none)).1.tick = Tick.afterFetch s.job rows := by
  obtain ⟨job, ⟨mode, transaction⟩, tick⟩ := s
  cases fetching
  obtain rfl : transaction = none := Option.not_isSome_iff_eq_none.mp (ne_true_of_eq_false sound.opened)
  rcases Repository.fetch_cases job.features now job.limit ⟨mode, none⟩ t with
    ⟨_, impossible, _⟩ | ⟨_, _, result⟩ | ⟨rows, _, window, result⟩
  · cases impossible
  · simp only [fetched?, act, result, settle_tick]
    exact ⟨[], rfl, Nat.zero_le _, rfl⟩
  · simp only [fetched?, act, result, settle_tick]
    exact ⟨rows, rfl, (Table.window?_some window).2.1, rfl⟩

theorem act_idle (sound : s.Sound) (idle : ¬ s.tick.Awaits a) : s.act now t a = (s, t, []) := by
  obtain ⟨job, ⟨mode, transaction⟩, tick⟩ := s
  have opened : transaction.isSome = tick.isWorking := sound.opened
  cases tick with
  | ended report =>
    obtain rfl : transaction = none := Option.not_isSome_iff_eq_none.mp (ne_true_of_eq_false opened)
    cases a with
    | answer r => cases r <;> rfl
    | _ => rfl
  | _ =>
    cases a with
    | answer r => cases r <;> first | rfl | exact absurd trivial idle
    | _ => first | rfl | exact absurd trivial idle

end Session

theorem Tick.report?_of_isWorking {tick : Tick} (working : tick.isWorking) : tick.report? = none := by
  cases tick <;> first | rfl | cases working

theorem Tick.report?_eq_some {tick : Tick} {report : TickReport} (finished : tick.report? = some report) :
    tick = .ended report := by
  cases tick <;> cases finished
  rfl

namespace Course

/-- How many handlers of a kind have answered. -/
def answered (c : Course) (kind : HandlerKind) : Nat := c.answers.countP (·.2.kind? = some kind)

/-- What a tick adds to the metrics on its course. -/
def tally (c : Course) : Metrics where
  outbox := ""
  fetched := c.batch.length
  processed := c.saved.elim 0 (·.processed.length)
  retried := c.saved.elim 0 (·.retried.length)
  fullBatches := if 0 < c.batch.length ∧ c.session.job.limit ≤ c.batch.length then 1 else 0
  failedTicks := if c.session.tick.report?.any (·.status = .failed) then 1 else 0
  itemHandlers := c.answered .item
  batchHandlers := c.answered .batch

variable {now : Instant} {c : Course} {s' : Session} {t t' : Table} {a : Act}

theorem follow_idle (sound : c.Sound) (idle : ¬ c.session.tick.Awaits a) : c.follow a c.session = c := by
  have batch := follow_self (a := a) sound
  obtain ⟨session, batch, answers, saved⟩ := c
  cases tick : session.tick <;> rw [tick] at idle <;> cases a with
  | answer r => cases r <;> first | exact absurd trivial idle | simp_all [follow, Tick.heard]
  | _ => first | exact absurd trivial idle | simp_all [follow, Tick.heard]

theorem Sound.unfetched (sound : c.Sound) (fetching : c.session.tick = .fetching) : c.batch = [] := by
  have tracks := sound.tracks
  rwa [fetching] at tracks

theorem tally_fetched (sound : c.Sound) {rows : List Row} (fetching : c.session.tick = .fetching)
    (job : s'.job = c.session.job) (after : s'.tick = Tick.afterFetch c.session.job rows) :
    (c.follow (.fetch none) s').tally = c.tally.record (.fetched rows.length c.session.job.limit) := by
  have failed : (Tick.afterFetch c.session.job rows).report?.any (·.status = .failed) = false := by
    cases rows with
    | nil => rfl
    | cons row rest =>
      rw [Tick.report?_of_isWorking (Session.afterFetch_isWorking (List.cons_ne_nil _ _))]
      rfl
  simp only [tally, follow, answered, fetching, after, job, toHandle_afterFetch, failed, Tick.heard, Metrics.record,
    sound.unfetched fetching]
  simp [Tick.report?]

theorem tally_gaveUp (sound : c.Sound) {status : TickStatus} (awaited : c.session.tick.Awaits a)
    (gaveUp : a.gaveUp? = some status) :
    (c.follow a (c.session.ended { status })).tally =
      c.tally.recordAll (Session.noted c.session.tick a (.ended { status })) := by
  have unfetched := sound.unfetched
  cases a with
  | answer => cases gaveUp
  | fetch fault =>
    cases fault <;> cases gaveUp
    cases tick : c.session.tick <;> rw [tick] at awaited <;> try cases awaited
    simp [tally, follow, answered, tick, unfetched, Tick.heard, Session.noted, Metrics.recordAll, Metrics.record,
      Session.ended, Tick.report?, Tick.toHandle]
  | save fault =>
    cases fault <;> cases gaveUp
    cases tick : c.session.tick <;> rw [tick] at awaited <;> try cases awaited
    simp [tally, follow, answered, tick, sound.unsaved tick, Tick.heard, Session.noted, Metrics.recordAll,
      Metrics.record, Session.ended, Tick.report?]
  | cancel =>
    cases gaveUp
    cases tick : c.session.tick <;> rw [tick] at awaited <;> try cases awaited
    all_goals simp [tally, follow, answered, tick, unfetched, Tick.heard, Session.noted, Metrics.recordAll,
      Session.ended, Tick.report?, Tick.toHandle]

/-- Whatever else a tick waits for counts as it goes on or ends. -/
theorem tally_noted (sound : c.Sound) (moves : Session.Move now c.session t a s' t')
    (awaited : c.session.tick.Awaits a) (other : ¬ (c.session.tick = .fetching ∧ a = .fetch none)) :
    (c.follow a s').tally = c.tally.recordAll (Session.noted c.session.tick a s'.tick) := by
  cases moves with
  | idle idle => exact absurd awaited idle
  | empty fetching | fetched fetching => exact absurd ⟨fetching, rfl⟩ other
  | quit _ gaveUp | rollback _ _ gaveUp => exact tally_gaveUp sound awaited gaveUp
  | @item n d row rest v handling =>
    have going := Tick.report?_of_isWorking
      (Session.afterItem_isWorking n rest (d.settle c.session.job now row (some (v.getD .retry))))
    simp only [tally, follow, answered, handling, going, Tick.heard]
    simp [Session.noted, Metrics.recordAll, Metrics.record, Tick.report?, Reply.kind?]
  | batch handling =>
    simp [tally, follow, answered, handling, Tick.heard, Session.noted, Metrics.recordAll, Metrics.record,
      Tick.report?, Reply.kind?]
  | commit saving | refused saving =>
    simp [tally, follow, answered, saving, sound.unsaved saving, Tick.heard, Session.noted, Metrics.recordAll,
      Metrics.record, Session.ended, Tick.completed, Tick.report?]

/-- A tick counts what its steps add to the metrics. -/
theorem tally_act (sound : c.Sound) (begun : c.session.tick = .fetching → t.Begun) :
    (c.act now t a).1.tally = c.tally.recordAll (c.session.act now t a).2.2 := by
  by_cases awaited : c.session.tick.Awaits a
  · have moves := Session.act_moves now a sound.session begun
    rw [Session.act_samples sound.session]
    by_cases fetch : c.session.tick = .fetching ∧ a = .fetch none
    · obtain ⟨fetching, rfl⟩ := fetch
      obtain ⟨rows, fetched, -, after⟩ := Session.exists_fetched sound.session fetching now t
      rw [fetched, fetching]
      exact tally_fetched sound fetching moves.job after
    · rw [Session.fetched?_none (not_and_or.mp fetch)]
      exact tally_noted sound moves awaited fetch
  · simp only [act, Session.act_idle sound.session awaited, follow_idle sound awaited]
    rfl

/-! ### How a tick ends -/

/-- The report of a tick that is over is that of its save, or it says that there was none. -/
inductive Over (c : Course) : TickReport → Prop where
  | completed {d : Decision} (saved : c.saved = some d) : Over c (Tick.completed c.batch.length d)
  | incomplete {status : TickStatus} (unsaved : c.saved = none) (other : status ≠ .completed)
      (unfetched : status = .empty → c.batch = []) : Over c { status }

def Reported (c : Course) : Prop := ∀ report, c.session.tick = .ended report → c.Over report

theorem Sound.unsaved_of_report? (sound : c.Sound) (going : c.session.tick.report? = none) : c.saved = none := by
  cases saved : c.saved with
  | none => rfl
  | some d =>
    obtain ⟨-, report, ended⟩ := sound.saved d saved
    rw [ended] at going
    cases going

theorem reported_working (working : s'.tick.isWorking) : (c.follow a s').Reported := by
  intro report ended
  rw [show s'.tick = .ended report from ended] at working
  cases working

theorem reported_incomplete (sound : c.Sound) {status : TickStatus} (going : c.session.tick.report? = none)
    (other : status ≠ .completed) (unfetched : status = .empty → c.session.tick = .fetching) :
    (c.follow a (c.session.ended { status })).Reported := by
  intro report ended
  cases ended
  refine .incomplete ?_ other fun empty => ?_
  · have unsaved := sound.unsaved_of_report? going
    cases tick : c.session.tick <;> simp [follow, tick, Session.ended, other, unsaved]
  · simp [follow, unfetched empty, Session.ended, Tick.toHandle]

theorem reported_follow (sound : c.Sound) (moves : Session.Move now c.session t a s' t')
    (reported : c.Reported) : (c.follow a s').Reported := by
  cases moves with
  | idle =>
    intro report ended
    have same : c.follow a c.session = c := follow_ended ended
    rw [same] at ended ⊢
    exact reported report ended
  | quit fetching gaveUp =>
    refine reported_incomplete sound (by rw [fetching]; rfl) (Act.gaveUp_ne gaveUp) fun _ => fetching
  | empty fetching =>
    refine reported_incomplete sound (by rw [fetching]; rfl) (by decide) fun _ => fetching
  | fetched _ _ found => exact reported_working (Session.afterFetch_isWorking found)
  | item => exact reported_working (Session.afterItem_isWorking ..)
  | batch => exact reported_working rfl
  | @commit n d _ saving =>
    intro report ended
    cases ended
    have tracks := sound.tracks
    rw [saving] at tracks
    obtain ⟨rfl, -⟩ := tracks
    have batch : (c.follow (.save none) (c.session.ended (Tick.completed c.batch.length d))).batch = c.batch :=
      follow_batch (by simp [saving])
    rw [← batch]
    exact .completed (by simp [follow, saving, Session.ended, Tick.completed])
  | refused saving =>
    refine reported_incomplete sound (by rw [saving]; rfl) (by decide) fun empty => ?_
    cases empty
  | rollback working _ gaveUp =>
    have other : ∀ status, a.gaveUp? = some status → status ≠ .empty := by
      intro status gaveUp
      unfold Act.gaveUp? at gaveUp
      split at gaveUp <;> cases gaveUp <;> decide
    exact reported_incomplete sound (Tick.report?_of_isWorking working) (Act.gaveUp_ne gaveUp)
      fun empty => absurd empty (other _ gaveUp)

variable {report : TickReport}

/-- What a tick counts as processed and put off is what its report says if it was completed. -/
theorem tally_reported (sound : c.Sound) (short : c.batch.length ≤ c.session.job.limit) (reported : c.Reported) :
    c.tally.processed =
        (c.session.tick.report?.filter (·.status = .completed)).elim 0 (·.processed.toNat) ∧
      c.tally.retried = (c.session.tick.report?.filter (·.status = .completed)).elim 0 (·.retried.toNat) ∧
      c.tally.failedTicks = (c.session.tick.report?.filter (·.status = .failed)).elim 0 fun _ => 1 := by
  simp only [tally]
  cases ended : c.session.tick.report? with
  | none =>
    rw [sound.unsaved_of_report? ended]
    exact ⟨rfl, rfl, rfl⟩
  | some report =>
    have finished := reported report (Tick.report?_eq_some ended)
    clear ended
    cases finished with
    | completed saved =>
      obtain ⟨-, processed, retried⟩ := Session.completed_toNat (sound.saved _ saved).1 short
      rw [saved]
      exact ⟨processed.symm, retried.symm, rfl⟩
    | @incomplete status unsaved =>
      rw [unsaved]
      cases status <;> exact ⟨rfl, rfl, rfl⟩

/-- A tick reports what it fetched unless it failed or was given up afterwards. -/
theorem fetched_reported (sound : c.Sound) (short : c.batch.length ≤ c.session.job.limit) (finished : c.Over report) :
    report.fetched.toNat ≤ c.tally.fetched ∧ (report.fetched.toNat = c.tally.fetched ↔
      (c.batch ≠ [] → report.status ≠ .failed ∧ report.status ≠ .cancelled)) := by
  cases finished with
  | completed saved =>
    obtain ⟨fetched, -⟩ := Session.completed_toNat (sound.saved _ saved).1 short
    rw [fetched]
    exact ⟨Nat.le_refl _, fun _ _ => ⟨nofun, nofun⟩, fun _ => rfl⟩
  | @incomplete status unsaved other unfetched =>
    refine ⟨Nat.zero_le _, fun same found => ?_, fun kept => ?_⟩
    · exact absurd (List.length_eq_zero_iff.mp same.symm) found
    · by_cases found : c.batch = []
      · rw [tally, found]
        rfl
      · obtain ⟨unfailed, uncancelled⟩ := kept found
        cases status with
        | empty => exact absurd (unfetched rfl) found
        | completed => exact absurd rfl other
        | failed => exact absurd rfl unfailed
        | cancelled => exact absurd rfl uncancelled

end Course

/-! ### Rows that are deleted -/

namespace Table

def gone (t t' : Table) : List Row := t.rows.toList.filter fun r => (t'.rows.find? r.id).isNone

theorem gone_of_kept {t t' : Table} (kept : ∀ id, (t.rows.find? id).isSome → (t'.rows.find? id).isSome) :
    t.gone t' = [] := by
  refine List.filter_eq_nil_iff.mpr fun r member missing => ?_
  have there := kept r.id (by rw [Keyed.find?_of_mem member]; rfl)
  rw [Option.isNone_iff_eq_none.mp missing] at there
  cases there

end Table

namespace Session

variable {s : Session} {approved : Row → Prop} {batch : List Row} {d : Decision} {t : Table}

/-- A commit deletes what is done unless done rows stay, and nothing else. -/
theorem isSome_find?_commit (txn : TransactionId) (sorted : d.Sorted s.job approved batch)
    (unique : (batch.map (·.id)).Nodup) (id : ItemId) :
    ((s.commit txn d t).rows.find? id).isSome ↔
      (t.rows.find? id).isSome ∧ (s.job.options.partitions.enabled ∨ id ∉ d.processed.map (·.id)) := by
  obtain ⟨done, later, left, sorts⟩ := sorted
  rw [sorts.processed_ids]
  by_cases finished : id ∈ done.map (·.id)
  · obtain ⟨r, member, rfl⟩ := List.mem_map.mp finished
    rw [find?_commit_done txn t sorts unique member]
    unfold Table.leftover
    cases t.rows.find? r.id with
    | none => simp
    | some row => by_cases partitioned : s.job.options.partitions.enabled <;> simp [Job.mode, partitioned, finished]
  · by_cases off : id ∈ later.map (·.id)
    · obtain ⟨r, member, rfl⟩ := List.mem_map.mp off
      obtain ⟨after, -, -, written⟩ := find?_commit_later txn t sorts unique member
      rw [written]
      simp [finished]
    · rw [find?_commit_other sorts finished off]
      simp [finished]

theorem length_gone_commit (txn : TransactionId) (sorted : d.Sorted s.job approved batch)
    (unique : (batch.map (·.id)).Nodup) (there : ∀ r ∈ batch, (t.rows.find? r.id).isSome) :
    (t.gone (s.commit txn d t)).length =
      if s.job.options.partitions.enabled then 0 else d.processed.length := by
  have left := isSome_find?_commit (t := t) txn sorted unique
  split
  · rename_i partitioned
    rw [Table.gone_of_kept fun id before => (left id).mpr ⟨before, .inl partitioned⟩]
    rfl
  · rename_i plain
    have ids : ((t.gone (s.commit txn d t)).map (·.id)).Perm (d.processed.map (·.id)) := by
      have distinct : ((t.gone (s.commit txn d t)).map (·.id)).Nodup :=
        (Keyed.nodup_keys t.rows).sublist (List.filter_sublist.map Row.id)
      refine (List.perm_ext_iff_of_nodup distinct (sorted.nodup_processed unique)).mpr fun id => ?_
      constructor
      · intro member
        obtain ⟨r, missing, rfl⟩ := List.mem_map.mp member
        obtain ⟨inTable, missing⟩ := List.mem_filter.mp missing
        by_contra undone
        have kept := (left r.id).mpr ⟨by rw [Keyed.find?_of_mem inTable]; rfl, .inr undone⟩
        rw [Option.isNone_iff_eq_none.mp missing] at kept
        cases kept
      · intro done
        obtain ⟨r, inBatch, rfl, -⟩ := sorted.exists_of_processed done
        obtain ⟨row, found⟩ := Option.isSome_iff_exists.mp (there r inBatch)
        have missing : ((s.commit txn d t).rows.find? r.id).isNone := by
          rw [← Option.not_isSome]
          simp only [Bool.not_eq_true', Bool.eq_false_iff]
          intro kept
          rcases ((left r.id).mp kept).2 with partitioned | undone
          · exact plain partitioned
          · exact undone done
        have same := Keyed.key_of_find? found
        refine List.mem_map.mpr ⟨row, List.mem_filter.mpr ⟨Keyed.mem_of_find? found, ?_⟩, same⟩
        rwa [same]
    simpa using ids.length_eq

end Session

/-! ### Ticks that share their metrics -/

namespace Tallies

/-- A fetch that succeeded: what was asked for and what was returned. -/
structure Fetch where
  limit : Nat
  rows : List Row

def fetches (now : Instant) (s : Session) (t : Table) (a : Act) : List Fetch :=
  (s.fetched? now t a).toList.map (⟨s.job.limit, ·⟩)

def Fetch.isFull (f : Fetch) : Bool := f.rows ≠ [] ∧ f.rows.length = f.limit

structure State where
  ticks : Ticks.State
  metrics : Metrics
  fetches : List Fetch := []
  /-- The rows that ticks deleted. -/
  deleted : List Row := []

def step (s : State) (e : Ticks.Event) : State :=
  match e with
  | .act i a =>
    match s.ticks.courses[i]? with
    | some c =>
      let (_, table, samples) := c.session.act s.ticks.now s.ticks.table a
      { ticks := Ticks.step s.ticks (.act i a)
        metrics := s.metrics.recordAll samples
        fetches := s.fetches ++ fetches s.ticks.now c.session s.ticks.table a
        deleted := s.deleted ++ s.ticks.table.gone table }
    | none => s
  | e => { s with ticks := Ticks.step s.ticks e }

def start (outbox : String) (now : Instant) (table : Table) : State where
  ticks := { now, table }
  metrics := { outbox }

def State.reports (s : State) : List TickReport := s.ticks.courses.filterMap (·.session.tick.report?)

def State.answered (s : State) (kind : HandlerKind) : Nat := (s.ticks.courses.map (·.answered kind)).sum

/-- What the metrics say of the ticks that share them. -/
structure Balanced (s : State) : Prop where
  processed : s.metrics.processed =
    ((s.reports.filter (·.status = .completed)).map (·.processed.toNat)).sum
  retried : s.metrics.retried = ((s.reports.filter (·.status = .completed)).map (·.retried.toNat)).sum
  deleted : (∀ c ∈ s.ticks.courses, c.session.job.options.partitions.enabled = false) →
    s.metrics.processed = s.deleted.length
  failed : s.metrics.failedTicks = (s.reports.filter (·.status = .failed)).length
  fetched : s.metrics.fetched = (s.fetches.map (·.rows.length)).sum
  /-- A tick that fetched rows and failed or was given up reports none of them. -/
  reported : (∀ c ∈ s.ticks.courses, c.session.tick.report?.isSome) →
    (s.metrics.fetched = (s.reports.map (·.fetched.toNat)).sum ↔
      ∀ c ∈ s.ticks.courses, c.batch ≠ [] → ∀ report, c.session.tick = .ended report →
        report.status ≠ .failed ∧ report.status ≠ .cancelled)
  full : s.metrics.fullBatches = s.fetches.countP Fetch.isFull
  items : s.metrics.itemHandlers = s.answered .item
  batches : s.metrics.batchHandlers = s.answered .batch

def total (courses : List Course) : Metrics := courses.foldr (fun c m => c.tally.add m) { outbox := "" }

def removed (c : Course) : Nat := if c.session.job.options.partitions.enabled then 0 else c.tally.processed

structure Accounting (others : List Lock) (s : State) : Prop where
  sound : Ticks.Sound others s.ticks
  short : ∀ c ∈ s.ticks.courses, c.batch.length ≤ c.session.job.limit
  finished : ∀ c ∈ s.ticks.courses, c.Reported
  there : ∀ c ∈ s.ticks.courses, c.session.tick.isWorking →
    ∀ r ∈ c.batch, (s.ticks.table.rows.find? r.id).isSome
  metrics : ∃ outbox, s.metrics = Metrics.add { outbox } (total s.ticks.courses)
  fetched : s.metrics.fetched = (s.fetches.map (·.rows.length)).sum
  full : s.metrics.fullBatches = s.fetches.countP Fetch.isFull
  deleted : s.deleted.length = (s.ticks.courses.map removed).sum

variable {others : List Lock} {s : State} {i : Nat} {c c' : Course} {courses : List Course}

/-! ### Sums over the ticks -/

theorem total_set {samples : List Sample} (at_i : courses[i]? = some c)
    (more : c'.tally = c.tally.recordAll samples) :
    total (courses.set i c') = (total courses).recordAll samples := by
  induction courses generalizing i with
  | nil => cases at_i
  | cons first rest ih =>
    cases i with
    | zero =>
      cases at_i
      simp only [List.set_cons_zero, total, List.foldr_cons, more]
      exact Metrics.recordAll_add ..
    | succ i =>
      have later := ih (i := i) at_i
      simp only [List.set_cons_succ, total, List.foldr_cons] at later ⊢
      rw [later]
      exact Metrics.add_recordAll ..

/-- A count of the total is the sum of that count. -/
theorem total_count {p : Metrics → Nat} (adds : ∀ m n, p (m.add n) = p m + p n)
    (none : p { outbox := "" } = 0) (courses : List Course) :
    p (total courses) = (courses.map fun c => p c.tally).sum := by
  induction courses with
  | nil => exact none
  | cons c rest ih =>
    rw [List.map_cons, List.sum_cons, ← ih]
    exact adds _ _

theorem sum_place (f : Course → Nat) (at_i : courses[i]? = some c) :
    ((courses.set i c').map f).sum + f c = (courses.map f).sum + f c' := by
  obtain ⟨below, rfl⟩ := List.getElem?_eq_some_iff.mp at_i
  have before := ((List.getElem_cons_eraseIdx_perm below).map f).sum_eq
  have after := ((List.set_perm_cons_eraseIdx below c').map f).sum_eq
  simp only [List.map_cons, List.sum_cons] at before after
  omega

theorem sum_reports (p : TickReport → Bool) (f : TickReport → Nat) (courses : List Course) :
    (((courses.filterMap (·.session.tick.report?)).filter p).map f).sum =
      (courses.map fun c => (c.session.tick.report?.filter p).elim 0 f).sum := by
  induction courses with
  | nil => rfl
  | cons c rest ih =>
    rw [List.map_cons, List.sum_cons, ← ih]
    cases ended : c.session.tick.report? with
    | none => simp [ended]
    | some report => by_cases kept : p report <;> simp [ended, kept, Option.filter]

/-- Where no term is greater than its counterpart the sums are equal only if all terms are. -/
theorem sum_eq_iff {f g : Course → Nat} (le : ∀ c ∈ courses, f c ≤ g c) :
    (courses.map g).sum = (courses.map f).sum ↔ ∀ c ∈ courses, f c = g c := by
  induction courses with
  | nil => simp
  | cons c rest ih =>
    have first := le c List.mem_cons_self
    have others := fun c member => le c (List.mem_cons_of_mem _ member)
    have rest_le : (rest.map f).sum ≤ (rest.map g).sum := List.sum_le_sum others
    simp only [List.map_cons, List.sum_cons, List.forall_mem_cons, ← ih others]
    omega

theorem total_concat (nothing : c.tally = { outbox := "" }) : total (courses ++ [c]) = total courses := by
  simp only [total, List.foldr_append, List.foldr_cons, List.foldr_nil, nothing]
  rfl

/-! ### What a step records -/

theorem recordAll_noted (m : Metrics) (before : Tick) (a : Act) (after : Tick) :
    (m.recordAll (Session.noted before a after)).fetched = m.fetched ∧
      (m.recordAll (Session.noted before a after)).fullBatches = m.fullBatches := by
  unfold Session.noted
  split
  · exact ⟨rfl, rfl⟩
  · exact ⟨rfl, rfl⟩
  · exact ⟨rfl, rfl⟩
  · split <;> exact ⟨rfl, rfl⟩
  · exact ⟨rfl, rfl⟩

/-- A step records what it fetched where it fetched, whatever else it records. -/
theorem recordAll_fetches {session : Session} (sound : session.Sound) (m : Metrics) (now : Instant) (t : Table)
    (a : Act) :
    (m.recordAll (session.act now t a).2.2).fetched =
        m.fetched + ((fetches now session t a).map (·.rows.length)).sum ∧
      (m.recordAll (session.act now t a).2.2).fullBatches =
        m.fullBatches + (fetches now session t a).countP Fetch.isFull := by
  rw [Session.act_samples sound]
  by_cases fetch : session.tick = .fetching ∧ a = .fetch none
  · obtain ⟨fetching, rfl⟩ := fetch
    obtain ⟨rows, fetched, short, -⟩ := Session.exists_fetched sound fetching now t
    have full : (0 < rows.length ∧ session.job.limit ≤ rows.length) ↔
        (rows ≠ [] ∧ rows.length = session.job.limit) := by
      rw [List.length_pos_iff]
      exact and_congr_right fun _ => ⟨short.antisymm, fun same => same.ge⟩
    have quiet : Session.noted .fetching (.fetch none) (session.act now t (.fetch none)).1.tick = [] := rfl
    rw [fetching, quiet, fetches, fetched]
    refine ⟨rfl, ?_⟩
    simp only [Metrics.recordAll, Metrics.record, Option.toList, List.map_cons, List.map_nil, List.append_nil,
      List.foldl_cons, List.foldl_nil, List.countP_singleton, Fetch.isFull, decide_eq_true_eq, full]
    split <;> rfl
  · have none : session.fetched? now t a = none := Session.fetched?_none (not_and_or.mp fetch)
    rw [fetches, none]
    exact recordAll_noted m _ a _

/-! ### Runs -/

namespace Accounting

theorem begun (h : Accounting others s) : s.ticks.table.Begun := h.sound.locks.allBegun

theorem begin (h : Accounting others s) (job : Job) (cancelled : Bool) :
    Accounting others (step s (.begin job cancelled)) := by
  have sound := Ticks.step_sound h.sound (.begin job cancelled)
  have each {P : Course → Prop} (old : ∀ c ∈ s.ticks.courses, P c)
      (new : P { session := .start job cancelled }) :
      ∀ c ∈ s.ticks.courses ++ [{ session := .start job cancelled }], P c := by
    intro c member
    rcases List.mem_append.mp member with before | last
    · exact old c before
    · exact List.mem_singleton.mp last ▸ new
  have nothing : Course.tally { session := .start job cancelled } = { outbox := "" } := by
    cases cancelled <;> rfl
  refine ⟨sound, each h.short (Nat.zero_le _), each h.finished ?_, each h.there ?_, ?_, h.fetched, h.full, ?_⟩
  · intro report ended
    cases cancelled <;> cases ended
    exact .incomplete rfl (by decide) fun _ => rfl
  · intro working
    cases cancelled <;> cases working
  · obtain ⟨outbox, total⟩ := h.metrics
    exact ⟨outbox, total.trans (congrArg _ (total_concat nothing).symm)⟩
  · simpa [step, Ticks.step, removed, nothing] using h.deleted

/-- The rows of ticks at work stay: no other tick has them, and no insert takes rows away. -/
theorem there_act (h : Accounting others s) (at_i : s.ticks.courses[i]? = some c) {table : Table}
    (effect : Course.Effect s.ticks.now c s.ticks.table c' table) :
    ∀ e ∈ (s.ticks.place i c' table).courses, e.session.tick.isWorking →
      ∀ r ∈ e.batch, (table.rows.find? r.id).isSome := by
  have member := List.mem_of_getElem? at_i
  have course := h.sound.courses c member
  intro e placed working r inBatch
  rcases Ticks.State.of_mem_place placed with rfl | ⟨j, apart, at_j⟩
  · cases effect with
    | quiet rows _ batch going =>
      rw [rows]
      exact h.there c member (going working) r (batch ▸ inBatch)
    | fetched rows _ window =>
      have eligible := (Table.window?_some window).1.subset inBatch
      rw [rows, (Table.mem_eligible.mp eligible).1]
      rfl
    | committed _ _ _ ended =>
      rw [ended] at working
      cases working
  · have before := h.there e (List.mem_of_getElem? at_j) working r inBatch
    cases effect with
    | quiet rows | fetched rows => rwa [rows]
    | committed saving =>
      have disjoint := h.sound.disjoint at_i at_j apart (by rw [saving]; rfl) working
      refine (Session.isSome_find?_commit _ (course.decided saving) course.unique r.id).mpr ⟨before, .inr ?_⟩
      intro done
      obtain ⟨r', inBatch', same, -⟩ := (course.decided saving).exists_of_processed done
      exact disjoint (same ▸ List.mem_map_of_mem inBatch') (List.mem_map_of_mem inBatch)

theorem deleted_act (h : Accounting others s) (at_i : s.ticks.courses[i]? = some c) {table : Table}
    (job : c'.session.job = c.session.job) (effect : Course.Effect s.ticks.now c s.ticks.table c' table) :
    (s.deleted ++ s.ticks.table.gone table).length = ((s.ticks.courses.set i c').map removed).sum := by
  have member := List.mem_of_getElem? at_i
  have course := h.sound.courses c member
  have sums : ((s.ticks.courses.set i c').map removed).sum + removed c = _ := sum_place removed at_i
  rw [List.length_append, h.deleted]
  cases effect with
  | quiet rows saved | fetched rows saved =>
    have same : removed c' = removed c := by simp only [removed, Course.tally, job, saved]
    rw [Table.gone_of_kept fun id there => by rwa [rows], List.length_nil]
    omega
  | @committed _ d txn saving saved =>
    have there := h.there c member (by rw [saving]; rfl)
    have gone := Session.length_gone_commit txn (course.decided saving) course.unique there
    have before : removed c = 0 := by simp [removed, Course.tally, course.unsaved saving]
    have after : removed c' = if c.session.job.options.partitions.enabled then 0 else d.processed.length := by
      simp [removed, Course.tally, saved, job]
    omega

theorem act (h : Accounting others s) (at_i : s.ticks.courses[i]? = some c) (a : Act) :
    Accounting others (step s (.act i a)) := by
  have sound := Ticks.step_sound h.sound (.act i a)
  have member := List.mem_of_getElem? at_i
  have course := h.sound.courses c member
  have moves := h.sound.moves at_i a
  have effect := Course.follow_effect course moves
  have tally : (c.act s.ticks.now s.ticks.table a).1.tally = _ := Course.tally_act course fun _ => h.begun
  obtain ⟨outbox, total⟩ := h.metrics
  obtain ⟨fetched, full⟩ := recordAll_fetches course.session s.metrics s.ticks.now s.ticks.table a
  simp only [Tallies.step, at_i, Ticks.step_act at_i] at sound ⊢
  refine ⟨sound, Ticks.State.forall_place h.short ?_, Ticks.State.forall_place h.finished ?_, ?_, ⟨outbox, ?_⟩, ?_, ?_, ?_⟩
  · exact Course.follow_short course moves (h.short c member)
  · exact Course.reported_follow course moves (h.finished c member)
  · exact h.there_act at_i effect
  · rw [total, ← Metrics.add_recordAll, ← total_set at_i tally]
    rfl
  · rw [fetched, h.fetched, List.map_append, List.sum_append]
  · rw [full, h.full, List.countP_append]
  · exact h.deleted_act at_i moves.job effect

theorem step (h : Accounting others s) (e : Ticks.Event) : Accounting others (step s e) := by
  cases e with
  | insert rows =>
    refine ⟨Ticks.step_sound h.sound (.insert rows), h.short, h.finished, fun c member working r inBatch => ?_,
      h.metrics, h.fetched, h.full, h.deleted⟩
    exact Keyed.isSome_find?_foldl_insert (h.there c member working r inBatch)
  | clock now =>
    exact ⟨Ticks.step_sound h.sound (.clock now), h.short, h.finished, h.there, h.metrics, h.fetched, h.full, h.deleted⟩
  | begin job cancelled => exact h.begin job cancelled
  | act i a =>
    cases at_i : s.ticks.courses[i]? with
    | none =>
      simp only [Tallies.step, at_i]
      exact h
    | some c => exact h.act at_i a

theorem start (outbox : String) (now : Instant) {t : Table} (begun : t.Begun) :
    Accounting t.locks.toList (Tallies.start outbox now t) where
  sound := ⟨.before begun, fun _ member => absurd member List.not_mem_nil⟩
  short _ member := absurd member List.not_mem_nil
  finished _ member := absurd member List.not_mem_nil
  there _ member := absurd member List.not_mem_nil
  metrics := ⟨outbox, rfl⟩
  fetched := rfl
  full := rfl
  deleted := rfl

theorem run (h : Accounting others s) (events : List Ticks.Event) :
    Accounting others (events.foldl Tallies.step s) :=
  foldl_invariant (P := fun _ _ => True) (fun _ e h _ => h.step e) h (Along.of_forall fun _ _ _ => trivial)

theorem balanced (h : Accounting others s) : Balanced s := by
  obtain ⟨outbox, total⟩ := h.metrics
  have count {p : Metrics → Nat} (adds : ∀ m n, p (m.add n) = p m + p n) (none : ∀ outbox, p { outbox } = 0) :
      p s.metrics = (s.ticks.courses.map fun c => p c.tally).sum := by
    rw [total, adds, none, Nat.zero_add]
    exact total_count adds (none _) _
  have agrees := fun c member =>
    Course.tally_reported (h.sound.courses c member) (h.short c member) (h.finished c member)
  constructor
  case processed =>
    rw [State.reports, sum_reports, count (p := Metrics.processed) (fun _ _ => rfl) fun _ => rfl]
    exact congrArg List.sum (List.map_congr_left fun c member => (agrees c member).1)
  case retried =>
    rw [State.reports, sum_reports, count (p := Metrics.retried) (fun _ _ => rfl) fun _ => rfl]
    exact congrArg List.sum (List.map_congr_left fun c member => (agrees c member).2.1)
  case deleted =>
    intro plain
    rw [h.deleted, count (p := Metrics.processed) (fun _ _ => rfl) fun _ => rfl]
    exact congrArg List.sum (List.map_congr_left fun c member => by simp [removed, plain c member])
  case failed =>
    have counted := sum_reports (·.status = .failed) (fun _ => 1) s.ticks.courses
    rw [List.map_const', List.sum_replicate_nat, Nat.mul_one] at counted
    rw [State.reports, counted, count (p := Metrics.failedTicks) (fun _ _ => rfl) fun _ => rfl]
    exact congrArg List.sum (List.map_congr_left fun c member => (agrees c member).2.2)
  case fetched => exact h.fetched
  case reported =>
    intro ended
    have all := sum_reports (fun _ => true) (·.fetched.toNat) s.ticks.courses
    rw [List.filter_true] at all
    have each : ∀ c ∈ s.ticks.courses, ∃ report, c.session.tick = .ended report ∧ c.Over report := by
      intro c member
      obtain ⟨report, finished⟩ := Option.isSome_iff_exists.mp (ended c member)
      have ended := Tick.report?_eq_some finished
      exact ⟨report, ended, h.finished c member report ended⟩
    rw [State.reports, all, count (p := Metrics.fetched) (fun _ _ => rfl) fun _ => rfl, sum_eq_iff]
    · refine forall₂_congr fun c member => ?_
      obtain ⟨report, ended, finished⟩ := each c member
      rw [ended]
      have reported := (Course.fetched_reported (h.sound.courses c member) (h.short c member) finished).2
      refine reported.trans ⟨fun kept found report same => ?_, fun kept found => kept found report rfl⟩
      cases same
      exact kept found
    · intro c member
      obtain ⟨report, ended, finished⟩ := each c member
      rw [ended]
      exact (Course.fetched_reported (h.sound.courses c member) (h.short c member) finished).1
  case full => exact h.full
  case items => exact count (p := Metrics.itemHandlers) (fun _ _ => rfl) fun _ => rfl
  case batches => exact count (p := Metrics.batchHandlers) (fun _ _ => rfl) fun _ => rfl

end Accounting

/-- Whatever ticks run over a table, however they end, their metrics balance with what they did. A fetch
of no rows is never counted as a full batch, not even where none were asked for. -/
theorem accounts_balance (outbox : String) (now : Instant) {t : Table} (begun : t.Begun)
    (events : List Ticks.Event) : Balanced (events.foldl step (start outbox now t)) :=
  ((Accounting.start outbox now begun).run events).balanced

def pair : Table where
  rows := .ofList [{ id := .ofNat 1, payload := "a" }, { id := .ofNat 2, payload := "b" }]

def worker (type : WorkerType) (limit : UInt64) : Job where
  worker := type
  features := { status := true }
  options := { workerType := type, itemsLimit := limit }

/-- A tick whose save fails, one that is given up with a handler at work, and one that is completed. -/
def mixed : List Ticks.Event :=
  [.begin (worker .batchStrictOrdering 2) false, .act 0 (.fetch none), .act 0 (.answer (.outcome none)),
    .act 0 (.save (some (.database .rowNotFound))),
    .begin (worker .strictOrdering 1) false, .act 1 (.fetch none), .act 1 .cancel,
    .begin (worker .competing 3) false, .act 2 (.fetch none), .act 2 (.answer (.verdict (some .ok))),
    .act 2 (.answer (.verdict (some .retry))), .act 2 (.save none)]

theorem accounts_balance_mixed : pair.Begun ∧ Balanced (mixed.foldl step (start "orders" .epoch pair)) ∧
    (mixed.foldl step (start "orders" .epoch pair)).metrics =
      { outbox := "orders", fetched := 5, processed := 1, retried := 1, fullBatches := 2, failedTicks := 1,
        itemHandlers := 2, batchHandlers := 1 } ∧
    (mixed.foldl step (start "orders" .epoch pair)).reports.map (fun r => (r.status, r.fetched)) =
      [(.failed, 0), (.cancelled, 0), (.completed, 2)] := by
  have begun : pair.Begun := fun _ member => absurd member List.not_mem_nil
  exact ⟨begun, accounts_balance "orders" .epoch begun mixed, by decide, by decide⟩

/-- The one fetch of this run returns as many rows as were asked for, and no full batch is counted. -/
theorem empty_batch_full : ¬ ∀ events : List Ticks.Event,
    (events.foldl step (start "orders" .epoch {})).metrics.fullBatches =
      (events.foldl step (start "orders" .epoch {})).fetches.countP fun f => f.rows.length = f.limit := by
  intro counted
  have fetch := counted [.begin (worker .competing 0) false, .act 0 (.fetch none)]
  exact absurd fetch (by decide)

end Tallies

end Outbox
