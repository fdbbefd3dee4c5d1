import Outbox.Proofs.CommitOrder
import Outbox.Proofs.Rescheduling
import Outbox.Proofs.Walks

/-!
What becomes of the rows of a batch. A tick that keeps to the order of the queue takes the longest
front of its batch that went well out of it (`Course.strict_commits_front`); one that competes settles
each row by its own verdict (`Course.competing_settles_each`). Others may be at the table meanwhile.
-/

namespace Outbox

namespace Handlers

variable {h : Handlers} {job : Job} {batch : List Row} {row : Row}

/-- The row went well: its outcome is `ok` or `skip`, or all of the batch is processed. -/
def Succeeds (h : Handlers) (kind : HandlerKind) (batch : List Row) (row : Row) : Prop :=
  match kind with
  | .item => h.item row = some .ok ∨ h.item row = some .skip
  | .batch => ∃ b, h.batch batch = some b ∧ (b.allProcessed ∨
      b.verdicts.lookup row.id = some .ok ∨ b.verdicts.lookup row.id = some .skip)

/-- The outcome of the row is `retry`, or the handler of the row or of the whole batch failed. -/
def Fails (h : Handlers) (kind : HandlerKind) (batch : List Row) (row : Row) : Prop :=
  match kind with
  | .item => h.item row = some .retry ∨ h.item row = none
  | .batch => (∃ b, h.batch batch = some b ∧ b.allProcessed = false ∧
      b.verdicts.lookup row.id = some .retry) ∨ h.batch batch = none

theorem isSuccess_iff {v : Verdict} : v.isSuccess ↔ v = .ok ∨ v = .skip := by
  cases v <;> decide

theorem succeeds_iff : h.Succeeds job.worker.handlerKind batch row ↔
    (h.verdict? job batch row).any (·.isSuccess) := by
  unfold Succeeds
  cases kind : job.worker.handlerKind with
  | item =>
    rw [Tick.verdict?_item kind]
    cases h.item row with
    | none => simp [Verdict.isSuccess]
    | some v => simp [isSuccess_iff]
  | batch =>
    rw [Tick.verdict?_batch kind]
    cases h.batch batch with
    | none => cases lock : job.worker.lock <;> simp [Decision.batchVerdict, lock, Verdict.isSuccess]
    | some b =>
      simp only [Option.some.injEq, exists_eq_left', Decision.batchVerdict, BatchOutcome.verdict?]
      cases b.allProcessed with
      | true => simp [Verdict.isSuccess]
      | false => cases b.verdicts.lookup row.id <;> simp [isSuccess_iff]

theorem fails_iff (competing : job.worker.lock = .skipLocked) :
    h.Fails job.worker.handlerKind batch row ↔ h.verdict? job batch row = some .retry := by
  unfold Fails
  cases kind : job.worker.handlerKind with
  | item =>
    rw [Tick.verdict?_item kind]
    cases h.item row <;> simp
  | batch =>
    rw [Tick.verdict?_batch kind]
    cases h.batch batch with
    | none => simp [Decision.batchVerdict, competing]
    | some b =>
      simp only [Option.some.injEq, exists_eq_left', Decision.batchVerdict, BatchOutcome.verdict?]
      cases b.allProcessed <;> simp

end Handlers

namespace Table

variable {features : Features} {partitioned : Bool} {t t' : Table} {ids : List ItemId}

/-- Rows of which nothing was written stand as they stood. -/
theorem filter_rows_eq (same : ∀ id, id ∉ ids → t'.rows.find? id = t.rows.find? id) :
    t'.rows.toList.filter (·.id ∉ ids) = t.rows.toList.filter (·.id ∉ ids) := by
  have filtered : t'.rows.filter (·.id ∉ ids) = t.rows.filter (·.id ∉ ids) := by
    apply Keyed.ext_find?
    intro id
    rw [Keyed.find?_filter, Keyed.find?_filter]
    by_cases inside : id ∈ ids
    · have gone (s : Keyed Row.id) : (s.find? id).filter (fun r => decide (r.id ∉ ids)) = none := by
        cases found : s.find? id with
        | none => rfl
        | some r => simp [Option.filter, Keyed.key_of_find? found, inside]
      rw [gone, gone]
    · rw [same id inside]
  exact congrArg Keyed.toList filtered

theorem filter_eligible_eq (same : ∀ id, id ∉ ids → t'.rows.find? id = t.rows.find? id) (now : Instant) :
    (t'.eligible features now partitioned).filter (·.id ∉ ids) =
      (t.eligible features now partitioned).filter (·.id ∉ ids) := by
  apply eq_of_precedes (eligible_pairwise.filter _) (eligible_pairwise.filter _)
  intro row
  rw [List.mem_filter, List.mem_filter, mem_eligible, mem_eligible]
  apply and_congr_left
  intro outside
  rw [same row.id (by simpa using outside)]

end Table

namespace Decision

/-- Of the rows of `batch`, in their order, those of `done` are processed and those of `later`
rescheduled; no row is both. -/
structure Divides (job : Job) (now : Instant) (batch done later : List Row) (d : Decision) : Prop where
  finishing : done.Sublist batch
  puttingOff : later.Sublist batch
  apart : done.Disjoint later
  processed : d.processed = done.map (·.modifyStatus job.features .markCompleted)
  retried : List.Forall₂ (fun row put => job.reschedule now row = .scheduled put) later d.retried

theorem Divides.sorts {job : Job} {now : Instant} {batch done later : List Row} {d : Decision}
    (h : d.Divides job now batch done later) (accepted : d.retried = [] ∨ job.worker.lock.supportsRetry)
    (unique : (batch.map (·.id)).Nodup) : ∃ left, d.Sorts job (fun _ => True) batch done later left := by
  have distinct : batch.Nodup := unique.of_map
  have parts : (done ++ later).Subperm batch := by
    apply List.subperm_of_subset
    · exact (distinct.sublist h.finishing).append (distinct.sublist h.puttingOff) h.apart
    · exact List.append_subset.mpr ⟨h.finishing.subset, h.puttingOff.subset⟩
  obtain ⟨chosen, same, sublist⟩ := parts
  obtain ⟨left, whole⟩ := sublist.exists_perm_append
  have putOff : List.Forall₂ Row.PutOff later d.retried :=
    h.retried.imp fun _ _ scheduled => (reschedule_scheduled scheduled).2
  have whole := (same.symm.append_right left).trans whole.symm
  refine ⟨left, whole, fun _ _ => trivial, h.processed, putOff, ?_⟩
  cases later with
  | nil => exact .inl rfl
  | cons row rest =>
    right
    obtain ⟨put, member, scheduled⟩ := exists_paired h.retried List.mem_cons_self
    refine ⟨?_, (reschedule_scheduled scheduled).1⟩
    have supported := accepted.resolve_left (List.ne_nil_of_mem member)
    cases lock : job.worker.lock with
    | skipLocked => rfl
    | noWait =>
      rw [lock] at supported
      cases supported

end Decision

namespace Course

/-- What a save makes of a decision that divides its batch so: the tick reports as many rows, and of
the table nothing else is written. -/
structure Commits (job : Job) (now : Instant) (c : Course) (d : Decision) (done later : List Row)
    (t : Table) (after : Course × Table) : Prop where
  divides : d.Divides job now c.batch done later
  report : ∃ report, after.1.session.tick = .ended report ∧ report.status = .completed ∧
    report.fetched.toNat = c.batch.length ∧ report.processed.toNat = done.length ∧
    report.retried.toNat = later.length
  finished : ∀ row ∈ done, after.2.rows.find? row.id =
    if job.options.partitions.enabled then
      (t.rows.find? row.id).map (·.modifyStatus job.features .markCompleted)
    else none
  putOff : ∀ row ∈ later, ∀ put, job.reschedule now row = .scheduled put →
    after.2.rows.find? row.id = (t.rows.find? row.id).map fun r => { r with fields := put.fields }
  untouched : ∀ id, id ∉ (done ++ later).map (·.id) → after.2.rows.find? id = t.rows.find? id

variable {h : Handlers} {job : Job} {now : Instant} {encounters : List Encounter} {c : Course}
  {n : Nat} {d : Decision} {done later : List Row}

theorem Follows.fetched (follows : Follows h job now encounters c) (saving : c.session.tick = .saving n d) :
    ∃ e ∈ encounters,
      e.table.window? job.features e.now job.mode job.limit e.table.nextTransaction = some c.batch :=
  (follows.underway (by rw [saving]; rfl)).2

theorem Follows.save (follows : Follows h job now encounters c) (saving : c.session.tick = .saving n d)
    (accepted : d.retried = [] ∨ job.worker.lock.supportsRetry) (clock : Instant) (t : Table) :
    (c.act clock t (.save none)).1.session.tick = .ended (Tick.completed c.batch.length d) ∧
      ∃ txn, (c.act clock t (.save none)).2 = c.session.commit txn d t := by
  have working : c.session.tick.isWorking := by rw [saving]; rfl
  obtain ⟨txn, opened⟩ := Option.isSome_iff_exists.mp (follows.sound.session.opened.trans working)
  have walks := follows.walks
  rw [saving] at walks
  obtain ⟨rfl, -⟩ := walks
  obtain rfl := follows.ofJob
  obtain ⟨completed, written⟩ :=
    Session.act_save follows.sound.session saving opened accepted clock t
  exact ⟨congrArg Session.tick completed, txn, written⟩

theorem Follows.commits (follows : Follows h job now encounters c) (saving : c.session.tick = .saving n d)
    (accepted : d.retried = [] ∨ job.worker.lock.supportsRetry)
    (divides : d.Divides job now c.batch done later) (clock : Instant) (t : Table) :
    c.Commits job now d done later t (c.act clock t (.save none)) := by
  obtain ⟨ended, txn, written⟩ := follows.save saving accepted clock t
  obtain ⟨e, -, window⟩ := follows.fetched saving
  obtain rfl := follows.ofJob
  have unique := follows.sound.unique
  obtain ⟨left, sorts⟩ := divides.sorts accepted unique
  obtain ⟨fetched, processed, retried⟩ :=
    Session.completed_toNat (follows.sound.decided saving) (Table.window?_some window).2.1
  refine ⟨divides, ⟨_, ended, rfl, fetched, ?_, ?_⟩, ?_, ?_, ?_⟩
  · rw [processed, divides.processed, List.length_map]
  · rw [retried, ← divides.retried.length_eq]
  · intro row finished
    rw [written, Session.find?_commit_done txn t sorts unique finished]
    cases t.rows.find? row.id with
    | none => split <;> rfl
    | some r => rfl
  · intro row off put scheduled
    obtain ⟨put', member, scheduled'⟩ := exists_paired divides.retried off
    cases scheduled.symm.trans scheduled'
    have restamped := Session.find?_commit_retried txn t sorts unique member
    obtain ⟨-, due, rfl⟩ := reschedule_scheduled scheduled
    rw [written]
    exact restamped
  · intro id outside
    rw [List.map_append, List.mem_append, not_or] at outside
    rw [written]
    exact Session.find?_commit_other sorts outside.1 outside.2

end Course

/-! ### Workers that keep to the order of the queue -/

/-- The longest front of the rows all of which are as `p` says. -/
structure LongestFront (p : Row → Prop) (rows front : List Row) : Prop where
  first : front <+: rows
  all : ∀ r ∈ front, p r
  longest : ∀ other, other <+: rows → (∀ r ∈ other, p r) → other <+: front

theorem longestFront_takeWhile (p : Row → Bool) (rows : List Row) :
    LongestFront (p · = true) rows (rows.takeWhile p) where
  first := List.takeWhile_prefix p
  all r member := List.all_eq_true.mp List.all_takeWhile r member
  longest other := by
    induction rows generalizing other with
    | nil =>
      intro none _
      exact List.prefix_nil.mp none ▸ List.nil_prefix
    | cons row rest ih =>
      intro front good
      cases other with
      | nil => exact List.nil_prefix
      | cons r others =>
        obtain ⟨rfl, tail⟩ := List.cons_prefix_cons.mp front
        rw [List.takeWhile_cons_of_pos (good r List.mem_cons_self)]
        have onwards := ih others tail fun x member => good x (List.mem_cons_of_mem r member)
        exact List.cons_prefix_cons.mpr ⟨rfl, onwards⟩

namespace Decision

variable {job : Job} {rows seen : List Row}

theorem about_noWait (strict : job.worker.lock = .noWait) (h : Handlers) (now : Instant)
    (batch : List Row) : about h job now batch =
      finishing job (batch.takeWhile fun r => (h.verdict? job batch r).any (·.isSuccess)) := by
  have settled := settleAll_noWait strict now [] batch (h.verdict? job batch)
  rw [List.nil_append] at settled
  exact settled

/-- The walk in order ends with the first row that did not go well. -/
theorem visited_noWait (strict : job.worker.lock = .noWait) (now : Instant) (seen rows : List Row)
    (verdict : Row → Option Verdict) :
    visited job now verdict (finishing job seen) rows =
      rows.take ((rows.takeWhile fun r => (verdict r).any (·.isSuccess)).length + 1) := by
  induction rows generalizing seen with
  | nil => rfl
  | cons row rest ih =>
    simp only [visited, settle_noWait strict, List.takeWhile_cons]
    cases (verdict row).any (·.isSuccess) with
    | true => simp only [if_true, ih, List.length_cons, List.take_succ_cons]
    | false => rfl

end Decision

namespace Course

variable {h : Handlers} {job : Job} {now : Instant} {encounters : List Encounter} {c : Course}
  {n : Nat} {d : Decision} {done later : List Row}

/-- What a tick in order commits is the longest front of the batch that it fetched of which every row
went well. An item handler was called for these rows and the one after them. All other rows stand as
they stood, in the table and in the queue. -/
structure CommitsFront (h : Handlers) (job : Job) (encounters : List Encounter) (c : Course) (now : Instant)
    (d : Decision) (done : List Row) (t : Table) (after : Course × Table) : Prop where
  fetched : ∃ e ∈ encounters,
    e.table.window? job.features e.now job.mode job.limit e.table.nextTransaction = some c.batch
  front : LongestFront (h.Succeeds job.worker.handlerKind c.batch) c.batch done
  commits : c.Commits job now d done [] t after
  called : c.answers.map (·.1) = match job.worker.handlerKind with
    | .item => (c.batch.take (done.length + 1)).map ([·])
    | .batch => [c.batch]
  rows : after.2.rows.toList.filter (·.id ∉ done.map (·.id)) =
    t.rows.toList.filter (·.id ∉ done.map (·.id))
  queue : ∀ now, (after.2.eligible job.features now job.mode.partitioned).filter (·.id ∉ done.map (·.id)) =
    (t.eligible job.features now job.mode.partitioned).filter (·.id ∉ done.map (·.id))

theorem strict_commits_front (strict : job.worker.lock = .noWait)
    (steady : ∀ e ∈ encounters, e.toHandlers = h)
    (saving : (through job encounters).session.tick = .saving n d) (now : Instant) (t : Table) :
    ∃ done, CommitsFront h job encounters (through job encounters) now d done t
      ((through job encounters).act now t (.save none)) := by
  have follows : Follows h job now encounters (through job encounters) :=
    through_follows fun e member => ⟨steady e member, .inl strict⟩
  generalize through job encounters = c at saving follows ⊢
  have walks := follows.walks
  have calls := (follows.underway (by rw [saving]; rfl)).1
  rw [saving] at walks calls
  obtain ⟨-, rfl⟩ := walks
  have decided := Decision.about_noWait strict h now c.batch
  have front := longestFront_takeWhile (fun r => (h.verdict? job c.batch r).any (·.isSuccess)) c.batch
  simp only [← Handlers.succeeds_iff] at front
  have visited := Decision.visited_noWait strict now [] c.batch (h.verdict? job c.batch)
  generalize c.batch.takeWhile (fun r => (h.verdict? job c.batch r).any (·.isSuccess)) = done at *
  have divides : (Decision.about h job now c.batch).Divides job now c.batch done [] := by
    rw [decided]
    exact ⟨front.first.sublist, List.nil_sublist _, List.disjoint_nil_right _, rfl, .nil⟩
  have commits := follows.commits saving (.inl (by rw [decided]; rfl)) divides now t
  have untouched := commits.untouched
  rw [List.append_nil] at untouched
  refine ⟨done, follows.fetched saving, front, commits, ?_, Table.filter_rows_eq untouched,
    Table.filter_eligible_eq untouched⟩
  simp only [Tick.toCall, List.append_nil] at calls
  rw [calls, Tick.calls]
  cases job.worker.handlerKind with
  | item => exact congrArg (List.map ([·])) visited
  | batch => rfl

def queued (n held : Nat) : Table where
  rows := .ofList ((List.range n).map fun i => { id := .ofNat (i + 1), payload := "" })
  locks := .ofList ((List.range held).map fun i => ⟨.ofNat (i + 1), 1⟩)
  nextTransaction := if held = 0 then 1 else 2

/-- The second row is skipped and the third one fails. -/
def uneven : Handlers where
  item row := if row.id = .ofNat 3 then none else some (if row.id = .ofNat 2 then .skip else .ok)
  batch _ := none

def unevenJob (worker : WorkerType) : Job := { worker, features := ⟨true, false⟩, options := { itemsLimit := 3 } }

/-- A tick over the first three of four rows, while an application adds a fifth one. -/
def unevenly : List Encounter :=
  [{ toHandlers := uneven, now := .epoch, table := queued 4 0, begun := by unfold Table.Begun; decide },
   { toHandlers := uneven, now := .epoch, table := queued 4 3, begun := by unfold Table.Begun; decide },
   { toHandlers := uneven, now := .epoch, table := queued 5 3, begun := by unfold Table.Begun; decide },
   { toHandlers := uneven, now := .epoch, table := queued 5 3, begun := by unfold Table.Begun; decide }]

theorem steady_unevenly : ∀ e ∈ unevenly, e.toHandlers = uneven ∧ e.now = .epoch := by
  simp [unevenly]

theorem strict_commits_front_unevenly :
    (unevenJob .strictOrdering).worker.lock = .noWait ∧ (∀ e ∈ unevenly, e.toHandlers = uneven) ∧
      ∃ n d, (through (unevenJob .strictOrdering) unevenly).session.tick = .saving n d ∧
        (∃ done, CommitsFront uneven (unevenJob .strictOrdering) unevenly
          (through (unevenJob .strictOrdering) unevenly) .epoch d done (queued 5 3)
          ((through (unevenJob .strictOrdering) unevenly).act .epoch (queued 5 3) (.save none))) ∧
        ((through (unevenJob .strictOrdering) unevenly).act .epoch (queued 5 3) (.save none)).2.rows.toList.map
          (·.id) = [.ofNat 3, .ofNat 4, .ofNat 5] :=
  have handlers : ∀ e ∈ unevenly, e.toHandlers = uneven := fun e member => (steady_unevenly e member).1
  ⟨rfl, handlers, _, _, rfl, strict_commits_front rfl handlers rfl _ _, by decide⟩

end Course

/-! ### Workers that compete -/

theorem mem_takeWhile_iff {p : Row → Bool} {rows : List Row} {row : Row} : row ∈ rows.takeWhile p ↔
    ∃ before rest, rows = before ++ row :: rest ∧ p row ∧ ∀ r ∈ before, p r := by
  constructor
  · intro member
    obtain ⟨before, rest, split⟩ := List.append_of_mem member
    have good : ∀ r ∈ rows.takeWhile p, p r = true :=
      fun r member => List.all_eq_true.mp List.all_takeWhile r member
    refine ⟨before, rest ++ rows.dropWhile p, ?_, good row member, fun r earlier => good r ?_⟩
    · have whole := List.takeWhile_append_dropWhile (p := p) (l := rows)
      rw [split, List.append_assoc, List.cons_append] at whole
      exact whole.symm
    · rw [split]
      exact List.mem_append_left _ earlier
  · rintro ⟨before, rest, rfl, good, earlier⟩
    rw [List.takeWhile_append_of_pos earlier, List.takeWhile_cons_of_pos good]
    exact List.mem_append_right _ List.mem_cons_self

namespace Decision

variable {job : Job} {now : Instant} {d : Decision} {row : Row} {rows : List Row}

/-- Of a row nothing was said, or it failed, or it went well. -/
theorem said_cases (said : Option Verdict) :
    said = none ∨ said = some .retry ∨ ∃ v, said = some v ∧ v.isSuccess ∧ v ≠ .retry := by
  cases said with
  | none => exact .inl rfl
  | some v => cases v <;> simp [Verdict.isSuccess]

theorem settle_success (competing : job.worker.lock = .skipLocked) (now : Instant) (d : Decision)
    (row : Row) {v : Verdict} (success : v.isSuccess) : d.settle job now row (some v) =
      .next { d with processed := d.processed ++ [row.modifyStatus job.features .markCompleted] } := by
  simp only [settle, competing, success, if_true]

theorem settle_retry (competing : job.worker.lock = .skipLocked) (now : Instant) (d : Decision)
    (row : Row) : d.settle job now row (some .retry) = match job.reschedule now row with
      | .scheduled put => .next { d with retried := d.retried ++ [put] }
      | .disabled => .next d
      | .unsupported => .stop d := by
  simp only [settle, competing]
  rfl

theorem settle_silent (competing : job.worker.lock = .skipLocked) (now : Instant) (d : Decision)
    (row : Row) : d.settle job now row none = .next d := by
  simp only [settle, competing]

/-- Where rows have a status no row stops the walk: each is processed, put off or left alone. -/
theorem settleAll_tracked (competing : job.worker.lock = .skipLocked) (tracked : job.features.status)
    (now : Instant) (d : Decision) (rows : List Row) (verdict : Row → Option Verdict) :
    ∃ puts, settleAll job now d (rows.map fun r => (r, verdict r)) =
        { processed := d.processed ++ (rows.filter fun r => (verdict r).any (·.isSuccess)).map
            (·.modifyStatus job.features .markCompleted)
          retried := d.retried ++ puts } ∧
      List.Forall₂ (fun row put => job.reschedule now row = .scheduled put)
        (rows.filter fun r => job.options.retry.isEnabled && verdict r == some .retry) puts := by
  induction rows generalizing d with
  | nil => exact ⟨[], by simp [settleAll], .nil⟩
  | cons row rest ih =>
    rw [List.map_cons, settleAll]
    rcases said_cases (verdict row) with said | said | ⟨v, said, success, other⟩
    · rw [said, settle_silent competing]
      obtain ⟨puts, decided, pairs⟩ := ih d
      exact ⟨puts, by simpa [said] using decided, by simpa [said] using pairs⟩
    · rw [said, settle_retry competing]
      rcases job.reschedule_cases now row with
        ⟨untracked, _⟩ | ⟨_, disabled, result⟩ | ⟨_, enabled, put, result⟩
      · cases tracked.symm.trans untracked
      · rw [result]
        obtain ⟨puts, decided, pairs⟩ := ih d
        exact ⟨puts, by simpa [said, Verdict.isSuccess] using decided, by simpa [disabled] using pairs⟩
      · rw [result]
        obtain ⟨puts, decided, pairs⟩ := ih { d with retried := d.retried ++ [put] }
        refine ⟨put :: puts, by simpa [said, Verdict.isSuccess] using decided, ?_⟩
        rw [List.filter_cons_of_pos (by simp [said, enabled])]
        exact .cons result pairs
    · rw [said, settle_success competing now d row success]
      obtain ⟨puts, decided, pairs⟩ := ih
        { d with processed := d.processed ++ [row.modifyStatus job.features .markCompleted] }
      exact ⟨puts, by simpa [said, success] using decided, by simpa [said, other] using pairs⟩

/-- Where rows have no status the walk stops at the first row that failed and puts nothing off. -/
theorem settleAll_untracked (competing : job.worker.lock = .skipLocked)
    (untracked : job.features.status = false) (now : Instant) (d : Decision) (rows : List Row)
    (verdict : Row → Option Verdict) : settleAll job now d (rows.map fun r => (r, verdict r)) =
      { d with processed := d.processed ++ ((rows.takeWhile fun r => verdict r != some .retry).filter
          fun r => (verdict r).any (·.isSuccess)).map (·.modifyStatus job.features .markCompleted) } := by
  induction rows generalizing d with
  | nil => simp [settleAll]
  | cons row rest ih =>
    rw [List.map_cons, settleAll]
    rcases said_cases (verdict row) with said | said | ⟨v, said, success, other⟩
    · rw [said, settle_silent competing]
      simpa [said] using ih d
    · rw [said, settle_retry competing]
      -- what has no status cannot be rescheduled, and that is the one thing that stops the walk
      rcases job.reschedule_cases now row with ⟨_, result⟩ | ⟨tracked, _⟩ | ⟨tracked, _⟩
      · rw [result]
        simp [said]
      · cases tracked.symm.trans untracked
      · cases tracked.symm.trans untracked
    · rw [said, settle_success competing now d row success]
      simpa [said, success, other] using
        ih { d with processed := d.processed ++ [row.modifyStatus job.features .markCompleted] }

theorem divides_tracked (competing : job.worker.lock = .skipLocked) (tracked : job.features.status)
    (h : Handlers) (now : Instant) (batch : List Row) : ∃ done later,
      (about h job now batch).Divides job now batch done later ∧ ∀ row ∈ batch,
        (row ∈ done ↔ h.Succeeds job.worker.handlerKind batch row) ∧
        (row ∈ later ↔ h.Fails job.worker.handlerKind batch row ∧ job.options.retry.isEnabled) := by
  obtain ⟨puts, decided, pairs⟩ :=
    settleAll_tracked competing tracked now {} batch (h.verdict? job batch)
  refine ⟨batch.filter fun r => (h.verdict? job batch r).any (·.isSuccess),
    batch.filter fun r => job.options.retry.isEnabled && h.verdict? job batch r == some .retry,
    ⟨List.filter_sublist, List.filter_sublist, ?_, ?_, ?_⟩, ?_⟩
  · intro row finished off
    have success := (List.mem_filter.mp finished).2
    have failed := (List.mem_filter.mp off).2
    simp only [Bool.and_eq_true, beq_iff_eq] at failed
    rw [failed.2] at success
    cases success
  · exact congrArg Decision.processed decided
  · have retried : (about h job now batch).retried = puts := congrArg Decision.retried decided
    rw [retried]
    exact pairs
  · intro row member
    rw [List.mem_filter, List.mem_filter, Handlers.succeeds_iff, Handlers.fails_iff competing]
    simp only [member, true_and, Bool.and_eq_true, beq_iff_eq, and_comm]

theorem divides_untracked (competing : job.worker.lock = .skipLocked)
    (untracked : job.features.status = false) (h : Handlers) (now : Instant) (batch : List Row) :
    ∃ done, (about h job now batch).Divides job now batch done [] ∧ ∀ row, row ∈ done ↔
      ∃ before rest, batch = before ++ row :: rest ∧ h.Succeeds job.worker.handlerKind batch row ∧
        ∀ r ∈ before, ¬ h.Fails job.worker.handlerKind batch r := by
  have decided : about h job now batch = _ :=
    settleAll_untracked competing untracked now {} batch (h.verdict? job batch)
  rw [decided]
  refine ⟨_, ⟨List.filter_sublist.trans (List.takeWhile_sublist _), List.nil_sublist _,
    List.disjoint_nil_right _, rfl, .nil⟩, ?_⟩
  intro row
  rw [List.mem_filter, mem_takeWhile_iff, Handlers.succeeds_iff]
  simp only [Handlers.fails_iff competing, bne_iff_ne]
  constructor
  · rintro ⟨⟨before, rest, whole, -, earlier⟩, success⟩
    exact ⟨before, rest, whole, success, earlier⟩
  · rintro ⟨before, rest, whole, success, earlier⟩
    refine ⟨⟨before, rest, whole, ?_, earlier⟩, success⟩
    intro failed
    rw [failed] at success
    cases success

end Decision

namespace Course

variable {h : Handlers} {job : Job} {now : Instant} {encounters : List Encounter} {c : Course}
  {n : Nat} {d : Decision}

/-- What a competing tick commits settles each row of the batch that it fetched by its own outcome,
with no regard to other rows where rows have a status. Where they have none nothing is rescheduled, and
the first row that failed is the end. -/
structure SettlesEach (h : Handlers) (job : Job) (now : Instant) (encounters : List Encounter) (c : Course)
    (d : Decision) (done later : List Row) (t : Table) (after : Course × Table) : Prop where
  fetched : ∃ e ∈ encounters,
    e.table.window? job.features e.now job.mode job.limit e.table.nextTransaction = some c.batch
  commits : c.Commits job now d done later t after
  tracked : job.features.status → ∀ row ∈ c.batch,
    (row ∈ done ↔ h.Succeeds job.worker.handlerKind c.batch row) ∧
    (row ∈ later ↔ h.Fails job.worker.handlerKind c.batch row ∧ job.options.retry.isEnabled)
  untracked : job.features.status = false → later = [] ∧ ∀ row, row ∈ done ↔
    ∃ before rest, c.batch = before ++ row :: rest ∧
      h.Succeeds job.worker.handlerKind c.batch row ∧
      ∀ r ∈ before, ¬ h.Fails job.worker.handlerKind c.batch r

theorem competing_settles_each (competing : job.worker.lock = .skipLocked)
    (steady : ∀ e ∈ encounters, e.toHandlers = h ∧ e.now = now)
    (saving : (through job encounters).session.tick = .saving n d) (clock : Instant) (t : Table) :
    ∃ done later, SettlesEach h job now encounters (through job encounters) d done later t
      ((through job encounters).act clock t (.save none)) := by
  have follows : Follows h job now encounters (through job encounters) :=
    through_follows fun e member => ⟨(steady e member).1, .inr (steady e member).2⟩
  generalize through job encounters = c at saving follows ⊢
  have walks := follows.walks
  rw [saving] at walks
  obtain ⟨-, rfl⟩ := walks
  have accepted : job.worker.lock.supportsRetry := by rw [competing]; rfl
  cases tracked : job.features.status with
  | true =>
    obtain ⟨done, later, divides, each⟩ := Decision.divides_tracked competing tracked h now c.batch
    have commits := follows.commits saving (.inr accepted) divides clock t
    refine ⟨done, later, follows.fetched saving, commits, fun _ => each, ?_⟩
    intro untracked
    cases tracked.symm.trans untracked
  | false =>
    obtain ⟨done, divides, before⟩ := Decision.divides_untracked competing tracked h now c.batch
    have commits := follows.commits saving (.inr accepted) divides clock t
    refine ⟨done, [], follows.fetched saving, commits, ?_, fun _ => ⟨rfl, before⟩⟩
    intro status
    cases tracked.symm.trans status

theorem competing_settles_each_unevenly :
    (unevenJob .competing).worker.lock = .skipLocked ∧
      (∀ e ∈ unevenly, e.toHandlers = uneven ∧ e.now = .epoch) ∧
      ∃ n d, (through (unevenJob .competing) unevenly).session.tick = .saving n d ∧
        (∃ done later, SettlesEach uneven (unevenJob .competing) .epoch unevenly
          (through (unevenJob .competing) unevenly) d done later (queued 5 3)
          ((through (unevenJob .competing) unevenly).act .epoch (queued 5 3) (.save none))) ∧
        ((through (unevenJob .competing) unevenly).act .epoch (queued 5 3) (.save none)).2.rows.toList.map
          (fun row => (row.id, row.fields.status)) = [(.ofNat 3, .retry), (.ofNat 4, .ready), (.ofNat 5, .ready)] :=
  ⟨rfl, steady_unevenly, _, _, rfl, competing_settles_each rfl steady_unevenly rfl _ _, by decide⟩

end Course

end Outbox
