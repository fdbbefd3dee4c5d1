import Outbox.Proofs.Rescheduling
import Outbox.Proofs.Ticks

/-!
Ticks that compete for rows and answer for each of them by its id alone. Such a tick settles every row
of its batch and puts its failures off to a later time (`Course.follow_settles`).
-/

namespace Outbox

/-- A tick that leaves out locked rows and puts failures off by fixed delays. -/
structure Job.Competes (features : Features) (partitioned : Bool) (job : Job) : Prop where
  itemType : job.features = features
  lock : job.worker.lock = .skipLocked
  partitions : job.options.partitions.enabled = partitioned
  retry : job.options.retry.isEnabled
  plain : job.jitter = none

def Job.Delays (job : Job) (v : ItemId → Verdict) (rows : List Row) : Prop :=
  ∀ row ∈ rows, v row.id = .retry → 0 < (job.options.retry.nextDelay row.fields.nextCount).nanos

theorem Job.Delays.mono {job : Job} {v : ItemId → Verdict} {rows rows' : List Row}
    (h : job.Delays v rows) (fewer : rows' ⊆ rows) : job.Delays v rows' :=
  fun row member => h row (fewer member)

/-- The answers depend on nothing but the ids. An item handler that fails asks for a retry. -/
structure Handlers.Follow (v : ItemId → Verdict) (h : Handlers) : Prop where
  item : ∀ row, (h.item row).getD .retry = v row.id
  batch : ∀ rows, ∃ b, h.batch rows = some b ∧ ∀ row ∈ rows, b.verdict? row.id = some (v row.id)

variable {features : Features} {partitioned : Bool} {job : Job} {v : ItemId → Verdict} {now : Instant}

namespace Decision

variable {d : Decision} {row : Row} {rows : List Row}

def size (d : Decision) : Nat := d.processed.length + d.retried.length

theorem Sorted.none_left {approved : Row → Prop} (h : d.Sorted job approved rows)
    (full : d.size = rows.length) : ∃ done later, d.Sorts job approved rows done later [] := by
  obtain ⟨done, later, left, sorts⟩ := h
  have processed := congrArg List.length sorts.processed_ids
  have retried := congrArg List.length sorts.retried_ids
  have all := sorts.all.length_eq
  simp only [List.length_map, List.length_append, size] at processed retried all full
  obtain rfl : left = [] := List.length_eq_zero_iff.mp (by omega)
  exact ⟨done, later, sorts⟩

theorem settle_competes (competes : job.Competes features partitioned) (tracked : features.status)
    (early : now < .last) (d : Decision) (row : Row) (verdict : Verdict)
    (delay : verdict = .retry → 0 < (job.options.retry.nextDelay row.fields.nextCount).nanos)
    (late : d.Later now) :
    ∃ d', d.settle job now row (some verdict) = .next d' ∧ d'.size = d.size + 1 ∧ d'.Later now := by
  unfold settle
  rw [competes.lock]
  simp only
  cases success : verdict.isSuccess with
  | true => exact ⟨_, rfl, by simp [size]; omega, late⟩
  | false =>
    have failed : verdict = .retry := by cases verdict <;> first | rfl | cases success
    have tracked : job.features.status := competes.itemType ▸ tracked
    obtain ⟨after, scheduled, later⟩ :=
      reschedule_scheduled_later tracked competes.retry early (delay failed)
    have same : job.reschedule now row = .scheduled after := by
      rw [Job.reschedule, competes.plain]
      exact scheduled
    rw [same]
    refine ⟨_, rfl, by simp [size]; omega, fun r member => ?_⟩
    rcases List.mem_append.mp member with old | new
    · exact late r old
    · rw [List.mem_singleton.mp new]
      exact later

theorem settleAll_competes (competes : job.Competes features partitioned) (tracked : features.status)
    (early : now < .last) {verdict : Row → Option Verdict}
    (answered : ∀ row ∈ rows, verdict row = some (v row.id)) (delays : job.Delays v rows)
    (late : d.Later now) :
    (settleAll job now d (rows.map fun r => (r, verdict r))).size = d.size + rows.length ∧
      (settleAll job now d (rows.map fun r => (r, verdict r))).Later now := by
  induction rows generalizing d with
  | nil => exact ⟨rfl, late⟩
  | cons row rest ih =>
    obtain ⟨d', next, size, late⟩ := settle_competes competes tracked early d row (v row.id)
      (delays row List.mem_cons_self) late
    obtain ⟨total, late⟩ := ih (fun r member => answered r (List.mem_cons_of_mem _ member))
      (fun r member => delays r (List.mem_cons_of_mem _ member)) late
    rw [List.map_cons, settleAll, answered row List.mem_cons_self, next]
    refine ⟨total.trans ?_, late⟩
    rw [size, List.length_cons]
    omega

end Decision

/-- A tick on its way to settle its whole batch, with all failures put off. -/
def Tick.Settles (now : Instant) : Tick → Prop
  | .item n d _ rest => d.size + rest.length + 1 = n ∧ d.Later now
  | .saving n d => d.size = n ∧ d.Later now
  | _ => True

theorem Tick.asked_gaveUp (h : Handlers) (tick : Tick) : (tick.asked h none).gaveUp? = none := by
  cases tick <;> rfl

theorem Tick.afterFetch_settles (job : Job) (rows : List Row) :
    (Tick.afterFetch job rows).Settles now := by
  cases rows with
  | nil => trivial
  | cons row rest =>
    simp only [afterFetch]
    split
    · exact ⟨by simp [Decision.size], by simp [Decision.Later]⟩
    · trivial

theorem Tick.afterItem_settles {n : Nat} {d d' : Decision} {row : Row} {rest : List Row}
    (settles : (Tick.item n d row rest).Settles now) (size : d'.size = d.size + 1) (late : d'.Later now) :
    (Tick.afterItem n rest (.next d')).Settles now ∧
      (Tick.afterItem n rest (.next d')).toHandle = rest := by
  have count := settles.1
  cases rest with
  | nil => exact ⟨⟨by simpa [size] using count, late⟩, rfl⟩
  | cons next rest => exact ⟨⟨by simp only [List.length_cons] at count; omega, late⟩, rfl⟩

namespace Course

variable {c : Course} {s' : Session} {t t' : Table} {h : Handlers}

def handled (c : Course) : List Row := c.answers.flatMap (·.1)

structure Settles (now : Instant) (c : Course) : Prop where
  whole : c.handled ++ c.session.tick.toHandle = c.batch
  settles : c.session.tick.Settles now

theorem follow_handled {a : Act} :
    (c.follow a s').handled = c.handled ++ (c.session.tick.heard a).flatMap (·.1) := by
  simp [handled, follow]

theorem follow_settles_item {n : Nat} {d : Decision} {row : Row} {rest : List Row}
    (handling : c.session.tick = .item n d row rest) (settles : c.Settles now)
    (competes : c.session.job.Competes features partitioned) (tracked : features.status)
    (early : now < .last) (answers : h.Follow v) (delays : c.session.job.Delays v c.batch) :
    (c.follow (.answer (.verdict (h.item row))) { c.session with
      tick := Tick.afterItem n rest
        (d.settle c.session.job now row (some ((h.item row).getD .retry))) }).Settles now := by
  obtain ⟨whole, settling⟩ := settles
  rw [handling] at whole settling
  have answered : c.session.tick.heard (.answer (.verdict (h.item row))) =
      [([row], .verdict (h.item row))] := by
    rw [handling]
    rfl
  have delay : (h.item row).getD .retry = .retry → _ := fun failed =>
    delays row (whole ▸ List.mem_append_right _ List.mem_cons_self) ((answers.item row).symm.trans failed)
  obtain ⟨d', next, size, late⟩ :=
    Decision.settle_competes competes tracked early d row _ delay settling.2
  obtain ⟨settles, onwards⟩ := Tick.afterItem_settles settling size late
  rw [next]
  refine ⟨?_, settles⟩
  rw [follow_handled, answered, follow_batch (by simp [handling]), ← whole]
  show _ ++ (Tick.afterItem n rest (.next d')).toHandle = _
  rw [onwards]
  simp [Tick.toHandle]

theorem follow_settles_batch {rows : List Row} (handling : c.session.tick = .batch rows)
    (whole : c.handled ++ rows = c.batch) (same : rows = c.batch)
    (competes : c.session.job.Competes features partitioned) (tracked : features.status)
    (early : now < .last) (answers : h.Follow v) (delays : c.session.job.Delays v c.batch) :
    (c.follow (.answer (.outcome (h.batch rows))) { c.session with
      tick := .saving rows.length (Decision.settleAll c.session.job now {}
        (rows.map fun r => (r, Decision.batchVerdict c.session.job (h.batch rows) r))) }).Settles now := by
  subst same
  have none : c.handled = [] := by simpa using whole
  obtain ⟨b, answered, complete⟩ := answers.batch c.batch
  have verdicts : ∀ r ∈ c.batch,
      Decision.batchVerdict c.session.job (h.batch c.batch) r = some (v r.id) := by
    simpa only [answered, Decision.batchVerdict] using complete
  have total := Decision.settleAll_competes competes tracked early verdicts delays
    (d := {}) (by simp [Decision.Later])
  constructor
  · rw [follow_handled, follow_batch (by simp [handling]), none, handling]
    simp [Tick.heard, follow, Tick.toHandle]
  · exact ⟨by simpa [Decision.size] using total.1, total.2⟩

theorem follow_settles (sound : c.Sound) (settles : c.Settles now)
    (competes : c.session.job.Competes features partitioned) (tracked : features.status)
    (early : now < .last) (answers : h.Follow v)
    (moves : Session.Move now c.session t (c.session.tick.asked h none) s' t')
    (delays : c.session.job.Delays v (c.follow (c.session.tick.asked h none) s').batch) :
    (c.follow (c.session.tick.asked h none) s').Settles now := by
  have whole := settles.whole
  have tracks := sound.tracks
  have determined := c.session.tick.asked_gaveUp h
  generalize asked : c.session.tick.asked h none = a at moves delays determined ⊢
  have unheard (none : c.session.tick.heard a = []) : (c.follow a s').handled = c.handled := by
    rw [follow_handled, none, List.flatMap_nil, List.append_nil]
  have unhandled (fetching : c.session.tick = .fetching) : (c.follow a s').handled = [] := by
    rw [fetching] at whole tracks
    rw [unheard (by rw [fetching]; rfl)]
    exact (List.append_eq_nil_iff.mp (whole.trans tracks)).1
  cases moves with
  | idle idle =>
    cases tick : c.session.tick with
    | ended report =>
      rw [follow_ended tick]
      exact settles
    | _ =>
      rw [tick] at asked idle
      exact absurd (asked ▸ Tick.asked_awaited h none rfl) idle
  | quit _ gaveUp | rollback _ _ gaveUp => cases determined.symm.trans gaveUp
  | empty fetching =>
    refine ⟨?_, trivial⟩
    rw [unhandled fetching]
    simp [follow, fetching, Session.ended]
  | @fetched rows fetching _ found =>
    refine ⟨?_, Tick.afterFetch_settles c.session.job rows⟩
    rw [unhandled fetching]
    simp [follow, fetching, Session.opening]
  | @item n d row rest answer handling =>
    rw [handling] at asked
    cases asked
    rw [follow_batch (by simp [handling])] at delays
    exact follow_settles_item handling settles competes tracked early answers delays
  | @batch rows b handling =>
    rw [handling] at asked whole tracks
    cases asked
    rw [follow_batch (by simp [handling])] at delays
    exact follow_settles_batch handling whole tracks competes tracked early answers delays
  | commit saving =>
    rw [saving] at whole
    refine ⟨?_, trivial⟩
    rw [unheard (by rw [saving]; rfl), follow_batch (by simp [saving])]
    exact whole
  | refused _ _ _ unsupported =>
    rw [competes.lock] at unsupported
    cases unsupported

end Course

end Outbox
