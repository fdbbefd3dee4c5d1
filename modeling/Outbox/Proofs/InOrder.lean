import Outbox.Proofs.Ticks

/-!
Workers that keep to the order of the queue. Whatever their handlers answer, what they decide is that
the first rows of the batch are done, up to the first failure (`Decision.settleAll_noWait`), and
nothing is put off.
-/

namespace Outbox

/-- A tick that gives up a fetch rather than pass a locked row. -/
structure Job.InOrder (features : Features) (partitioned : Bool) (job : Job) : Prop where
  itemType : job.features = features
  lock : job.worker.lock = .noWait
  partitions : job.options.partitions.enabled = partitioned

instance (features : Features) (partitioned : Bool) (job : Job) :
    Decidable (job.InOrder features partitioned) :=
  decidable_of_iff
    (job.features = features ∧ job.worker.lock = .noWait ∧ job.options.partitions.enabled = partitioned)
    ⟨fun ⟨itemType, lock, partitions⟩ => ⟨itemType, lock, partitions⟩,
      fun inOrder => ⟨inOrder.itemType, inOrder.lock, inOrder.partitions⟩⟩

namespace Decision

variable {job : Job} {rows seen : List Row}

def finishing (job : Job) (rows : List Row) : Decision where
  processed := rows.map (·.modifyStatus job.features .markCompleted)

theorem settle_noWait (strict : job.worker.lock = .noWait) (now : Instant) (seen : List Row) (row : Row)
    (verdict : Option Verdict) :
    (finishing job seen).settle job now row verdict =
      if verdict.any (·.isSuccess) then .next (finishing job (seen ++ [row]))
      else .stop (finishing job seen) := by
  unfold settle
  rw [strict]
  cases verdict with
  | none => rfl
  | some v => simp only [Option.any_some, finishing, List.map_append, List.map_cons, List.map_nil]

theorem settleAll_noWait (strict : job.worker.lock = .noWait) (now : Instant) (seen rows : List Row)
    (verdict : Row → Option Verdict) :
    settleAll job now (finishing job seen) (rows.map fun r => (r, verdict r)) =
      finishing job (seen ++ rows.takeWhile fun r => (verdict r).any (·.isSuccess)) := by
  induction rows generalizing seen with
  | nil => simp [settleAll]
  | cons row rest ih =>
    rw [List.map_cons, settleAll, settle_noWait strict, List.takeWhile_cons]
    cases (verdict row).any (·.isSuccess) with
    | true => simp only [if_true, ih, List.append_assoc, List.singleton_append]
    | false => simp only [if_false, Bool.false_eq_true, List.append_nil]

end Decision

/-- The tick has decided, so far, that the first rows of its batch are done. -/
def Tick.Leads (job : Job) (batch : List Row) : Tick → Prop
  | .item _ d row rest => ∃ seen, seen ++ row :: rest = batch ∧ d = .finishing job seen
  | .saving _ d => ∃ done, done <+: batch ∧ d = .finishing job done
  | _ => True

namespace Tick

variable {job : Job} {batch rows rest : List Row} {d : Decision} {row : Row} {n : Nat}

theorem leads_afterFetch (job : Job) (rows : List Row) : (afterFetch job rows).Leads job rows := by
  cases rows with
  | nil => trivial
  | cons row rest =>
    simp only [afterFetch]
    split
    · exact ⟨[], rfl, rfl⟩
    · trivial

theorem leads_afterItem (strict : job.worker.lock = .noWait) (now : Instant) (verdict : Option Verdict)
    (leads : (item n d row rest).Leads job batch) :
    (afterItem n rest (d.settle job now row verdict)).Leads job batch := by
  obtain ⟨seen, whole, rfl⟩ := leads
  rw [Decision.settle_noWait strict]
  split
  · rw [List.append_cons] at whole
    unfold afterItem
    cases rest with
    | nil => exact ⟨_, ⟨[], by simpa using whole⟩, rfl⟩
    | cons next rest => exact ⟨_, whole, rfl⟩
  · exact ⟨seen, ⟨_, whole⟩, rfl⟩

theorem leads_afterBatch (strict : job.worker.lock = .noWait) (now : Instant) (rows : List Row)
    (verdict : Row → Option Verdict) :
    (saving n (Decision.settleAll job now {} (rows.map fun r => (r, verdict r)))).Leads job rows := by
  have settled := Decision.settleAll_noWait strict now [] rows verdict
  rw [List.nil_append] at settled
  exact ⟨_, List.takeWhile_prefix _, settled⟩

end Tick

theorem Course.follow_leads {now : Instant} {c : Course} {t t' : Table} {a : Act} {s' : Session}
    (sound : c.Sound) (strict : c.session.job.worker.lock = .noWait)
    (leads : c.session.tick.Leads c.session.job c.batch)
    (moves : Session.Move now c.session t a s' t') : s'.tick.Leads s'.job (c.follow a s').batch := by
  have tracks := sound.tracks
  cases moves with
  | idle =>
    rw [follow_self sound]
    exact leads
  | quit | empty | commit | refused | rollback => trivial
  | fetched fetching =>
    simp only [follow, fetching, Session.opening, toHandle_afterFetch]
    exact Tick.leads_afterFetch _ _
  | item handling =>
    rw [follow_batch (by simp [handling])]
    rw [handling] at leads
    exact Tick.leads_afterItem strict now _ leads
  | batch handling =>
    rw [follow_batch (by simp [handling])]
    rw [handling] at tracks
    obtain rfl := show _ = c.batch from tracks
    exact Tick.leads_afterBatch strict now _ _

end Outbox
