import Mathlib.Data.List.Forall2
import Outbox.Tick

/-!
What a worker can decide about the rows of its batch. Each is done, put off or left alone
(`Decision.Sorts`), and a tick keeps track of its batch from the fetch to the save (`Tick.Tracks`).
-/

namespace Outbox

/-- `after` is `before` put off until some instant: only the status is another. -/
def Row.PutOff (before after : Row) : Prop :=
  ∃ due, after = { before with fields := before.fields.scheduleRetry due }

theorem exists_paired {α β : Type} {R : α → β → Prop} {l : List α} {m : List β} {a : α}
    (pairs : List.Forall₂ R l m) (member : a ∈ l) : ∃ b ∈ m, R a b := by
  induction pairs with
  | nil => cases member
  | cons related _ ih =>
    rcases List.mem_cons.mp member with rfl | member
    · exact ⟨_, List.mem_cons_self, related⟩
    · obtain ⟨b, found, related⟩ := ih member
      exact ⟨b, List.mem_cons_of_mem _ found, related⟩

theorem Row.ids_putOff {before after : List Row} (pairs : List.Forall₂ Row.PutOff before after) :
    after.map (·.id) = before.map (·.id) := by
  induction pairs with
  | nil => rfl
  | cons off _ ih =>
    obtain ⟨due, rfl⟩ := off
    simp [ih]

theorem reschedule_scheduled {features : Features} {settings : RetrySettings}
    {jitter : Option (Fin RetrySettings.maxJitter)} {now : Instant} {row after : Row}
    (h : reschedule features settings jitter now row = .scheduled after) :
    features.status ∧ row.PutOff after := by
  unfold reschedule at h
  split at h
  · cases h
  · rename_i tracked
    split at h
    · cases h
    · cases h
      exact ⟨by simpa using tracked, _, rfl⟩

namespace Decision

variable {job : Job} {now : Instant} {approved approved' : Row → Prop} {d : Decision} {row : Row}
  {rows seen done later left : List Row}

/-- A decision about the rows of `seen`: those of `done` are done, and approved of, those of `later`
are put off and the others are left alone. -/
structure Sorts (job : Job) (approved : Row → Prop) (seen done later left : List Row) (d : Decision) :
    Prop where
  all : (done ++ later ++ left).Perm seen
  good : ∀ r ∈ done, approved r
  processed : d.processed = done.map (·.modifyStatus job.features .markCompleted)
  retried : List.Forall₂ Row.PutOff later d.retried
  retryable : later = [] ∨ job.worker.lock = .skipLocked ∧ job.features.status

def Sorted (job : Job) (approved : Row → Prop) (seen : List Row) (d : Decision) : Prop :=
  ∃ done later left, Sorts job approved seen done later left d

namespace Sorts

theorem mono (h : Sorts job approved seen done later left d) (grows : ∀ r, approved r → approved' r) :
    Sorts job approved' seen done later left d :=
  ⟨h.all, fun r member => grows r (h.good r member), h.processed, h.retried, h.retryable⟩

theorem leave (h : Sorts job approved seen done later left d) (rows : List Row) :
    Sorts job approved (seen ++ rows) done later (left ++ rows) d where
  all := by rw [← List.append_assoc]; exact h.all.append_right rows
  good := h.good
  processed := h.processed
  retried := h.retried
  retryable := h.retryable

theorem finish (h : Sorts job approved seen done later left d) (good : approved row) :
    Sorts job approved (seen ++ [row]) (done ++ [row]) later left
      { d with processed := d.processed ++ [row.modifyStatus job.features .markCompleted] } where
  all := by
    have moved : (done ++ [row] ++ later ++ left).Perm (row :: (done ++ later ++ left)) := by
      simp only [List.append_assoc, List.singleton_append]
      exact List.perm_middle
    exact moved.trans ((h.all.cons row).trans (List.perm_append_singleton row seen).symm)
  good r member := by
    rcases List.mem_append.mp member with old | new
    · exact h.good r old
    · rwa [List.mem_singleton.mp new]
  processed := by simp [h.processed]
  retried := h.retried
  retryable := h.retryable

theorem putOff {after : Row} (h : Sorts job approved seen done later left d)
    (competing : job.worker.lock = .skipLocked) (tracked : job.features.status)
    (off : row.PutOff after) :
    Sorts job approved (seen ++ [row]) done (later ++ [row]) left
      { d with retried := d.retried ++ [after] } where
  all := by
    have moved : (done ++ (later ++ [row]) ++ left).Perm (row :: (done ++ later ++ left)) := by
      simp only [← List.append_assoc]
      rw [List.append_assoc, List.singleton_append]
      exact List.perm_middle
    exact moved.trans ((h.all.cons row).trans (List.perm_append_singleton row seen).symm)
  good := h.good
  processed := h.processed
  retried := List.rel_append h.retried (.cons off .nil)
  retryable := .inr ⟨competing, tracked⟩

theorem processed_ids (h : Sorts job approved seen done later left d) :
    d.processed.map (·.id) = done.map (·.id) := by
  simp [h.processed, List.map_map, Function.comp_def, Row.id_modifyStatus]

theorem retried_ids (h : Sorts job approved seen done later left d) :
    d.retried.map (·.id) = later.map (·.id) :=
  Row.ids_putOff h.retried

theorem exists_retried (h : Sorts job approved seen done later left d) (member : row ∈ later) :
    ∃ after ∈ d.retried, row.PutOff after :=
  exists_paired h.retried member

theorem exists_later {after : Row} (h : Sorts job approved seen done later left d)
    (member : after ∈ d.retried) : ∃ r ∈ later, r.PutOff after :=
  exists_paired h.retried.flip member

theorem unique (h : Sorts job approved seen done later left d) (unique : (seen.map (·.id)).Nodup) :
    (done.map (·.id) ++ later.map (·.id) ++ left.map (·.id)).Nodup := by
  simpa using (h.all.map (·.id)).nodup_iff.mpr unique

end Sorts

end Decision

def Settled.decision : Settled → Decision
  | .next d | .stop d => d

namespace Decision

variable {job : Job} {now : Instant} {approved approved' : Row → Prop} {d : Decision} {row : Row}
  {rows seen : List Row}

theorem sorted_nil : Sorted job approved [] {} :=
  ⟨[], [], [], .nil, by simp, rfl, .nil, .inl rfl⟩

theorem Sorted.mono (h : Sorted job approved seen d) (grows : ∀ r, approved r → approved' r) :
    Sorted job approved' seen d := by
  obtain ⟨done, later, left, sorts⟩ := h
  exact ⟨done, later, left, sorts.mono grows⟩

theorem Sorted.length_le (h : Sorted job approved seen d) :
    d.processed.length + d.retried.length ≤ seen.length := by
  obtain ⟨done, later, left, sorts⟩ := h
  have all := sorts.all.length_eq
  have processed := congrArg List.length sorts.processed_ids
  have retried := congrArg List.length sorts.retried_ids
  simp only [List.length_append, List.length_map] at all processed retried
  omega

theorem Sorted.nodup_processed (h : Sorted job approved seen d) (unique : (seen.map (·.id)).Nodup) :
    (d.processed.map (·.id)).Nodup := by
  obtain ⟨done, later, left, sorts⟩ := h
  rw [sorts.processed_ids]
  exact (List.nodup_append.mp (List.nodup_append.mp (sorts.unique unique)).1).1

theorem Sorted.leave (h : Sorted job approved seen d) (rows : List Row) :
    Sorted job approved (seen ++ rows) d := by
  obtain ⟨done, later, left, sorts⟩ := h
  exact ⟨done, later, _, sorts.leave rows⟩

theorem Sorted.exists_of_processed {id : ItemId} (h : Sorted job approved seen d)
    (member : id ∈ d.processed.map (·.id)) : ∃ r ∈ seen, r.id = id ∧ approved r := by
  obtain ⟨done, later, left, sorts⟩ := h
  rw [sorts.processed_ids] at member
  obtain ⟨r, hr, rfl⟩ := List.mem_map.mp member
  have seen := sorts.all.subset (List.mem_append_left left (List.mem_append_left later hr))
  exact ⟨r, seen, rfl, sorts.good r hr⟩

theorem Sorted.exists_of_retried {after : Row} (h : Sorted job approved seen d)
    (member : after ∈ d.retried) : job.features.status ∧ ∃ r ∈ seen, r.PutOff after := by
  obtain ⟨done, later, left, sorts⟩ := h
  obtain ⟨r, hr, off⟩ := sorts.exists_later member
  exact ⟨(sorts.retryable.resolve_left (List.ne_nil_of_mem hr)).2, r,
    sorts.all.subset (List.mem_append_left _ (List.mem_append_right _ hr)), off⟩

theorem Sorted.settle {verdict : Option Verdict} (h : Sorted job approved seen d) (now : Instant)
    (good : ∀ v, verdict = some v → v.isSuccess → approved row) :
    Sorted job approved (seen ++ [row]) (d.settle job now row verdict).decision := by
  obtain ⟨done, later, left, sorts⟩ := h
  have leave : Sorted job approved (seen ++ [row]) d := ⟨done, later, _, sorts.leave [row]⟩
  unfold Decision.settle
  split
  · exact leave
  · rename_i v _
    split
    · rename_i success
      exact ⟨_, later, left, sorts.finish (good v rfl success)⟩
    · exact leave
  · exact leave
  · rename_i v competing
    split
    · rename_i success
      exact ⟨_, later, left, sorts.finish (good v rfl success)⟩
    · split
      · rename_i after scheduled
        obtain ⟨tracked, off⟩ := reschedule_scheduled scheduled
        exact ⟨done, _, left, sorts.putOff competing tracked off⟩
      · exact leave
      · exact leave

theorem Sorted.settleAll {verdict : Row → Option Verdict} (h : Sorted job approved seen d)
    (now : Instant) (good : ∀ r ∈ rows, ∀ v, verdict r = some v → v.isSuccess → approved r) :
    Sorted job approved (seen ++ rows) (settleAll job now d (rows.map fun r => (r, verdict r))) := by
  induction rows generalizing seen d with
  | nil => simpa [Decision.settleAll] using h
  | cons row rest ih =>
    have settled := h.settle now (good row List.mem_cons_self)
    have good := fun r member => good r (List.mem_cons_of_mem row member)
    rw [List.map_cons, Decision.settleAll, List.append_cons]
    split
    · rename_i d' next
      rw [next] at settled
      exact ih settled good
    · rename_i d' stop
      rw [stop] at settled
      exact settled.leave rest

end Decision

namespace Tick

variable {job : Job} {now : Instant} {approved approved' : Row → Prop} {batch rows rest : List Row}
  {d : Decision} {row : Row} {n : Nat}

def toHandle : Tick → List Row
  | .item _ _ row rest => row :: rest
  | .batch rows => rows
  | _ => []

/-- Whether rows were fetched and the tick is not over. -/
def isWorking : Tick → Bool
  | .item .. | .batch _ | .saving .. => true
  | _ => false

/-- A tick at work has decided about the first part of its batch and has the other part to handle. -/
def Tracks (job : Job) (approved : Row → Prop) (batch : List Row) : Tick → Prop
  | .fetching => batch = []
  | .item n d row rest =>
    n = batch.length ∧ ∃ seen, seen ++ row :: rest = batch ∧ d.Sorted job approved seen
  | .batch rows => rows = batch
  | .saving n d => n = batch.length ∧ d.Sorted job approved batch
  | .ended _ => True

theorem Tracks.mono {tick : Tick} (h : tick.Tracks job approved batch)
    (grows : ∀ r, approved r → approved' r) : tick.Tracks job approved' batch := by
  cases tick with
  | item =>
    obtain ⟨count, seen, whole, sorted⟩ := h
    exact ⟨count, seen, whole, sorted.mono grows⟩
  | saving => exact ⟨h.1, h.2.mono grows⟩
  | _ => exact h

theorem tracks_afterFetch (some : rows ≠ []) : (afterFetch job rows).Tracks job approved rows := by
  cases rows with
  | nil => exact absurd rfl some
  | cons row rest =>
    simp only [afterFetch]
    split
    · exact ⟨rfl, [], rfl, Decision.sorted_nil⟩
    · rfl

theorem tracks_afterItem {v : Option Verdict} (h : (item n d row rest).Tracks job approved batch)
    (now : Instant) (grows : ∀ r, approved r → approved' r)
    (good : (v.getD .retry).isSuccess → approved' row) :
    (afterItem n rest (d.settle job now row (some (v.getD .retry)))).Tracks job approved' batch := by
  obtain ⟨count, seen, whole, sorted⟩ := h
  have given : ∀ w, some (v.getD .retry) = some w → w.isSuccess → approved' row :=
    fun _ same success => good (by rwa [Option.some.inj same])
  have settled := (sorted.mono grows).settle now given
  rw [List.append_cons] at whole
  unfold afterItem
  split
  · rename_i d' stop
    rw [stop] at settled
    exact ⟨count, whole ▸ settled.leave rest⟩
  · rename_i d' next
    rw [next] at settled
    split
    · rw [List.append_nil] at whole
      exact ⟨count, whole ▸ settled⟩
    · exact ⟨count, _, whole, settled⟩

theorem tracks_afterBatch {b : Option BatchOutcome} (h : (Tick.batch rows).Tracks job approved batch)
    (now : Instant)
    (good : ∀ r ∈ batch, ∀ v, Decision.batchVerdict job b r = some v → v.isSuccess → approved' r) :
    (saving rows.length (Decision.settleAll job now {}
      (rows.map fun r => (r, Decision.batchVerdict job b r)))).Tracks job approved' batch := by
  cases show rows = batch from h
  exact ⟨rfl, Decision.sorted_nil.settleAll now good⟩

end Tick

end Outbox
