import Outbox.Proofs.Keyed
import Outbox.Table.Repository

/-!
What a save does to the rows of a table: `find?_write_done`, `find?_write_retried` and
`find?_write_other` say what becomes of each row. Locks are not touched before they are released.
-/

namespace Outbox.Table

variable {features : Features} {partitioned : Bool} {t : Table}

/-- The writes of a save: done rows are taken out of the queue and failed ones get their status. -/
def write (features : Features) (partitioned : Bool) (completed : List ItemId) (retried : List Row)
    (t : Table) : Table :=
  retried.foldl (·.writeStatus features) (completed.foldl (·.complete features partitioned) t)

/-! ### Locks -/

theorem complete_locks (t : Table) (id : ItemId) :
    (t.complete features partitioned id).locks = t.locks := by
  unfold complete; split <;> rfl

theorem complete_nextTransaction (t : Table) (id : ItemId) :
    (t.complete features partitioned id).nextTransaction = t.nextTransaction := by
  unfold complete; split <;> rfl

theorem writeStatus_locks (t : Table) (row : Row) :
    (t.writeStatus features row).locks = t.locks := rfl

theorem writeStatus_nextTransaction (t : Table) (row : Row) :
    (t.writeStatus features row).nextTransaction = t.nextTransaction := rfl

theorem foldl_keeps {α β : Type} {part : Table → β} {f : Table → α → Table}
    (keeps : ∀ t a, part (f t a) = part t) (l : List α) : part (l.foldl f t) = part t := by
  induction l generalizing t with
  | nil => rfl
  | cons a rest ih => rw [List.foldl_cons, ih, keeps]

@[simp]
theorem write_locks (completed : List ItemId) (retried : List Row) :
    (t.write features partitioned completed retried).locks = t.locks :=
  (foldl_keeps writeStatus_locks retried).trans (foldl_keeps complete_locks completed)

@[simp]
theorem write_nextTransaction (completed : List ItemId) (retried : List Row) :
    (t.write features partitioned completed retried).nextTransaction = t.nextTransaction :=
  (foldl_keeps writeStatus_nextTransaction retried).trans
    (foldl_keeps complete_nextTransaction completed)

/-! ### Rows -/

def leftover (features : Features) (partitioned : Bool) (row : Row) : Option Row :=
  if partitioned then some (row.modifyStatus features .markCompleted) else none

theorem leftover_bind_self (row : Row) :
    (leftover features partitioned row).bind (leftover features partitioned) =
      leftover features partitioned row := by
  unfold leftover
  split
  · simp only [Option.bind_some, Row.modifyStatus]
    split <;> rfl
  · rfl

theorem find?_complete (id k : ItemId) : (t.complete features partitioned id).rows.find? k =
    if id = k then (t.rows.find? k).bind (leftover features partitioned) else t.rows.find? k := by
  unfold complete leftover
  split
  · rw [Keyed.find?_modify _ _ _ _ (Row.id_modifyStatus features _)]
    simp [Option.map_eq_bind]
  · rw [Keyed.find?_erase]
    simp

theorem find?_foldl_complete (ids : List ItemId) (k : ItemId) :
    (ids.foldl (·.complete features partitioned) t).rows.find? k =
      if k ∈ ids then (t.rows.find? k).bind (leftover features partitioned) else t.rows.find? k := by
  induction ids generalizing t with
  | nil => simp
  | cons id rest ih =>
    rw [List.foldl_cons, ih, find?_complete]
    by_cases same : id = k
    · subst same
      simp [Option.bind_assoc, leftover_bind_self]
    · simp [same, Ne.symm same]

theorem find?_writeStatus (row : Row) (k : ItemId) : (t.writeStatus features row).rows.find? k =
    if row.id = k then (t.rows.find? k).map (·.modifyStatus features fun _ => row.fields)
    else t.rows.find? k := by
  unfold writeStatus
  rw [Keyed.find?_modify _ _ _ _ (Row.id_modifyStatus features _)]
  simp

theorem find?_foldl_writeStatus_of_ne {rows : List Row} {k : ItemId} (h : ∀ r ∈ rows, r.id ≠ k) :
    (rows.foldl (·.writeStatus features) t).rows.find? k = t.rows.find? k := by
  induction rows generalizing t with
  | nil => rfl
  | cons row rest ih =>
    rw [List.foldl_cons, ih fun r hr => h r (List.mem_cons_of_mem _ hr), find?_writeStatus,
      if_neg (h row List.mem_cons_self)]

theorem find?_foldl_writeStatus_of_mem {rows : List Row} {row : Row}
    (unique : (rows.map (·.id)).Nodup) (h : row ∈ rows) :
    (rows.foldl (·.writeStatus features) t).rows.find? row.id =
      (t.rows.find? row.id).map (·.modifyStatus features fun _ => row.fields) := by
  induction rows generalizing t with
  | nil => cases h
  | cons first rest ih =>
    obtain ⟨fresh, unique⟩ := List.nodup_cons.mp unique
    rcases List.mem_cons.mp h with rfl | member
    · have other : ∀ r ∈ rest, r.id ≠ row.id := fun r hr same =>
        fresh (List.mem_map.mpr ⟨r, hr, same⟩)
      rw [List.foldl_cons, find?_foldl_writeStatus_of_ne other, find?_writeStatus, if_pos rfl]
    · have apart : first.id ≠ row.id := fun same => fresh (List.mem_map.mpr ⟨row, member, same.symm⟩)
      rw [List.foldl_cons, ih unique member, find?_writeStatus, if_neg apart]

/-- What a save makes of a row depends on nothing else in the table. -/
theorem find?_write_congr {t' : Table} {k : ItemId} (completed : List ItemId) (retried : List Row)
    (same : t.rows.find? k = t'.rows.find? k) :
    (t.write features partitioned completed retried).rows.find? k =
      (t'.write features partitioned completed retried).rows.find? k := by
  unfold write
  have finished : (completed.foldl (·.complete features partitioned) t).rows.find? k =
      (completed.foldl (·.complete features partitioned) t').rows.find? k := by
    rw [find?_foldl_complete, find?_foldl_complete, same]
  generalize completed.foldl (·.complete features partitioned) t = u,
    completed.foldl (·.complete features partitioned) t' = u' at finished ⊢
  induction retried generalizing u u' with
  | nil => exact finished
  | cons row rest ih => exact ih _ _ (by rw [find?_writeStatus, find?_writeStatus, finished])

section Write

variable {completed : List ItemId} {retried : List Row}

theorem find?_write_done {k : ItemId} (done : k ∈ completed) (apart : ∀ r ∈ retried, r.id ≠ k) :
    (t.write features partitioned completed retried).rows.find? k =
      (t.rows.find? k).bind (leftover features partitioned) := by
  rw [write, find?_foldl_writeStatus_of_ne apart, find?_foldl_complete, if_pos done]

theorem find?_write_retried {row : Row} (unique : (retried.map (·.id)).Nodup)
    (failed : row ∈ retried) (apart : row.id ∉ completed) :
    (t.write features partitioned completed retried).rows.find? row.id =
      (t.rows.find? row.id).map (·.modifyStatus features fun _ => row.fields) := by
  rw [write, find?_foldl_writeStatus_of_mem unique failed, find?_foldl_complete, if_neg apart]

theorem find?_write_other {k : ItemId} (notDone : k ∉ completed)
    (notRetried : ∀ r ∈ retried, r.id ≠ k) :
    (t.write features partitioned completed retried).rows.find? k = t.rows.find? k := by
  rw [write, find?_foldl_writeStatus_of_ne notRetried, find?_foldl_complete, if_neg notDone]

end Write

end Outbox.Table
