import Outbox.Proofs.Locks
import Outbox.Proofs.Saving

/-!
What a unit of work can do to a table: one lemma with all outcomes of a fetch and one with those of a
save. Whatever they answer, the locks stay exact.
-/

namespace Outbox

namespace Repository

variable {features : Features} {r : Repository} {t : Table}

/-- A fetch of an open unit is refused, one that meets a row held elsewhere may give up, and any
other opens the unit and locks what it returns. -/
theorem fetch_cases (features : Features) (now : Instant) (limit : Nat) (r : Repository) (t : Table) :
    (∃ txn, r.transaction = some txn ∧
      r.fetch features now limit t = (.error .transactionAlreadyOpen, r, t)) ∨
    (r.transaction = none ∧ t.window? features now r.mode limit t.nextTransaction = none ∧
      r.fetch features now limit t = (.ok [], r, t.begin)) ∨
    (∃ rows, r.transaction = none ∧
      t.window? features now r.mode limit t.nextTransaction = some rows ∧
      r.fetch features now limit t = (.ok rows, { r with transaction := some t.nextTransaction },
        t.begin.lockAll t.nextTransaction rows)) := by
  -- the window does not depend on the transaction numbers to come
  have same : Table.window? features now r.mode limit t.nextTransaction
      { t with nextTransaction := t.nextTransaction + 1 } =
      t.window? features now r.mode limit t.nextTransaction := rfl
  cases opened : r.transaction with
  | some txn => exact .inl ⟨txn, rfl, by simp only [fetch, opened]⟩
  | none =>
    cases window : t.window? features now r.mode limit t.nextTransaction with
    | none =>
      rw [window] at same
      exact .inr (.inl ⟨rfl, rfl, by simp only [fetch, opened, same, Table.begin]⟩)
    | some rows =>
      rw [window] at same
      exact .inr (.inr ⟨rows, rfl, rfl, by simp only [fetch, opened, same, Table.begin]⟩)

/-- A save of a closed unit is refused, and so is one of failed rows where they cannot be retried;
any other writes its rows and closes the unit. -/
theorem save_cases (features : Features) (completed : List ItemId) (retried : List Row)
    (r : Repository) (t : Table) :
    (r.transaction = none ∧
      r.save features completed retried t = (.error .transactionNotOpen, r, t)) ∨
    (∃ txn, r.transaction = some txn ∧ retried ≠ [] ∧ r.mode.lock.supportsRetry = false ∧
      r.save features completed retried t = (.error .retryNotSupported, r, t)) ∨
    (∃ txn, r.transaction = some txn ∧ (retried = [] ∨ r.mode.lock.supportsRetry) ∧
      r.save features completed retried t = (.ok (), { r with transaction := none },
        (t.write features r.mode.partitioned completed retried).release txn)) := by
  cases opened : r.transaction with
  | none => exact .inl ⟨rfl, by simp only [save, opened]⟩
  | some txn =>
    by_cases refused : retried ≠ [] ∧ !r.mode.lock.supportsRetry
    · refine .inr (.inl ⟨txn, rfl, refused.1, by simpa using refused.2, ?_⟩)
      simp only [save, opened, if_pos refused]
    · refine .inr (.inr ⟨txn, rfl, ?_, ?_⟩)
      · simpa [or_iff_not_imp_left] using refused
      · simp only [save, opened, if_neg refused, Table.write]

end Repository

namespace Table.LocksExact

variable {others : List Lock} {rest : List Holding} {ids : List ItemId} {fetched : List Row}
  {features : Features} {r : Repository} {t : Table}

theorem fetch (now : Instant) (limit : Nat)
    (h : LocksExact others (⟨r.transaction, fetched.map (·.id)⟩ :: rest) t) :
    LocksExact others
      (⟨(r.fetch features now limit t).2.1.transaction,
        ((r.fetch features now limit t).1.toOption.getD fetched).map (·.id)⟩ :: rest)
      (r.fetch features now limit t).2.2 := by
  rcases r.fetch_cases features now limit t with
    ⟨txn, opened, result⟩ | ⟨closed, _, result⟩ | ⟨rows, closed, window, result⟩
  · rw [result]
    exact h
  · rw [result]
    exact (cons_closed closed).mpr ((cons_closed closed).mp h).begin
  · rw [result]
    obtain ⟨sublist, -, free⟩ := window?_some window
    have unique := Table.eligible_nodup.sublist (sublist.map _)
    exact ((cons_closed closed).mp h).lock unique free

theorem save (completed : List ItemId) (retried : List Row)
    (h : LocksExact others (⟨r.transaction, ids⟩ :: rest) t) :
    LocksExact others (⟨(r.save features completed retried t).2.1.transaction, ids⟩ :: rest)
      (r.save features completed retried t).2.2 := by
  rcases r.save_cases features completed retried t with
    ⟨closed, result⟩ | ⟨txn, opened, _, _, result⟩ | ⟨txn, opened, _, result⟩
  · rw [result]
    exact h
  · rw [result]
    exact h
  · rw [result]
    have written : LocksExact others (⟨r.transaction, ids⟩ :: rest)
        (t.write features r.mode.partitioned completed retried) :=
      h.congr (write_locks ..) (write_nextTransaction ..)
    exact (cons_closed rfl).mpr (written.release opened)

theorem drop (h : LocksExact others (⟨r.transaction, ids⟩ :: rest) t) :
    LocksExact others rest (r.drop t) := by
  unfold Repository.drop
  split
  · rename_i txn opened
    exact h.release opened
  · rename_i closed
    exact (cons_closed closed).mp h

end Table.LocksExact

end Outbox
