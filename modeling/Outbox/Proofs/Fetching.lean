import Outbox.Proofs.Repository

/-!
What a fetch hands out. A row may be fetched when it is due and not done with (`Row.Eligible`); such
rows stand in a queue, and every fetch takes from the front of it. One that leaves out locked rows
passes over those alone, and one that does not wait gives up at the first (`fetch_first_in_line`).
-/

namespace Outbox

variable {features : Features} {now : Instant} {partitioned : Bool} {t : Table} {row : Row}
  {txn : TransactionId}

/-- Due, and not done with where done rows stay. A row of a type without a status is always both. -/
def Row.Eligible (features : Features) (now : Instant) (partitioned : Bool) (row : Row) : Prop :=
  ∀ f, row.status? features = some f →
    (∀ after, f.retryAfter = some after → after ≤ now) ∧ (partitioned → f.status ≠ .completed)

theorem StatusFields.isDue_iff (f : StatusFields) :
    f.isDue now ↔ ∀ after, f.retryAfter = some after → after ≤ now := by
  unfold isDue
  cases f.retryAfter with
  | none => simp
  | some after => simp

theorem Row.isEligible_iff :
    row.isEligible features now partitioned ↔ row.Eligible features now partitioned := by
  unfold isEligible Eligible
  cases row.status? features with
  | none => simp
  | some f =>
    simp only [Bool.and_eq_true, StatusFields.isDue_iff, Option.some.injEq, forall_eq']
    apply and_congr_right
    intro _
    cases partitioned <;> simp

namespace Table

/-- The rows that may be fetched, in the order of fetches. -/
structure Queue (features : Features) (now : Instant) (partitioned : Bool) (t : Table)
    (queue : List Row) : Prop where
  ordered : queue.Pairwise (Row.precedes features)
  members : ∀ row, row ∈ queue ↔ row ∈ t.rows.toList ∧ row.Eligible features now partitioned

theorem queue_eligible :
    t.Queue features now partitioned (t.eligible features now partitioned) where
  ordered := eligible_pairwise
  members row := by
    rw [mem_eligible, Keyed.find?_eq_some_iff, Row.isEligible_iff]
    simp

theorem Queue.unique {l m : List Row} (hl : t.Queue features now partitioned l)
    (hm : t.Queue features now partitioned m) : l = m := by
  apply eq_of_precedes hl.ordered hm.ordered
  intro row
  rw [hl.members, hm.members]

def Elsewhere (txn : TransactionId) (t : Table) (row : Row) : Prop :=
  ∃ lock ∈ t.locks.toList, lock.id = row.id ∧ lock.owner ≠ txn

theorem lockedByOther_iff : t.lockedByOther txn row.id ↔ t.Elsewhere txn row := by
  unfold lockedByOther Elsewhere
  constructor
  · intro locked
    split at locked
    · rename_i lock found
      obtain ⟨member, same⟩ := Keyed.find?_eq_some_iff.mp found
      exact ⟨lock, member, same, by simpa using locked⟩
    · cases locked
  · rintro ⟨lock, member, same, other⟩
    rw [Keyed.find?_eq_some_iff.mpr ⟨member, same⟩]
    simpa using other

/-- Locking rows that nobody else holds adds their locks and no others. -/
theorem mem_lockAll {rows : List Row} {lock : Lock} (unique : (rows.map (·.id)).Nodup)
    (free : ∀ r ∈ rows, ¬ t.Elsewhere txn r) :
    lock ∈ (t.lockAll txn rows).locks.toList ↔
      lock ∈ t.locks.toList ∨ lock.owner = txn ∧ lock.id ∈ rows.map (·.id) := by
  have stored (t : Table) : lock ∈ t.locks.toList ↔ t.locks.find? lock.id = some lock := by
    simp [Keyed.find?_eq_some_iff]
  rw [stored, find?_lockAll unique, stored]
  obtain ⟨id, owner⟩ := lock
  split
  · rename_i taken
    obtain ⟨r, member, rfl⟩ := List.mem_map.mp taken
    constructor
    · intro own
      cases own
      exact .inr ⟨rfl, taken⟩
    · rintro (old | ⟨rfl, -⟩)
      · have own : owner = txn := by
          by_contra other
          exact free r member ⟨_, Keyed.mem_of_find? old, rfl, other⟩
        rw [own]
      · rfl
  · rename_i outside
    simp [outside]

theorem window?_of_free {mode : Mode} {limit : Nat} (strict : mode.lock = .noWait)
    (free : ∀ row ∈ (t.eligible features now mode.partitioned).take limit, ¬ t.Elsewhere txn row) :
    t.window? features now mode limit txn =
      some ((t.eligible features now mode.partitioned).take limit) := by
  simp only [window?, strict]
  rw [if_neg]
  intro held
  obtain ⟨row, member, locked⟩ := List.any_eq_true.mp held
  exact free row member (lockedByOther_iff.mp locked)

theorem window?_of_held {mode : Mode} {limit : Nat} (strict : mode.lock = .noWait)
    (member : row ∈ (t.eligible features now mode.partitioned).take limit)
    (held : t.Elsewhere txn row) : t.window? features now mode limit txn = none := by
  simp only [window?, strict]
  rw [if_pos]
  exact List.any_eq_true.mpr ⟨row, member, lockedByOther_iff.mpr held⟩

theorem mem_take_of_precedes {rows : List Row} {limit : Nat} {a b : Row}
    (ordered : rows.Pairwise (Row.precedes features)) (member : a ∈ rows) (taken : b ∈ rows.take limit)
    (before : a.precedes features b) : a ∈ rows.take limit := by
  rw [← List.take_append_drop limit rows] at ordered member
  rcases List.mem_append.mp member with first | behind
  · exact first
  · have after := (List.pairwise_append.mp ordered).2.2 b taken a behind
    exact absurd before (Row.precedes_asymm after)

end Table

namespace Repository

/-- The answer of a fetch that hands out `batch`: the unit of work is open under a new number, and of
the table only the locks of the batch are new. -/
structure HandsOut (r : Repository) (t : Table) (batch : List Row)
    (answer : Except OutboxError (List Row) × Repository × Table) : Prop where
  rows : answer.1 = .ok batch
  opened : answer.2.1 = { r with transaction := some t.nextTransaction }
  locks : ∀ lock, lock ∈ answer.2.2.locks.toList ↔
    lock ∈ t.locks.toList ∨ lock.owner = t.nextTransaction ∧ lock.id ∈ batch.map (·.id)

variable {r : Repository} {limit : Nat} {batch : List Row}

theorem fetch_rows (features : Features) (now : Instant) (limit : Nat) (r : Repository) (t : Table) :
    (r.fetch features now limit t).2.2.rows = t.rows := by
  rcases r.fetch_cases features now limit t with ⟨_, _, result⟩ | ⟨_, _, result⟩ | ⟨_, _, _, result⟩ <;>
    rw [result] <;> rfl

theorem handsOut_window (closed : r.transaction = none)
    (window : t.window? features now r.mode limit t.nextTransaction = some batch) :
    r.HandsOut t batch (r.fetch features now limit t) := by
  obtain ⟨sublist, -, free⟩ := Table.window?_some window
  rcases r.fetch_cases features now limit t with
    ⟨_, opened, _⟩ | ⟨_, none, _⟩ | ⟨rows, _, found, result⟩
  · cases closed.symm.trans opened
  · cases window.symm.trans none
  · cases window.symm.trans found
    rw [result]
    refine ⟨rfl, rfl, ?_⟩
    intro lock
    apply Table.mem_lockAll (t := t.begin) (Table.eligible_nodup.sublist (sublist.map _))
    intro row member held
    have locked := Table.lockedByOther_iff.mpr held
    cases (free row member).symm.trans locked

theorem gives_up (closed : r.transaction = none)
    (window : t.window? features now r.mode limit t.nextTransaction = none) :
    let answer := r.fetch features now limit t
    answer.1 = .ok [] ∧ answer.2.1 = r ∧ answer.2.2.locks = t.locks := by
  rcases r.fetch_cases features now limit t with
    ⟨_, opened, _⟩ | ⟨_, _, result⟩ | ⟨_, _, found, _⟩
  · cases closed.symm.trans opened
  · rw [result]
    exact ⟨rfl, rfl, rfl⟩
  · cases window.symm.trans found

/-- What a fetch of a closed unit of work hands out of the queue of its table, whatever the table holds
and whoever holds rows of it. -/
structure FirstInLine (features : Features) (now : Instant) (limit : Nat) (r : Repository) (t : Table)
    (queue : List Row) (answer : Except OutboxError (List Row) × Repository × Table) : Prop where
  queued : t.Queue features now r.mode.partitioned queue
  rows : answer.2.2.rows = t.rows
  /-- The first rows that are free; none of these is passed over for a later one. -/
  skipping : r.mode.lock = .skipLocked → ∃ free batch, free.Sublist queue ∧
    (∀ row, row ∈ free ↔ row ∈ queue ∧ ¬ t.Elsewhere t.nextTransaction row) ∧
    batch <+: free ∧ batch.length = min limit free.length ∧ r.HandsOut t batch answer ∧
    ∀ row ∈ queue, ¬ t.Elsewhere t.nextTransaction row →
      ∀ later ∈ batch, row.precedes features later → row ∈ batch
  /-- The first rows of all, or none and no open unit of work if one of them is held elsewhere. -/
  waitless : r.mode.lock = .noWait → ∃ batch, batch <+: queue ∧ batch.length = min limit queue.length ∧
    ((∀ row ∈ batch, ¬ t.Elsewhere t.nextTransaction row) → r.HandsOut t batch answer) ∧
    ((∃ row ∈ batch, t.Elsewhere t.nextTransaction row) →
      answer.1 = .ok [] ∧ answer.2.1 = r ∧ answer.2.2.locks = t.locks)

theorem fetch_first_in_line (features : Features) (now : Instant) (limit : Nat) {r : Repository}
    (closed : r.transaction = none) (t : Table) :
    ∃ queue, FirstInLine features now limit r t queue (r.fetch features now limit t) := by
  refine ⟨_, Table.queue_eligible, fetch_rows features now limit r t, ?_, ?_⟩
  · intro skips
    let free := (t.eligible features now r.mode.partitioned).filter fun row =>
      !t.lockedByOther t.nextTransaction row.id
    have members : ∀ row, row ∈ free ↔
        row ∈ t.eligible features now r.mode.partitioned ∧ ¬ t.Elsewhere t.nextTransaction row := by
      intro row
      rw [List.mem_filter, ← Table.lockedByOther_iff]
      simp
    have window : t.window? features now r.mode limit t.nextTransaction = some (free.take limit) := by
      simp only [Table.window?, skips, free]
    refine ⟨free, free.take limit, List.filter_sublist, members, List.take_prefix _ _,
      List.length_take, handsOut_window closed window, ?_⟩
    intro row queued notHeld later taken before
    have ordered : free.Pairwise (Row.precedes features) := Table.eligible_pairwise.filter _
    exact Table.mem_take_of_precedes ordered ((members row).mpr ⟨queued, notHeld⟩) taken before
  · intro strict
    refine ⟨(t.eligible features now r.mode.partitioned).take limit, List.take_prefix _ _,
      List.length_take, ?_, ?_⟩
    · intro free
      exact handsOut_window closed (Table.window?_of_free strict free)
    · rintro ⟨row, member, held⟩
      exact gives_up closed (Table.window?_of_held strict member held)

/-- Rows of two priorities, of which one is held by another transaction and one is not yet due. -/
def crowded : Table where
  rows := .ofList [{ id := .ofNat 1, payload := "a" }, { id := .ofNat 2, payload := "b", priority := 5 },
    { id := .ofNat 3, payload := "c", priority := 5 },
    { id := .ofNat 4, payload := "d", priority := 9, fields := { retryAfter := some .last } }]
  locks := .ofList [⟨.ofNat 2, 1⟩]
  nextTransaction := 2

def unopened (lock : LockDiscipline) : Repository := { mode := ⟨lock, false⟩ }

theorem fetch_first_in_line_crowded :
    ((unopened .skipLocked).transaction = none ∧
      (∃ queue, FirstInLine ⟨true, true⟩ .epoch 2 (unopened .skipLocked) crowded queue
        ((unopened .skipLocked).fetch ⟨true, true⟩ .epoch 2 crowded)) ∧
      ((unopened .skipLocked).fetch ⟨true, true⟩ .epoch 2 crowded).1.toOption.map (·.map (·.id)) =
        some [.ofNat 3, .ofNat 1]) ∧
    (unopened .noWait).transaction = none ∧
      (∃ queue, FirstInLine ⟨true, true⟩ .epoch 2 (unopened .noWait) crowded queue
        ((unopened .noWait).fetch ⟨true, true⟩ .epoch 2 crowded)) ∧
      ((unopened .noWait).fetch ⟨true, true⟩ .epoch 2 crowded).1.toOption = some [] :=
  ⟨⟨rfl, fetch_first_in_line _ _ _ rfl _, by decide⟩, rfl, fetch_first_in_line _ _ _ rfl _, by decide⟩

end Repository

end Outbox
