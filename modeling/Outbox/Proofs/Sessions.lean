import Outbox.Proofs.Decisions
import Outbox.Proofs.Repository
import Outbox.Table.Session

/-!
All that a step of a tick can do to the tick and its table (`Session.Move`, `Session.act_moves`). A
tick writes rows in one case only, when its save commits; it opens a transaction in one case only,
when it fetched rows, and it has it until it is over.
-/

namespace Outbox

/-- How an act that gives up ends a tick. -/
def Act.gaveUp? : Act → Option TickStatus
  | .fetch (some _) | .save (some _) => some .failed
  | .cancel => some .cancelled
  | _ => none

theorem Act.gaveUp_ne {a : Act} {status : TickStatus} (h : a.gaveUp? = some status) :
    status ≠ .completed := by
  unfold gaveUp? at h
  split at h <;> cases h <;> decide

/-- Whether the act is one of those that the tick waits for. -/
def Tick.Awaits : Tick → Act → Prop
  | .ended _, .cancel => False
  | _, .cancel | .fetching, .fetch _ | .item .., .answer (.verdict _) | .batch _, .answer (.outcome _)
  | .saving .., .save _ => True
  | _, _ => False

/-- A bound on the steps that a tick still takes. -/
def Tick.remaining (limit : Nat) : Tick → Nat
  | .fetching => limit + 2
  | .item _ _ _ rest => rest.length + 2
  | .batch _ => 2
  | .saving .. => 1
  | .ended _ => 0

structure Handlers where
  item : Row → Option Verdict
  batch : List Row → Option BatchOutcome

/-- The act that a tick waits for, with the answers of its handlers. One that is over waits for none. -/
def Tick.asked (h : Handlers) (fault : Option OutboxError) : Tick → Act
  | .fetching => .fetch fault
  | .item _ _ row _ => .answer (.verdict (h.item row))
  | .batch rows => .answer (.outcome (h.batch rows))
  | .saving .. | .ended _ => .save fault

theorem Tick.asked_awaited (h : Handlers) (fault : Option OutboxError) {tick : Tick}
    (going : tick.report? = none) : tick.Awaits (tick.asked h fault) := by
  cases tick <;> trivial

namespace Session

variable {now : Instant} {s s' : Session} {t t' : Table} {a : Act}

/-- The unit of work is in the mode of the job and open exactly while the tick is at work. -/
structure Sound (s : Session) : Prop where
  mode : s.repository.mode = s.job.mode
  opened : s.repository.transaction.isSome = s.tick.isWorking

def ended (s : Session) (report : TickReport) : Session :=
  { s with repository := { s.repository with transaction := none }, tick := .ended report }

/-- The session with the rows of its fetch, which `txn` holds. -/
def opening (s : Session) (txn : TransactionId) (rows : List Row) : Session :=
  { s with
    repository := { s.repository with transaction := some txn }, tick := Tick.afterFetch s.job rows }

/-- What the decision of a session writes, and its unit of work closed. -/
def commit (s : Session) (txn : TransactionId) (d : Decision) (t : Table) : Table :=
  (t.write s.job.features s.job.mode.partitioned (d.processed.map (·.id)) d.retried).release txn

inductive Move (now : Instant) (s : Session) (t : Table) : Act → Session → Table → Prop where
  | idle {a : Act} (idle : ¬ s.tick.Awaits a) : Move now s t a s t
  | quit {a : Act} {status : TickStatus} (fetching : s.tick = .fetching)
      (gaveUp : a.gaveUp? = some status) : Move now s t a (s.ended { status }) t
  | empty (fetching : s.tick = .fetching)
      (window : t.window? s.job.features now s.job.mode s.job.limit t.nextTransaction = none ∨
        t.window? s.job.features now s.job.mode s.job.limit t.nextTransaction = some []) :
      Move now s t (.fetch none) (s.ended { status := .empty }) t.begin
  | fetched {rows : List Row} (fetching : s.tick = .fetching)
      (window : t.window? s.job.features now s.job.mode s.job.limit t.nextTransaction = some rows)
      (found : rows ≠ []) :
      Move now s t (.fetch none) (s.opening t.nextTransaction rows)
        (t.begin.lockAll t.nextTransaction rows)
  | item {n : Nat} {d : Decision} {row : Row} {rest : List Row} {v : Option Verdict}
      (handling : s.tick = .item n d row rest) :
      Move now s t (.answer (.verdict v))
        { s with tick := Tick.afterItem n rest (d.settle s.job now row (some (v.getD .retry))) } t
  | batch {rows : List Row} {b : Option BatchOutcome} (handling : s.tick = .batch rows) :
      Move now s t (.answer (.outcome b))
        { s with tick := .saving rows.length (Decision.settleAll s.job now {}
          (rows.map fun r => (r, Decision.batchVerdict s.job b r))) } t
  | commit {n : Nat} {d : Decision} {txn : TransactionId} (saving : s.tick = .saving n d)
      (opened : s.repository.transaction = some txn)
      (accepted : d.retried = [] ∨ s.job.worker.lock.supportsRetry) :
      Move now s t (.save none) (s.ended (Tick.completed n d)) (s.commit txn d t)
  | refused {n : Nat} {d : Decision} {txn : TransactionId} (saving : s.tick = .saving n d)
      (opened : s.repository.transaction = some txn) (retries : d.retried ≠ [])
      (unsupported : s.job.worker.lock.supportsRetry = false) :
      Move now s t (.save none) (s.ended { status := .failed }) (t.release txn)
  | rollback {a : Act} {status : TickStatus} {txn : TransactionId} (working : s.tick.isWorking)
      (opened : s.repository.transaction = some txn) (gaveUp : a.gaveUp? = some status) :
      Move now s t a (s.ended { status }) (t.release txn)

theorem afterItem_isWorking (n : Nat) (rest : List Row) (decided : Settled) :
    (Tick.afterItem n rest decided).isWorking := by
  unfold Tick.afterItem
  split
  · rfl
  · split <;> rfl

theorem settle_tick (s : Session) (t : Table) : (s.settle t).1.tick = s.tick := by
  unfold settle
  split <;> rfl

theorem settle_working (working : s.tick.isWorking) : s.settle t = (s, t) := by
  unfold settle
  split
  · rename_i ended
    rw [ended] at working
    cases working
  · rfl

theorem afterFetch_isWorking {job : Job} {rows : List Row} (found : rows ≠ []) :
    (Tick.afterFetch job rows).isWorking := by
  cases rows with
  | nil => exact absurd rfl found
  | cons row rest =>
    simp only [Tick.afterFetch]
    split <;> rfl

/-- The fetch of a tick ends it at once or opens its unit of work. -/
theorem act_start (job : Job) (now : Instant) (t : Table) :
    (((start job false).act now t (.fetch none)).1, ((start job false).act now t (.fetch none)).2.1) =
      match t.window? job.features now job.mode job.limit t.nextTransaction with
      | none => ((start job false).ended { status := .empty }, t.begin)
      | some [] => ((start job false).ended { status := .empty },
          (t.begin.lockAll t.nextTransaction []).release t.nextTransaction)
      | some batch => ((start job false).opening t.nextTransaction batch,
          t.begin.lockAll t.nextTransaction batch) := by
  rcases Repository.fetch_cases job.features now job.limit ⟨job.mode, none⟩ t with
    ⟨_, impossible, _⟩ | ⟨_, window, result⟩ | ⟨rows, _, window, result⟩
  · cases impossible
  · have window : t.window? job.features now job.mode job.limit t.nextTransaction = none := window
    simp only [window, act, start, result]
    rfl
  · have window : t.window? job.features now job.mode job.limit t.nextTransaction = some rows := window
    cases rows with
    | nil =>
      simp only [window, act, start, result]
      rfl
    | cons row rest =>
      simp only [window, act, start, result, reply, Tick.next]
      rw [settle_working (afterFetch_isWorking (List.cons_ne_nil row rest))]
      rfl

theorem fetch_moves {job : Job} (begun : t.Begun) :
    Move now (start job false) t (.fetch none) ((start job false).act now t (.fetch none)).1
      ((start job false).act now t (.fetch none)).2.1 := by
  have first := act_start job now t
  cases window : t.window? job.features now job.mode job.limit t.nextTransaction with
  | none =>
    rw [window] at first
    obtain ⟨emptied, table⟩ := Prod.mk.inj first
    rw [emptied, table]
    exact .empty rfl (.inl window)
  | some rows =>
    rw [window] at first
    cases rows with
    | nil =>
      -- an empty unit of work is dropped at once
      have traceless : (t.begin.lockAll t.nextTransaction []).release t.nextTransaction = t.begin :=
        Table.release_lockAll begun .nil (by simp)
      obtain ⟨emptied, table⟩ := Prod.mk.inj first
      rw [emptied, table, traceless]
      exact .empty rfl (.inr window)
    | cons row rest =>
      obtain ⟨opened, table⟩ := Prod.mk.inj first
      rw [opened, table]
      exact .fetched rfl window (List.cons_ne_nil row rest)

theorem save_moves {job : Job} {txn : TransactionId} {n : Nat} {d : Decision} :
    Move now ⟨job, ⟨job.mode, some txn⟩, .saving n d⟩ t (.save none)
      (act now ⟨job, ⟨job.mode, some txn⟩, .saving n d⟩ t (.save none)).1
      (act now ⟨job, ⟨job.mode, some txn⟩, .saving n d⟩ t (.save none)).2.1 := by
  rcases Repository.save_cases job.features (d.processed.map (·.id)) d.retried ⟨job.mode, some txn⟩ t with
    ⟨impossible, _⟩ | ⟨_, opened, retries, unsupported, result⟩ | ⟨_, opened, accepted, result⟩
  · cases impossible
  · simp only [act, result]
    cases opened
    exact .refused rfl rfl retries unsupported
  · simp only [act, result]
    cases opened
    exact .commit rfl rfl accepted

theorem act_moves (now : Instant) (a : Act) (sound : s.Sound) (begun : s.tick = .fetching → t.Begun) :
    Move now s t a (s.act now t a).1 (s.act now t a).2.1 := by
  obtain ⟨job, ⟨mode, transaction⟩, tick⟩ := s
  obtain rfl : mode = job.mode := sound.mode
  have opened : transaction.isSome = tick.isWorking := sound.opened
  cases tick with
  | fetching =>
    obtain rfl : transaction = none := Option.not_isSome_iff_eq_none.mp (ne_true_of_eq_false opened)
    cases a with
    | fetch fault =>
      cases fault with
      | some e => exact .quit rfl rfl
      | none => exact fetch_moves (begun rfl)
    | answer r => cases r <;> exact .idle nofun
    | save fault => exact .idle nofun
    | cancel => exact .quit rfl rfl
  | item n d row rest =>
    obtain ⟨txn, rfl⟩ := Option.isSome_iff_exists.mp opened
    cases a with
    | answer r =>
      cases r with
      | verdict v => exact .item rfl
      | _ => exact .idle nofun
    | cancel => exact .rollback rfl rfl rfl
    | _ => exact .idle nofun
  | batch rows =>
    obtain ⟨txn, rfl⟩ := Option.isSome_iff_exists.mp opened
    cases a with
    | answer r =>
      cases r with
      | outcome b => exact .batch rfl
      | _ => exact .idle nofun
    | cancel => exact .rollback rfl rfl rfl
    | _ => exact .idle nofun
  | saving n d =>
    obtain ⟨txn, rfl⟩ := Option.isSome_iff_exists.mp opened
    cases a with
    | save fault =>
      cases fault with
      | some e => exact .rollback rfl rfl rfl
      | none => exact save_moves
    | answer r => cases r <;> exact .idle nofun
    | cancel => exact .rollback rfl rfl rfl
    | fetch _ => exact .idle nofun
  | ended report =>
    obtain rfl : transaction = none := Option.not_isSome_iff_eq_none.mp (ne_true_of_eq_false opened)
    cases a with
    | answer r => cases r <;> exact .idle nofun
    | _ => exact .idle nofun

/-! ### What a step keeps -/

namespace Move

theorem job (h : Move now s t a s' t') : s'.job = s.job := by cases h <;> rfl

theorem sound (h : Move now s t a s' t') (sound : s.Sound) : s'.Sound := by
  have opened := sound.opened
  cases h with
  | idle => exact sound
  | quit | empty | commit | refused | rollback => exact ⟨sound.mode, rfl⟩
  | fetched _ _ found => exact ⟨sound.mode, (afterFetch_isWorking found).symm⟩
  | item handling =>
    rw [handling] at opened
    exact ⟨sound.mode, opened.trans (afterItem_isWorking ..).symm⟩
  | batch handling =>
    rw [handling] at opened
    exact ⟨sound.mode, opened⟩

end Move

/-- Nothing happens to a tick that is over. -/
theorem Move.ended {report : TickReport} (h : Move now s t a s' t') (ended : s.tick = .ended report) :
    s' = s ∧ t' = t := by
  cases h with
  | idle => exact ⟨rfl, rfl⟩
  | quit fetching | empty fetching | fetched fetching => cases ended.symm.trans fetching
  | item handling | batch handling => cases ended.symm.trans handling
  | commit saving | refused saving => cases ended.symm.trans saving
  | rollback working =>
    rw [ended] at working
    cases working

/-- A step that the tick waits for brings it nearer to its end. -/
theorem Move.remaining_lt (h : Move now s t a s' t') (awaited : s.tick.Awaits a) :
    s'.tick.remaining s.job.limit < s.tick.remaining s.job.limit := by
  cases h with
  | idle idle => exact absurd awaited idle
  | quit fetching | empty fetching =>
    rw [fetching]
    exact Nat.succ_pos _
  | @fetched rows fetching window found =>
    obtain ⟨-, short, -⟩ := Table.window?_some window
    cases rows with
    | nil => exact absurd rfl found
    | cons row rest =>
      rw [List.length_cons] at short
      rw [fetching]
      simp only [opening, Tick.afterFetch]
      split <;> simp only [Tick.remaining] <;> omega
  | item handling =>
    rw [handling]
    simp only [Tick.afterItem]
    split
    · simp [Tick.remaining]
    · split <;> simp [Tick.remaining]
  | batch handling =>
    rw [handling]
    exact Nat.lt_succ_self _
  | commit saving | refused saving =>
    rw [saving]
    exact Nat.one_pos
  | rollback working =>
    cases tick : s.tick <;> rw [tick] at working <;> first | exact Nat.succ_pos _ | cases working

theorem Move.remaining_le (h : Move now s t a s' t') (awaited : s.tick.report? = none → s.tick.Awaits a) :
    s'.tick.remaining s.job.limit ≤ s.tick.remaining s.job.limit - 1 := by
  cases tick : s.tick with
  | ended report =>
    rw [(h.ended tick).1, tick]
    rfl
  | _ =>
    rw [← tick]
    exact Nat.le_sub_one_of_lt (h.remaining_lt (awaited (by rw [tick]; rfl)))

theorem commit_locks (s : Session) (txn : TransactionId) (d : Decision) (t : Table) :
    (s.commit txn d t).locks = (t.release txn).locks := by
  simp [commit, Table.release]

theorem commit_nextTransaction (s : Session) (txn : TransactionId) (d : Decision) (t : Table) :
    (s.commit txn d t).nextTransaction = t.nextTransaction := by
  simp [commit, Table.release]

theorem Move.begun (h : Move now s t a s' t') (begun : t.Begun) : t'.Begun := by
  cases h with
  | idle | quit | item | batch => exact begun
  | empty => exact begun.begin
  | fetched _ window =>
    exact begun.lockAll (Table.eligible_nodup.sublist ((Table.window?_some window).1.map _))
  | @commit n d txn =>
    have released := begun.release txn
    unfold Table.Begun at released ⊢
    rwa [commit_locks, commit_nextTransaction]
  | refused | rollback => exact begun.release _

theorem act_save {n : Nat} {d : Decision} {txn : TransactionId} (sound : s.Sound)
    (saving : s.tick = .saving n d) (opened : s.repository.transaction = some txn)
    (accepted : d.retried = [] ∨ s.job.worker.lock.supportsRetry) (now : Instant) (t : Table) :
    (s.act now t (.save none)).1 = s.ended (Tick.completed n d) ∧
      (s.act now t (.save none)).2.1 = s.commit txn d t := by
  have moves := act_moves now (.save none) sound (t := t) fun fetching => nomatch saving.symm.trans fetching
  generalize (s.act now t (.save none)).1 = s', (s.act now t (.save none)).2.1 = t' at moves ⊢
  cases moves with
  | idle idle => exact absurd (saving ▸ trivial) idle
  | quit _ gaveUp | rollback _ _ gaveUp => cases gaveUp
  | commit saving' opened' =>
    cases saving.symm.trans saving'
    cases opened.symm.trans opened'
    exact ⟨rfl, rfl⟩
  | refused saving' _ retries unsupported =>
    cases saving.symm.trans saving'
    rcases accepted with none | supported
    · exact absurd none retries
    · cases supported.symm.trans unsupported

/-! ### What a commit writes -/

section Commit

variable {approved : Row → Prop} {batch done later left : List Row} {d : Decision}
  {txn : TransactionId} {row : Row}

theorem find?_commit_done (txn : TransactionId) (t : Table)
    (sorts : d.Sorts s.job approved batch done later left)
    (unique : (batch.map (·.id)).Nodup) (member : row ∈ done) :
    (s.commit txn d t).rows.find? row.id =
      (t.rows.find? row.id).bind (Table.leftover s.job.features s.job.mode.partitioned) := by
  have apart := (List.nodup_append.mp (List.nodup_append.mp (sorts.unique unique)).1).2.2
  refine Table.find?_write_done ?_ fun r hr same => ?_
  · rw [sorts.processed_ids]
    exact List.mem_map_of_mem member
  · have hr : r.id ∈ later.map (·.id) := sorts.retried_ids ▸ List.mem_map_of_mem hr
    exact apart row.id (List.mem_map_of_mem member) r.id hr same.symm

theorem find?_commit_retried {after : Row} (txn : TransactionId) (t : Table)
    (sorts : d.Sorts s.job approved batch done later left)
    (unique : (batch.map (·.id)).Nodup) (retried : after ∈ d.retried) :
    (s.commit txn d t).rows.find? after.id =
      (t.rows.find? after.id).map fun r => { r with fields := after.fields } := by
  obtain ⟨distinct, -⟩ := List.nodup_append.mp (sorts.unique unique)
  obtain ⟨-, distinct, apart⟩ := List.nodup_append.mp distinct
  obtain ⟨row, member, due, stamped⟩ := sorts.exists_later retried
  have same : after.id = row.id := by rw [stamped]
  have tracked : s.job.features.status :=
    (sorts.retryable.resolve_left (List.ne_nil_of_mem member)).2
  refine (Table.find?_write_retried ?_ retried ?_).trans ?_
  · rwa [sorts.retried_ids]
  · rw [sorts.processed_ids, same]
    exact fun finished => apart row.id finished row.id (List.mem_map_of_mem member) rfl
  · simp [Row.modifyStatus, tracked]

theorem find?_commit_later (txn : TransactionId) (t : Table)
    (sorts : d.Sorts s.job approved batch done later left)
    (unique : (batch.map (·.id)).Nodup) (member : row ∈ later) :
    ∃ after ∈ d.retried, row.PutOff after ∧ (s.commit txn d t).rows.find? row.id =
      (t.rows.find? row.id).map fun r => { r with fields := after.fields } := by
  obtain ⟨after, found, off⟩ := sorts.exists_retried member
  have written := find?_commit_retried txn t sorts unique found
  obtain ⟨due, rfl⟩ := off
  exact ⟨_, found, ⟨due, rfl⟩, written⟩

theorem find?_commit_other (sorts : d.Sorts s.job approved batch done later left) {id : ItemId}
    (notDone : id ∉ done.map (·.id)) (notLater : id ∉ later.map (·.id)) :
    (s.commit txn d t).rows.find? id = t.rows.find? id := by
  refine Table.find?_write_other ?_ fun r hr same => notLater ?_
  · rwa [sorts.processed_ids]
  · rw [← sorts.retried_ids]
    exact List.mem_map.mpr ⟨r, hr, same⟩

theorem find?_commit_outside {id : ItemId} (sorted : d.Sorted s.job approved batch)
    (outside : id ∉ batch.map (·.id)) :
    (s.commit txn d t).rows.find? id = t.rows.find? id := by
  obtain ⟨done, later, left, sorts⟩ := sorted
  have within {r} (hr : r ∈ done ++ later) : r.id ∈ batch.map (·.id) :=
    List.mem_map_of_mem (sorts.all.subset (List.mem_append_left left hr))
  refine find?_commit_other sorts (fun finished => ?_) fun off => ?_
  · obtain ⟨r, hr, rfl⟩ := List.mem_map.mp finished
    exact outside (within (List.mem_append_left _ hr))
  · obtain ⟨r, hr, rfl⟩ := List.mem_map.mp off
    exact outside (within (List.mem_append_right _ hr))

end Commit

end Session

end Outbox
