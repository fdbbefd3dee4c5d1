import Outbox.Proofs.Settling

/-!
A tick alone at its table. Step by step it comes to what its decision about the whole batch makes of
the table (`Session.run_performs`), and so it does not matter whether the verdicts come one by one or
all at once (`Job.batched_ends_alike`).
-/

namespace Outbox

namespace Decision

theorem about_accepted (h : Handlers) (job : Job) (now : Instant) (batch : List Row) :
    (about h job now batch).retried = [] ∨ job.worker.lock.supportsRetry := by
  cases lock : job.worker.lock with
  | skipLocked => exact .inr rfl
  | noWait =>
    left
    rw [about_noWait lock]
    rfl

end Decision

/-- What a tick makes of a table that nobody else is at: its report, and the table after it. -/
def Job.perform (job : Job) (h : Handlers) (now : Instant) (t : Table) : TickReport × Table :=
  match t.window? job.features now job.mode job.limit t.nextTransaction with
  | none => ({ status := .empty }, t.begin)
  | some [] => ({ status := .empty }, t.begin.release t.nextTransaction)
  | some batch =>
    let d := Decision.about h job now batch
    (Tick.completed batch.length d,
      ((t.begin.lockAll t.nextTransaction batch).write job.features job.mode.partitioned
        (d.processed.map (·.id)) d.retried).release t.nextTransaction)

/-- The tick has this end however many steps there are for it beyond those that it takes. -/
def Job.EndsWith (job : Job) (h : Handlers) (now : Instant) (t : Table) (report : TickReport)
    (t' : Table) : Prop :=
  ∀ n, job.limit + 2 ≤ n →
    (Session.run (List.replicate n { toHandlers := h, now }) (.start job false) t).1.tick = .ended report ∧
    (Session.run (List.replicate n { toHandlers := h, now }) (.start job false) t).2 = t'

namespace Session

variable {h : Handlers} {job : Job} {now : Instant} {s : Session} {batch : List Row}
  {txn : TransactionId} {report : TickReport}

theorem run_ended (sound : s.Sound) (ended : s.tick = .ended report) (surroundings : List Surroundings)
    (t : Table) : run surroundings s t = (s, t) := by
  induction surroundings with
  | nil => rfl
  | cons w rest ih =>
    have moves := act_moves w.now (w.act s.tick) sound (t := t) fun fetching => nomatch ended.symm.trans fetching
    obtain ⟨same, unchanged⟩ := moves.ended ended
    rw [run, same, unchanged]
    exact ih

theorem run_walks (sound : s.Sound) (opened : s.repository.transaction = some txn)
    (working : s.tick.isWorking) (walks : s.tick.Walks h s.job now batch) (t : Table) {n : Nat}
    (enough : s.tick.remaining s.job.limit ≤ n) :
    run (List.replicate n { toHandlers := h, now }) s t =
      (s.ended (Tick.completed batch.length (.about h s.job now batch)),
        s.commit txn (.about h s.job now batch) t) := by
  induction n generalizing s with
  | zero =>
    cases tick : s.tick with
    | fetching | ended =>
      rw [tick] at working
      cases working
    | _ =>
      rw [tick] at enough
      cases enough
  | succ n ih =>
    have moves := act_moves now (s.tick.asked h none) sound (t := t) fun fetching => by
      rw [fetching] at working
      cases working
    have nearer : _ ≤ n := (moves.remaining_le (Tick.asked_awaited h none)).trans (Nat.sub_le_of_le_add enough)
    have onwards := moves.sound sound
    rw [List.replicate_succ, run]
    obtain ⟨job, repository, tick⟩ := s
    cases tick with
    | fetching | ended => cases working
    -- an answer leaves the table as it is and a shorter walk to the same decision
    | item m d row rest =>
      obtain ⟨walks, -⟩ := Tick.walks_afterItem walks (.inr rfl)
      exact ih onwards opened (afterItem_isWorking ..) walks nearer
    | batch rows => exact ih onwards opened rfl (Tick.walks_afterBatch walks (.inr rfl)) nearer
    | saving m d =>
      obtain ⟨length, decided⟩ : m = batch.length ∧ d = .about h job now batch := walks
      subst length decided
      obtain ⟨completed, committed⟩ :=
        act_save sound rfl opened (Decision.about_accepted h job now batch) now t
      refine (congrArg₂ (run _) completed committed).trans ?_
      exact run_ended (completed ▸ onwards) rfl _ _

theorem run_start (job : Job) (h : Handlers) (now : Instant) (t : Table) {n : Nat}
    (enough : job.limit + 2 ≤ n) : run (List.replicate n { toHandlers := h, now }) (start job false) t =
      ((start job false).ended (job.perform h now t).1, (job.perform h now t).2) := by
  obtain ⟨n, rfl⟩ : ∃ m, n = m + 1 := ⟨n - 1, by omega⟩
  have first := act_start job now t
  unfold Job.perform
  cases window : t.window? job.features now job.mode job.limit t.nextTransaction with
  | none =>
    rw [window] at first
    obtain ⟨emptied, table⟩ := Prod.mk.inj first
    exact (congrArg₂ (run _) emptied table).trans (run_ended ⟨rfl, rfl⟩ rfl _ _)
  | some batch =>
    rw [window] at first
    cases batch with
    | nil =>
      obtain ⟨emptied, table⟩ := Prod.mk.inj first
      exact (congrArg₂ (run _) emptied table).trans (run_ended ⟨rfl, rfl⟩ rfl _ _)
    | cons row rest =>
      obtain ⟨opened, table⟩ := Prod.mk.inj first
      have found : row :: rest ≠ [] := List.cons_ne_nil row rest
      have working : (Tick.afterFetch job (row :: rest)).isWorking := afterFetch_isWorking found
      have sound : ((start job false).opening t.nextTransaction (row :: rest)).Sound := ⟨rfl, working.symm⟩
      have fetched : Move now (start job false) t _ _ _ := .fetched rfl window found
      have nearer := Nat.le_of_lt_succ ((fetched.remaining_lt trivial).trans_le enough)
      refine (congrArg₂ (run _) opened table).trans ?_
      exact run_walks sound rfl working (Tick.walks_afterFetch h job now found).1 _ nearer

theorem run_performs (job : Job) (h : Handlers) (now : Instant) (t : Table) :
    job.EndsWith h now t (job.perform h now t).1 (job.perform h now t).2 := by
  intro n enough
  rw [run_start job h now t enough]
  exact ⟨rfl, rfl⟩

end Session

/-! ### Rows handed out one by one or all at once -/

/-- The worker that treats the queue alike and has its handler answer for a whole batch. -/
def WorkerType.batched : WorkerType → WorkerType
  | .competing | .batchCompeting => .batchCompeting
  | .strictOrdering | .batchStrictOrdering => .batchStrictOrdering

theorem WorkerType.lock_batched (w : WorkerType) : w.batched.lock = w.lock := by cases w <;> rfl

theorem WorkerType.handlerKind_batched (w : WorkerType) : w.batched.handlerKind = .batch := by
  cases w <;> rfl

def Job.batched (job : Job) : Job := { job with worker := job.worker.batched }

namespace Handlers

variable {h : Handlers} {job : Job} {v : ItemId → Verdict} {batch : List Row} {row : Row}

/-- The handler of an item gives the verdict of its id; instead of a retry it may fail. -/
def GivesEach (h : Handlers) (v : ItemId → Verdict) : Prop :=
  ∀ row, h.item row = some (v row.id) ∨ v row.id = .retry ∧ h.item row = none

def GivesMap (h : Handlers) (v : ItemId → Verdict) : Prop :=
  ∀ rows, ∃ b, h.batch rows = some b ∧ b.allProcessed = false ∧
    ∀ row ∈ rows, b.verdicts.lookup row.id = some (v row.id)

def GivesAll (h : Handlers) : Prop := ∀ rows, ∃ b, h.batch rows = some b ∧ b.allProcessed

theorem GivesEach.verdict (gives : h.GivesEach v) (single : job.worker.handlerKind = .item)
    (batch : List Row) (row : Row) : h.verdict? job batch row = some (v row.id) := by
  rw [Tick.verdict?_item single]
  rcases gives row with said | ⟨retry, failed⟩
  · rw [said]
    rfl
  · rw [failed, retry]
    rfl

theorem GivesMap.verdict (gives : h.GivesMap v) (whole : job.worker.handlerKind = .batch)
    (member : row ∈ batch) : h.verdict? job batch row = some (v row.id) := by
  obtain ⟨b, returned, partly, verdicts⟩ := gives batch
  rw [Tick.verdict?_batch whole, returned]
  simp only [Decision.batchVerdict, BatchOutcome.verdict?, partly]
  exact verdicts row member

theorem GivesAll.verdict (gives : h.GivesAll) (whole : job.worker.handlerKind = .batch)
    (batch : List Row) (row : Row) : h.verdict? job batch row = some .ok := by
  obtain ⟨b, returned, fully⟩ := gives batch
  rw [Tick.verdict?_batch whole, returned]
  simp only [Decision.batchVerdict, BatchOutcome.verdict?, fully, if_true]

/-- Handlers of the verdicts, of which the one of an item fails instead of a retry. -/
def saying (v : ItemId → Verdict) : Handlers where
  item row := if v row.id = .retry then none else some (v row.id)
  batch rows := some { verdicts := rows.map fun r => (r.id, v r.id) }

theorem saying_each (v : ItemId → Verdict) : (saying v).GivesEach v := by
  intro row
  by_cases retry : v row.id = .retry
  · exact .inr ⟨retry, if_pos retry⟩
  · exact .inl (if_neg retry)

theorem saying_map (v : ItemId → Verdict) : (saying v).GivesMap v := by
  intro rows
  refine ⟨_, rfl, rfl, ?_⟩
  intro row member
  induction rows with
  | nil => cases member
  | cons r rest ih =>
    rw [List.map_cons, List.lookup_cons]
    by_cases same : row.id = r.id
    · simp [same]
    · have later : row ∈ rest := (List.mem_cons.mp member).resolve_left fun here => same (here ▸ rfl)
      simp only [beq_eq_false_iff_ne.mpr same]
      exact ih later

end Handlers

namespace Decision

variable {h : Handlers} {job : Job} {now : Instant} {batch : List Row}

theorem settle_batched (job : Job) (now : Instant) (d : Decision) (row : Row) (verdict : Option Verdict) :
    d.settle job.batched now row verdict = d.settle job now row verdict := by
  unfold settle
  have lock : job.batched.worker.lock = job.worker.lock := job.worker.lock_batched
  rw [lock]
  rfl

theorem settleAll_batched (job : Job) (now : Instant) (d : Decision) (pairs : List (Row × Option Verdict)) :
    settleAll job.batched now d pairs = settleAll job now d pairs := by
  induction pairs generalizing d with
  | nil => rfl
  | cons pair rest ih => simp only [settleAll, settle_batched, ih]

theorem about_of_verdicts {said : Row → Option Verdict}
    (verdicts : ∀ row ∈ batch, h.verdict? job batch row = said row) (now : Instant) :
    about h job now batch = settleAll job now {} (batch.map fun r => (r, said r)) := by
  unfold about
  congr 1
  apply List.map_congr_left
  intro row member
  rw [verdicts row member]

end Decision

namespace Job

variable {job job' : Job} {h h' : Handlers} {now : Instant} {t : Table}

theorem perform_congr (features : job'.features = job.features) (mode : job'.mode = job.mode)
    (limit : job'.limit = job.limit)
    (same : ∀ batch, Decision.about h' job' now batch = Decision.about h job now batch) :
    job'.perform h' now t = job.perform h now t := by
  simp only [perform, features, mode, limit, same]

theorem mode_batched (job : Job) : job.batched.mode = job.mode :=
  congrArg (Mode.mk · job.options.partitions.enabled) job.worker.lock_batched

theorem ends_alike (same : job'.perform h' now t = job.perform h now t) :
    ∃ report t', job.EndsWith h now t report t' ∧ job'.EndsWith h' now t report t' := by
  have performs := Session.run_performs job' h' now t
  rw [same] at performs
  exact ⟨_, _, Session.run_performs job h now t, performs⟩

theorem batched_ends_alike (single : job.worker.handlerKind = .item) {v : ItemId → Verdict}
    {each whole : Handlers} (eachGives : each.GivesEach v) (wholeGives : whole.GivesMap v) (now : Instant)
    (t : Table) :
    (∃ report t', job.EndsWith each now t report t' ∧ job.batched.EndsWith whole now t report t') ∧
      ∀ all ok, Handlers.GivesAll all → Handlers.GivesMap ok (fun _ => .ok) →
        ∃ report t', job.batched.EndsWith all now t report t' ∧ job.batched.EndsWith ok now t report t' := by
  have batch : job.batched.worker.handlerKind = .batch := job.worker.handlerKind_batched
  constructor
  · have features : job.batched.features = job.features := rfl
    apply ends_alike
    apply perform_congr features job.mode_batched rfl
    intro rows
    rw [Decision.about_of_verdicts (fun _ member => wholeGives.verdict batch member),
      Decision.about_of_verdicts (fun row _ => eachGives.verdict single rows row),
      Decision.settleAll_batched]
  · intro all ok allGives okGives
    apply ends_alike
    apply perform_congr rfl rfl rfl
    intro rows
    rw [Decision.about_of_verdicts (fun _ member => okGives.verdict batch member),
      Decision.about_of_verdicts (fun row _ => allGives.verdict batch rows row)]

def mixed (id : ItemId) : Verdict :=
  if id = .ofNat 1 then .ok else if id = .ofNat 2 then .skip else .retry

/-- A handler that declares all processed in spite of its own verdicts. -/
def sweeping : Handlers where
  item _ := none
  batch rows := some { allProcessed := true, verdicts := rows.map fun r => (r.id, .retry) }

/-- A row is processed, one is put off and one is held elsewhere. -/
theorem batched_ends_alike_mixed : Session.competing.worker.handlerKind = .item ∧
    Handlers.GivesEach (.saying mixed) mixed ∧ Handlers.GivesMap (.saying mixed) mixed ∧
    (∃ report t', Session.competing.EndsWith (.saying mixed) .epoch Session.threeRows report t' ∧
      Session.competing.batched.EndsWith (.saying mixed) .epoch Session.threeRows report t') ∧
    (∃ report t', Session.competing.batched.EndsWith sweeping .epoch Session.threeRows report t' ∧
      Session.competing.batched.EndsWith (.saying fun _ => .ok) .epoch Session.threeRows report t') ∧
    (Session.competing.perform (.saying mixed) .epoch Session.threeRows).1 =
      { fetched := 2, processed := 1, retried := 1, status := .completed } :=
  have each := Handlers.saying_each mixed
  have whole := Handlers.saying_map mixed
  have alike := batched_ends_alike rfl each whole .epoch Session.threeRows
  ⟨rfl, each, whole, alike.1, alike.2 sweeping _ (fun _ => ⟨_, rfl, rfl⟩) (Handlers.saying_map _), by decide⟩

end Job

end Outbox
