import Outbox.Proofs.Ticks

/-!
Conservation of rows. In every run of ticks, inserts and clock changes a row that was inserted is
either still in the table and not completed, or the save of one tick took it out of the queue after a
handler of that tick had said that it went well. From then on no handler has it again
(`conservation`).
-/

namespace Outbox

/-- Stamped as completed, where the type tracks status. -/
def Row.IsCompleted (features : Features) (row : Row) : Prop :=
  features.status ∧ row.fields.status = .completed

instance (features : Features) (row : Row) : Decidable (row.IsCompleted features) :=
  inferInstanceAs (Decidable (_ ∧ _))

namespace Ticks

/-- What may happen in a run: applications insert new rows that are not completed, and ticks are those
of outboxes that were built for the item type, all with or all without partitioning. -/
def Lawful (features : Features) (partitioned : Bool) (s : State) : Event → Prop
  | .insert rows => (rows.map (·.id)).Nodup ∧
      ∀ r ∈ rows, r.id ∉ s.inserted.map (·.id) ∧ ¬ r.IsCompleted features
  | .begin job _ => job.Accepted features ∧ job.options.partitions.enabled = partitioned
  | .clock _ | .act .. => True

inductive Run (features : Features) (partitioned : Bool) (s : State) : State → Prop where
  | refl : Run features partitioned s s
  | step {s' : State} (e : Event) (before : Run features partitioned s s')
      (lawful : Lawful features partitioned s' e) : Run features partitioned s (Ticks.step s' e)

/-- In the table with a status other than completed, and else as it was inserted. -/
def Kept (features : Features) (t : Table) (row : Row) : Prop :=
  ∃ fields, t.rows.find? row.id = some { row with fields } ∧
    ¬ Row.IsCompleted features { row with fields }

/-- Out of the queue: deleted, or stamped completed where done rows stay. -/
def Gone (features : Features) (partitioned : Bool) (t : Table) (row : Row) : Prop :=
  if partitioned then ∃ fields, t.rows.find? row.id = some { row with fields } ∧
    Row.IsCompleted features { row with fields }
  else t.rows.find? row.id = none

/-- The save of tick `i` took the row out of the queue. -/
def Took (s : State) (i : Nat) (id : ItemId) : Prop :=
  ∃ c d, s.courses[i]? = some c ∧ c.saved = some d ∧ id ∈ d.processed.map (·.id)

/-- Tick `i`, and no other, took the row out of the queue, after a handler had approved of it; no
handler has it. -/
structure Finished (features : Features) (partitioned : Bool) (s : State) (row : Row) (i : Nat) :
    Prop where
  took : ∀ j, Took s j row.id ↔ j = i
  approved : ∃ c, s.courses[i]? = some c ∧ ∃ r ∈ c.batch, r.id = row.id ∧ c.Approved r
  gone : Gone features partitioned s.table row
  handled : ∀ c ∈ s.courses, ∀ r ∈ c.session.tick.atHand, r.id ≠ row.id

/-- The invariant that carries conservation from step to step. -/
structure Conserving (features : Features) (partitioned : Bool) (s : State) : Prop where
  sound : Sound [] s
  jobs : ∀ c ∈ s.courses, c.session.job.Accepted features ∧
    c.session.job.options.partitions.enabled = partitioned
  known : ∀ id r, s.table.rows.find? id = some r → id ∈ s.inserted.map (·.id)
  batches : ∀ c ∈ s.courses, ∀ r ∈ c.batch, r.id ∈ s.inserted.map (·.id)
  atWork : ∀ c ∈ s.courses, c.session.tick.isWorking → ∀ r ∈ c.batch, ∀ i, ¬ Took s i r.id
  kept : ∀ row ∈ s.inserted, (∀ i, ¬ Took s i row.id) → Kept features s.table row
  gone : ∀ row ∈ s.inserted, ∀ i, Took s i row.id → Gone features partitioned s.table row
  once : ∀ i j id, Took s i id → Took s j id → i = j

variable {features : Features} {partitioned : Bool} {s s' : State} {i j : Nat} {c c' : Course}
  {t t' : Table} {id : ItemId} {row : Row} {d : Decision}

theorem Kept.congr (kept : Kept features t row) (same : t'.rows.find? row.id = t.rows.find? row.id) :
    Kept features t' row := by
  obtain ⟨fields, found, status⟩ := kept
  exact ⟨fields, same.trans found, status⟩

theorem Gone.congr (gone : Gone features partitioned t row)
    (same : t'.rows.find? row.id = t.rows.find? row.id) : Gone features partitioned t' row := by
  unfold Gone at gone ⊢
  rwa [same]

/-! ### Which tick took a row -/

theorem took_place (at_i : s.courses[i]? = some c) : Took (s.place i c' t') j id ↔
    if j = i then ∃ d, c'.saved = some d ∧ id ∈ d.processed.map (·.id) else Took s j id := by
  obtain ⟨below, -⟩ := List.getElem?_eq_some_iff.mp at_i
  split
  · rename_i same
    subst same
    simp [Took, State.place, List.getElem?_set_self below]
  · rename_i other
    simp [Took, State.place, List.getElem?_set_ne (Ne.symm other)]

theorem took_quiet (at_i : s.courses[i]? = some c) (saved : c'.saved = c.saved) :
    Took (s.place i c' t') j id ↔ Took s j id := by
  rw [took_place at_i]
  split
  · rename_i same
    subst same
    simp [Took, at_i, saved]
  · rfl

theorem took_committed (at_i : s.courses[i]? = some c) (before : c.saved = none)
    (saved : c'.saved = some d) :
    Took (s.place i c' t') j id ↔ Took s j id ∨ j = i ∧ id ∈ d.processed.map (·.id) := by
  rw [took_place at_i]
  split
  · rename_i same
    subst same
    simp [Took, at_i, saved, before]
  · rename_i other
    simp [other]

theorem took_begin (job : Job) (cancelled : Bool) :
    Took (step s (.begin job cancelled)) j id ↔ Took s j id := by
  by_cases below : j < s.courses.length
  · simp [Took, step, List.getElem?_append_left below]
  · have beyond := Nat.le_of_not_lt below
    constructor
    · rintro ⟨c, d, at_j, saved, -⟩
      simp only [step] at at_j
      rw [List.getElem?_append_right beyond] at at_j
      have new := List.mem_singleton.mp (List.mem_of_getElem? at_j)
      subst new
      cases saved
    · rintro ⟨c, d, at_j, -⟩
      rw [List.getElem?_eq_none beyond] at at_j
      cases at_j

/-! ### What a commit does to a row -/

section Commit

variable {session : Session} {approved : Row → Prop} {batch : List Row} {txn : TransactionId}

theorem kept_commit (sorted : d.Sorted session.job approved batch) (unique : (batch.map (·.id)).Nodup)
    (kept : Kept features t row) (undone : row.id ∉ d.processed.map (·.id)) :
    Kept features (session.commit txn d t) row := by
  obtain ⟨fields, found, status⟩ := kept
  obtain ⟨done, later, left, sorts⟩ := sorted
  rw [sorts.processed_ids] at undone
  by_cases off : row.id ∈ later.map (·.id)
  · obtain ⟨r, hr, same⟩ := List.mem_map.mp off
    obtain ⟨-, -, ⟨due, rfl⟩, written⟩ := Session.find?_commit_later txn t sorts unique hr
    rw [same, found] at written
    exact ⟨_, written, fun completed => nomatch completed.2⟩
  · exact ⟨fields, (Session.find?_commit_other sorts undone off).trans found, status⟩

theorem gone_commit (sorted : d.Sorted session.job approved batch) (unique : (batch.map (·.id)).Nodup)
    (accepted : session.job.Accepted features) (kept : Kept features t row)
    (finished : row.id ∈ d.processed.map (·.id)) :
    Gone features session.job.options.partitions.enabled (session.commit txn d t) row := by
  obtain ⟨fields, found, -⟩ := kept
  obtain ⟨done, later, left, sorts⟩ := sorted
  rw [sorts.processed_ids] at finished
  obtain ⟨r, hr, same⟩ := List.mem_map.mp finished
  have written := Session.find?_commit_done txn t sorts unique hr
  rw [same, found, Option.bind_some] at written
  unfold Gone
  split
  · rename_i partitioned
    have tracked := accepted.tracked partitioned
    refine ⟨fields.markCompleted, written.trans ?_, accepted.itemType ▸ tracked, rfl⟩
    simp [Table.leftover, Job.mode, partitioned, Row.modifyStatus, tracked]
  · rename_i plain
    exact written.trans (by simp [Table.leftover, Job.mode, plain])

end Commit

/-! ### One step -/

namespace Conserving

theorem exists_of_took (h : Conserving features partitioned s) (took : Took s i id) :
    ∃ c, s.courses[i]? = some c ∧ ∃ r ∈ c.batch, r.id = id ∧ c.Approved r := by
  obtain ⟨c, d, at_i, saved, member⟩ := took
  have sorted := ((h.sound.courses c (List.mem_of_getElem? at_i)).saved d saved).1
  exact ⟨c, at_i, sorted.exists_of_processed member⟩

theorem known_of_took (h : Conserving features partitioned s) (took : Took s i id) :
    id ∈ s.inserted.map (·.id) := by
  obtain ⟨c, at_i, r, member, rfl, -⟩ := h.exists_of_took took
  exact h.batches c (List.mem_of_getElem? at_i) r member

theorem insert (h : Conserving features partitioned s) {rows : List Row}
    (lawful : Lawful features partitioned s (.insert rows)) :
    Conserving features partitioned (Ticks.step s (.insert rows)) := by
  obtain ⟨unique, fresh⟩ := lawful
  have old : ∀ k ∈ s.inserted.map (·.id), (s.table.insert rows).rows.find? k = s.table.rows.find? k :=
    fun k known => Keyed.find?_foldl_insert_of_ne fun r member same => (fresh r member).1 (same ▸ known)
  have grown : ∀ k ∈ s.inserted.map (·.id), k ∈ (s.inserted ++ rows).map (·.id) := fun k known => by
    rw [List.map_append]
    exact List.mem_append_left _ known
  refine ⟨step_sound h.sound _, h.jobs, ?known, ?batches, h.atWork, ?kept, ?gone, h.once⟩
  case known =>
    intro k r found
    by_cases new : ∃ r ∈ rows, r.id = k
    · obtain ⟨r, member, rfl⟩ := new
      exact List.mem_map_of_mem (List.mem_append_right _ member)
    · have same : (s.table.insert rows).rows.find? k = s.table.rows.find? k :=
        Keyed.find?_foldl_insert_of_ne fun r member same => new ⟨r, member, same⟩
      exact grown k (h.known k r (same ▸ found))
  case batches => exact fun c member r inBatch => grown _ (h.batches c member r inBatch)
  case kept =>
    intro row member untaken
    rcases List.mem_append.mp member with member | new
    · exact (h.kept row member untaken).congr (old _ (List.mem_map_of_mem member))
    · exact ⟨row.fields, Keyed.find?_foldl_insert_of_mem unique new, (fresh row new).2⟩
  case gone =>
    intro row member i took
    have known := h.known_of_took took
    rcases List.mem_append.mp member with member | new
    · exact (h.gone row member i took).congr (old _ known)
    · exact absurd known (fresh row new).1

theorem begin (h : Conserving features partitioned s) {job : Job} {cancelled : Bool}
    (lawful : Lawful features partitioned s (.begin job cancelled)) :
    Conserving features partitioned (Ticks.step s (.begin job cancelled)) := by
  have took {i id} : Took (Ticks.step s (.begin job cancelled)) i id ↔ Took s i id :=
    took_begin job cancelled
  have either {c : Course} (member : c ∈ (Ticks.step s (.begin job cancelled)).courses) :
      c ∈ s.courses ∨ c = { session := .start job cancelled } := by
    rcases List.mem_append.mp member with old | new
    · exact .inl old
    · exact .inr (List.mem_singleton.mp new)
  refine ⟨step_sound h.sound _, ?jobs, h.known, ?batches, ?atWork, ?kept, ?gone, ?once⟩
  case jobs =>
    intro c member
    rcases either member with old | rfl
    · exact h.jobs c old
    · exact lawful
  case batches =>
    intro c member r inBatch
    rcases either member with old | rfl
    · exact h.batches c old r inBatch
    · cases inBatch
  case atWork =>
    intro c member working r inBatch i
    rw [took]
    rcases either member with old | rfl
    · exact h.atWork c old working r inBatch i
    · cases inBatch
  case kept => exact fun row member untaken => h.kept row member fun i taken => untaken i (took.mpr taken)
  case gone => exact fun row member i taken => h.gone row member i (took.mp taken)
  case once => exact fun i j id ti tj => h.once i j id (took.mp ti) (took.mp tj)

theorem quiet (h : Conserving features partitioned s) (at_i : s.courses[i]? = some c)
    (sound : Sound [] (s.place i c' t')) (job : c'.session.job = c.session.job)
    (rows : t'.rows = s.table.rows) (saved : c'.saved = c.saved)
    (batch : ∀ r ∈ c'.batch, r.id ∈ s.inserted.map (·.id))
    (atWork : c'.session.tick.isWorking → ∀ r ∈ c'.batch, ∀ j, ¬ Took s j r.id) :
    Conserving features partitioned (s.place i c' t') := by
  have took {j id} : Took (s.place i c' t') j id ↔ Took s j id := took_quiet at_i saved
  have member := List.mem_of_getElem? at_i
  refine ⟨sound, State.forall_place h.jobs ?jobs, ?known, State.forall_place h.batches batch, ?atWork, ?kept,
    ?gone, ?once⟩
  case jobs =>
    rw [job]
    exact h.jobs c member
  case known => exact fun k r found => h.known k r ((congrArg (·.find? k) rows).symm.trans found)
  case atWork =>
    intro e placed working r inBatch j
    rw [took]
    exact State.forall_place h.atWork atWork e placed working r inBatch j
  case kept =>
    intro row inserted untaken
    exact (h.kept row inserted fun j taken => untaken j (took.mpr taken)).congr
      (congrArg (·.find? row.id) rows)
  case gone =>
    intro row inserted j taken
    exact (h.gone row inserted j (took.mp taken)).congr (congrArg (·.find? row.id) rows)
  case once => exact fun j k id tj tk => h.once j k id (took.mp tj) (took.mp tk)

theorem commit (h : Conserving features partitioned s) (at_i : s.courses[i]? = some c) {n : Nat}
    {txn : TransactionId} (sound : Sound [] (s.place i c' (c.session.commit txn d s.table)))
    (job : c'.session.job = c.session.job) (saving : c.session.tick = .saving n d)
    (saved : c'.saved = some d) (batch : c'.batch = c.batch)
    (ended : c'.session.tick = .ended (Tick.completed n d)) :
    Conserving features partitioned (s.place i c' (c.session.commit txn d s.table)) := by
  have member := List.mem_of_getElem? at_i
  have course := h.sound.courses c member
  obtain ⟨accepted, flag⟩ := h.jobs c member
  have working : c.session.tick.isWorking := by rw [saving]; rfl
  have took {j id} : Took (s.place i c' (c.session.commit txn d s.table)) j id ↔
      Took s j id ∨ j = i ∧ id ∈ d.processed.map (·.id) := took_committed at_i (course.unsaved saving) saved
  have decided := course.decided saving
  -- no row of the batch was taken before
  have untaken {k} (inBatch : k ∈ c.batch.map (·.id)) (j : Nat) : ¬ Took s j k := by
    obtain ⟨r, hr, rfl⟩ := List.mem_map.mp inBatch
    exact h.atWork c member working r hr j
  have processed {k} (done : k ∈ d.processed.map (·.id)) : k ∈ c.batch.map (·.id) := by
    obtain ⟨r, hr, rfl, -⟩ := decided.exists_of_processed done
    exact List.mem_map_of_mem hr
  refine ⟨sound, State.forall_place h.jobs ?jobs, ?known, State.forall_place h.batches ?batches, ?atWork,
    ?kept, ?gone, ?once⟩
  case jobs =>
    rw [job]
    exact h.jobs c member
  case known =>
    intro k r found
    by_cases inBatch : k ∈ c.batch.map (·.id)
    · obtain ⟨r, hr, rfl⟩ := List.mem_map.mp inBatch
      exact h.batches c member r hr
    · exact h.known k r ((Session.find?_commit_outside decided inBatch).symm.trans found)
  case batches =>
    rw [batch]
    exact h.batches c member
  case atWork =>
    intro e placed atWork r inBatch j
    rcases State.of_mem_place placed with rfl | ⟨k, apart, at_k⟩
    · rw [ended] at atWork
      cases atWork
    · rw [took]
      rintro (old | ⟨rfl, new⟩)
      · exact h.atWork e (List.mem_of_getElem? at_k) atWork r inBatch j old
      · exact h.sound.disjoint at_i at_k apart working atWork (processed new)
          (List.mem_map_of_mem inBatch)
  case kept =>
    intro row inserted notTaken
    refine kept_commit decided course.unique (h.kept row inserted fun j old => ?_) fun finished => ?_
    · exact notTaken j (took.mpr (.inl old))
    · exact notTaken i (took.mpr (.inr ⟨rfl, finished⟩))
  case gone =>
    intro row inserted j taken
    rcases took.mp taken with old | ⟨-, finished⟩
    · have outside : row.id ∉ c.batch.map (·.id) := fun inBatch => untaken inBatch j old
      exact (h.gone row inserted j old).congr (Session.find?_commit_outside decided outside)
    · have kept := h.kept row inserted (untaken (processed finished))
      exact flag ▸ gone_commit decided course.unique accepted kept finished
  case once =>
    intro j k id tj tk
    rcases took.mp tj with oldJ | ⟨rfl, newJ⟩ <;> rcases took.mp tk with oldK | ⟨rfl, newK⟩
    · exact h.once j k id oldJ oldK
    · exact absurd oldJ (untaken (processed newK) j)
    · exact absurd oldK (untaken (processed newJ) k)
    · rfl

theorem untaken_of_eligible (h : Conserving features partitioned s)
    (offered : row ∈ s.table.eligible features s.now partitioned) (j : Nat) : ¬ Took s j row.id := by
  intro took
  obtain ⟨found, eligible⟩ := Table.mem_eligible.mp offered
  obtain ⟨original, inserted, same⟩ := List.mem_map.mp (h.known_of_took took)
  rw [← same] at took found
  have gone := h.gone original inserted j took
  unfold Gone at gone
  split at gone
  · rename_i stamped
    obtain ⟨fields, stays, tracked, completed⟩ := gone
    cases found.symm.trans stays
    simp only at completed
    simp [Row.isEligible, Row.status?, tracked, stamped, completed] at eligible
  · cases gone.symm.trans found

theorem act (h : Conserving features partitioned s) (at_i : s.courses[i]? = some c) (a : Act) :
    Conserving features partitioned
      (s.place i (c.act s.now s.table a).1 (c.act s.now s.table a).2) := by
  have member := List.mem_of_getElem? at_i
  have moves := h.sound.moves at_i a
  have sound := step_sound h.sound (.act i a)
  have effect := Course.follow_effect (h.sound.courses c member) moves
  have job : (c.follow a (c.session.act s.now s.table a).1).session.job = c.session.job := moves.job
  obtain ⟨accepted, flag⟩ := h.jobs c member
  rw [step_act at_i] at sound
  simp only [Course.act] at sound ⊢
  generalize c.follow a (c.session.act s.now s.table a).1 = c',
    (c.session.act s.now s.table a).2.1 = t' at effect sound job ⊢
  cases effect with
  | quiet rows saved batch working =>
    refine h.quiet at_i sound job rows saved (batch ▸ h.batches c member) fun atWork => ?_
    rw [batch]
    exact h.atWork c member (working atWork)
  | fetched rows saved window =>
    have offered : ∀ r ∈ c'.batch, r ∈ s.table.eligible features s.now partitioned := fun r inBatch => by
      rw [← accepted.itemType, ← flag]
      exact (Table.window?_some window).1.subset inBatch
    refine h.quiet at_i sound job rows saved (fun r inBatch => ?_) fun _ r inBatch =>
      h.untaken_of_eligible (offered r inBatch)
    exact h.known r.id r (Table.mem_eligible.mp (offered r inBatch)).1
  | committed saving saved batch ended => exact h.commit at_i sound job saving saved batch ended

theorem step (h : Conserving features partitioned s) (e : Event)
    (lawful : Lawful features partitioned s e) : Conserving features partitioned (Ticks.step s e) := by
  cases e with
  | insert rows => exact h.insert lawful
  | clock now => exact ⟨step_sound h.sound _, h.jobs, h.known, h.batches, h.atWork, h.kept, h.gone, h.once⟩
  | begin job cancelled => exact h.begin lawful
  | act i a =>
    cases at_i : s.courses[i]? with
    | some c =>
      rw [step_act at_i]
      exact h.act at_i a
    | none => simpa only [Ticks.step, at_i] using h

theorem start (now : Instant) : Conserving features partitioned { now } where
  sound := ⟨.empty, fun _ member => absurd member List.not_mem_nil⟩
  jobs _ member := absurd member List.not_mem_nil
  known id r found := nomatch (Keyed.find?_empty id).symm.trans found
  batches _ member := absurd member List.not_mem_nil
  atWork _ member := absurd member List.not_mem_nil
  kept _ member := absurd member List.not_mem_nil
  gone _ member := absurd member List.not_mem_nil
  once i j id took := by
    obtain ⟨c, d, at_i, -⟩ := took
    simp at at_i

theorem run (h : Conserving features partitioned s) (reached : Run features partitioned s s') :
    Conserving features partitioned s' := by
  induction reached with
  | refl => exact h
  | step e _ lawful ih => exact ih.step e lawful

end Conserving

/-! ### A whole run -/

theorem took_step (h : Conserving features partitioned s) (e : Event) (took : Took s i id) :
    Took (step s e) i id := by
  cases e with
  | insert | clock => exact took
  | begin job cancelled => exact (took_begin job cancelled).mpr took
  | act j a =>
    cases at_j : s.courses[j]? with
    | none => simpa only [step, at_j] using took
    | some c =>
      have sound := h.sound.courses c (List.mem_of_getElem? at_j)
      have effect := Course.follow_effect sound (h.sound.moves at_j a)
      rw [step_act at_j]
      simp only [Course.act]
      generalize c.follow a (c.session.act s.now s.table a).1 = c',
        (c.session.act s.now s.table a).2.1 = t' at effect ⊢
      cases effect with
      | quiet _ saved | fetched _ saved => exact (took_quiet at_j saved).mpr took
      | committed saving saved =>
        exact (took_committed at_j (sound.unsaved saving) saved).mpr (.inl took)

theorem took_run (h : Conserving features partitioned s) (reached : Run features partitioned s s')
    (took : Took s i id) : Took s' i id := by
  induction reached with
  | refl => exact took
  | step e before _ ih => exact took_step (h.run before) e ih

theorem inserted_run (reached : Run features partitioned s s') (inserted : row ∈ s.inserted) :
    row ∈ s'.inserted := by
  induction reached with
  | refl => exact inserted
  | @step s' e _ _ ih =>
    cases e with
    | insert rows => exact List.mem_append_left _ ih
    | clock | begin => exact ih
    | act j a =>
      simp only [step]
      split <;> exact ih

theorem Conserving.finished (h : Conserving features partitioned s) (inserted : row ∈ s.inserted)
    (took : Took s i row.id) : Finished features partitioned s row i where
  took j := ⟨fun other => h.once j i row.id other took, fun same => same ▸ took⟩
  approved := h.exists_of_took took
  gone := h.gone row inserted i took
  handled c member r atHand same := by
    obtain ⟨working, inBatch⟩ := (h.sound.courses c member).of_mem_atHand atHand
    exact h.atWork c member working r inBatch i (same ▸ took)

/-- No row is lost and no success is repeated: in every state that a run reaches, a row that was
inserted is in the table as before and not completed, or one tick finished it, for good. -/
theorem conservation {now : Instant} (reached : Run features partitioned { now } s)
    (inserted : row ∈ s.inserted) :
    (Kept features s.table row ∧ ∀ i, ¬ Took s i row.id) ∨
      ∃ i, Finished features partitioned s row i ∧
        ∀ s', Run features partitioned s s' → Finished features partitioned s' row i := by
  have conserving := (Conserving.start now).run reached
  by_cases taken : ∃ i, Took s i row.id
  · obtain ⟨i, took⟩ := taken
    refine .inr ⟨i, conserving.finished inserted took, fun s' later => ?_⟩
    exact (conserving.run later).finished (inserted_run later inserted) (took_run conserving later took)
  · have untaken : ∀ i, ¬ Took s i row.id := fun i took => taken ⟨i, took⟩
    exact .inl ⟨conserving.kept row inserted untaken, untaken⟩

def parcel : Row := { id := .ofNat 1, payload := "parcel" }

def strict : Job where
  worker := .strictOrdering
  features := {}
  options := { workerType := .strictOrdering, itemsLimit := 1 }

/-- Two ticks want the same row; the first gets it and completes it. -/
def delivered : State :=
  [.insert [parcel], .begin strict false, .begin strict false, .act 0 (.fetch none), .act 1 (.fetch none),
    .act 0 (.answer (.verdict (some .ok))), .act 0 (.save none)].foldl step { now := .epoch }

theorem conservation_delivered : Run {} false { now := .epoch } delivered ∧
    parcel ∈ delivered.inserted ∧
    ((Kept {} delivered.table parcel ∧ ∀ i, ¬ Took delivered i parcel.id) ∨
      ∃ i, Finished {} false delivered parcel i ∧
        ∀ s', Run {} false delivered s' → Finished {} false s' parcel i) ∧
    Took delivered 0 parcel.id := by
  let plan : Plan :=
    { outbox := "parcels", options := strict.options, hasRepository := true, handler := some .item }
  have accepted : strict.Accepted {} := ⟨rfl, rfl, plan, rfl, _, rfl⟩
  have reached : Run {} false { now := .epoch } delivered := by
    refine .step (.act 0 (.save none)) (.step (.act 0 (.answer (.verdict (some .ok))))
      (.step (.act 1 (.fetch none)) (.step (.act 0 (.fetch none)) (.step (.begin strict false)
        (.step (.begin strict false) (.step (.insert [parcel]) .refl ?_) ?_) ?_) ?_) ?_) ?_) ?_
    · exact ⟨by decide, by decide⟩
    · exact ⟨accepted, rfl⟩
    · exact ⟨accepted, rfl⟩
    all_goals trivial
  have inserted : parcel ∈ delivered.inserted := List.mem_singleton_self parcel
  exact ⟨reached, inserted, conservation reached inserted, ⟨_, _, rfl, rfl, List.mem_singleton_self _⟩⟩

end Ticks

end Outbox
