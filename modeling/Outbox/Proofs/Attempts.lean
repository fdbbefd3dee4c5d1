import Outbox.Proofs.Rescheduling
import Outbox.Proofs.Runs
import Outbox.Proofs.Ticks
import Outbox.Proofs.UnitsOfWork

/-!
The count of failed attempts. A save writes the status of a failed row as the tick read it with its
fetch, so the count is right only because nothing else counts meanwhile: in every run of ticks,
inserts and restarts a row counts exactly the saves that put it off, up to the greatest count, and
what was put off is not fetched before its instant (`attempts_counted`).
-/

namespace Outbox

namespace StatusFields

/-- The failed attempts so far; null is none. -/
def attempts (f : StatusFields) : Int := (f.retryCount.getD 0).toInt

def mostAttempts : Int := Int32.maxValue.toInt

theorem mostAttempts_eq : mostAttempts = 2147483647 := by decide

theorem attempts_le (f : StatusFields) : f.attempts ≤ mostAttempts := by
  have below := Int32.toInt_lt (f.retryCount.getD 0)
  rw [mostAttempts_eq]
  exact Int.le_of_lt_add_one below

theorem attempts_scheduleRetry (f : StatusFields) (after : Instant) :
    (f.scheduleRetry after).attempts = min (f.attempts + 1) mostAttempts := f.toInt_nextCount

theorem attempts_markCompleted (f : StatusFields) : f.markCompleted.attempts = f.attempts := rfl

theorem attempts_restart (f : StatusFields) : f.restart.attempts = f.attempts := rfl

end StatusFields

/-! ### A field of a row's status -/

namespace Table

variable {β : Type} {p : StatusFields → β} {features : Features} {t : Table} {id : ItemId} {x : β}

/-- What a row has in a field of its status, if the row is there. -/
def field? (p : StatusFields → β) (t : Table) (id : ItemId) : Option β :=
  (t.rows.find? id).map (p ·.fields)

theorem isSome_field? : (t.field? p id).isSome = (t.rows.find? id).isSome := Option.isSome_map

theorem field?_congr {t' : Table} (rows : t'.rows = t.rows) : t'.field? p id = t.field? p id := by
  unfold field?
  rw [rows]

theorem field?_insert_of_ne {rows : List Row} (other : ∀ r ∈ rows, r.id ≠ id) :
    (t.insert rows).field? p id = t.field? p id := by
  unfold field? Table.insert
  rw [Keyed.find?_foldl_insert_of_ne other]

theorem field?_insert_of_mem {rows : List Row} {row : Row} (unique : (rows.map (·.id)).Nodup)
    (member : row ∈ rows) : (t.insert rows).field? p row.id = some (p row.fields) := by
  unfold field? Table.insert
  rw [Keyed.find?_foldl_insert_of_mem unique member]
  rfl

theorem field?_restart (keeps : ∀ f, p f.restart = p f) (ids : List ItemId) :
    (t.restart features ids).2.field? p id = t.field? p id := by
  induction ids generalizing t with
  | nil => rfl
  | cons k rest ih =>
    refine ih.trans ?_
    unfold field?
    rw [Keyed.find?_modify _ _ _ _ (Row.id_modifyStatus features _)]
    split
    · rw [Option.map_map]
      refine congrArg (Option.map · _) (funext fun row => ?_)
      simp only [Function.comp_apply, Row.modifyStatus]
      split
      · exact keeps row.fields
      · rfl
    · rfl

theorem field?_restart_of_not_mem {ids : List ItemId} (other : id ∉ ids) :
    (t.restart features ids).2.field? p id = t.field? p id := by
  induction ids generalizing t with
  | nil => rfl
  | cons k rest ih =>
    refine (ih fun member => other (List.mem_cons_of_mem _ member)).trans ?_
    have apart : k ≠ id := fun same => other (same ▸ List.mem_cons_self)
    unfold field?
    rw [Keyed.find?_modify _ _ _ _ (Row.id_modifyStatus features _),
      if_neg (mt Std.LawfulEqOrd.compare_eq_iff_eq.mp apart)]

end Table

namespace Session

variable {β : Type} {p : StatusFields → β} {s : Session} {approved : Row → Prop} {batch : List Row}
  {d : Decision} {t : Table} {id : ItemId} {x : β}

/-- Of the rows that a save does not put off it changes the state alone. -/
theorem field?_commit_of_not_mem (keeps : ∀ f, p f.markCompleted = p f) (txn : TransactionId)
    (sorted : d.Sorted s.job approved batch) (unique : (batch.map (·.id)).Nodup)
    (kept : id ∉ d.retried.map (·.id)) (found : (s.commit txn d t).field? p id = some x) :
    t.field? p id = some x := by
  obtain ⟨done, later, left, sorts⟩ := sorted
  unfold Table.field? at found ⊢
  by_cases finished : id ∈ done.map (·.id)
  · obtain ⟨r, member, rfl⟩ := List.mem_map.mp finished
    rw [find?_commit_done txn t sorts unique member] at found
    cases before : t.rows.find? r.id with
    | none =>
      rw [before] at found
      cases found
    | some row =>
      rw [before, Option.bind_some, Table.leftover] at found
      split at found
      · simp only [Row.modifyStatus] at found
        split at found
        · exact (congrArg some (keeps row.fields)).symm.trans found
        · exact found
      · cases found
  · rw [sorts.retried_ids] at kept
    rwa [find?_commit_other sorts finished kept] at found

theorem field?_commit_outside (sorted : d.Sorted s.job approved batch) {txn : TransactionId}
    (outside : id ∉ batch.map (·.id)) : (s.commit txn d t).field? p id = t.field? p id := by
  unfold Table.field?
  rw [find?_commit_outside sorted outside]

theorem field?_commit_of_mem (p : StatusFields → β) (txn : TransactionId)
    (sorted : d.Sorted s.job approved batch) (unique : (batch.map (·.id)).Nodup) {after : Row}
    (member : after ∈ d.retried) (there : (t.rows.find? after.id).isSome) :
    (s.commit txn d t).field? p after.id = some (p after.fields) := by
  obtain ⟨tracked, -⟩ := sorted.exists_of_retried member
  obtain ⟨done, later, left, sorts⟩ := sorted
  obtain ⟨distinct, -⟩ := List.nodup_append.mp (sorts.unique unique)
  obtain ⟨-, distinct, apart⟩ := List.nodup_append.mp distinct
  have written : (s.commit txn d t).rows.find? after.id =
      (t.rows.find? after.id).map (·.modifyStatus s.job.features fun _ => after.fields) := by
    refine Table.find?_write_retried (sorts.retried_ids ▸ distinct) member fun finished => ?_
    rw [sorts.processed_ids] at finished
    exact apart after.id finished after.id (sorts.retried_ids ▸ List.mem_map_of_mem member) rfl
  obtain ⟨row, before⟩ := Option.isSome_iff_exists.mp there
  simp [Table.field?, written, before, Row.modifyStatus, tracked]

end Session

def Course.putOff (c : Course) : List ItemId :=
  match c.saved with
  | some d => d.retried.map (·.id)
  | none => []

theorem Course.putOff_subset {c : Course} (sound : c.Sound) : ∀ id ∈ c.putOff, id ∈ c.batch.map (·.id) := by
  intro id member
  unfold putOff at member
  split at member
  · rename_i d saved
    obtain ⟨after, retried, rfl⟩ := List.mem_map.mp member
    obtain ⟨-, r, inBatch, due, rfl⟩ := (sound.saved d saved).1.exists_of_retried retried
    exact List.mem_map.mpr ⟨r, inBatch, rfl⟩
  · cases member

namespace Attempts

open Ticks (State)

/-! ### Ticks and restarts on one table -/

inductive Event where
  | ticks (e : Ticks.Event)
  | restart (ids : List ItemId)

def step (features : Features) (s : State) : Event → State
  | .ticks e => Ticks.step s e
  | .restart ids => { s with table := (s.table.restart features ids).2 }

/-- New rows are of ids that were never in the table, and ticks are for its item type. -/
def Lawful (features : Features) (s : State) : Event → Prop
  | .ticks (.insert rows) => (rows.map (·.id)).Nodup ∧ ∀ r ∈ rows, r.id ∉ s.inserted.map (·.id)
  | .ticks (.begin job _) => job.features = features
  | .ticks (.clock _) | .ticks (.act ..) | .restart _ => True

instance decidableLawful (features : Features) (s : State) : (e : Event) → Decidable (Lawful features s e)
  | .ticks (.insert _) => inferInstanceAs (Decidable (_ ∧ _))
  | .ticks (.begin _ _) => inferInstanceAs (Decidable (_ = _))
  | .ticks (.clock _) | .ticks (.act ..) | .restart _ => .isTrue trivial

def postponed (s : State) (id : ItemId) : Nat := s.courses.countP (id ∈ ·.putOff)

/-- In this step a save puts the row off until `after`. -/
def Postpones (features : Features) (s : State) (e : Event) (id : ItemId) (after : Instant) : Prop :=
  ∃ (i : Nat) (c : Course) (d : Decision), (step features s e).courses[i]? = some c ∧ c.saved = some d ∧
    (∀ c', s.courses[i]? = some c' → c'.saved = none) ∧
    ∃ r ∈ d.retried, r.id = id ∧ r.fields.retryAfter = some after

structure Counting (features : Features) (s : State) : Prop where
  sound : Ticks.Sound [] s
  jobs : ∀ c ∈ s.courses, c.session.job.features = features
  known : ∀ id, (s.table.field? (·.attempts) id).isSome → id ∈ s.inserted.map (·.id)
  batches : ∀ c ∈ s.courses, ∀ r ∈ c.batch, r.id ∈ s.inserted.map (·.id)
  /-- Nothing counts for a row while a tick has it. -/
  atWork : ∀ c ∈ s.courses, c.session.tick.isWorking → ∀ r ∈ c.batch,
    s.table.field? (·.attempts) r.id = some r.fields.attempts
  counted : ∀ row ∈ s.inserted, ∀ n, s.table.field? (·.attempts) row.id = some n →
    n = min (row.fields.attempts + postponed s row.id) StatusFields.mostAttempts

variable {features : Features} {s : State} {i : Nat} {c c' : Course} {t' : Table} {id : ItemId}
  {d : Decision} {e : Event}

/-! ### How often a row was put off -/

theorem postponed_place (at_i : s.courses[i]? = some c) (saved : c'.saved = c.saved) :
    postponed (s.place i c' t') id = postponed s id := by
  obtain ⟨below, rfl⟩ := List.getElem?_eq_some_iff.mp at_i
  have same : c'.putOff = s.courses[i].putOff := by simp only [Course.putOff, saved]
  simp only [postponed, State.place, List.countP_set below, same]
  split
  · rename_i off
    have some : 0 < s.courses.countP (id ∈ ·.putOff) :=
      List.countP_pos_iff.mpr ⟨_, List.getElem_mem below, off⟩
    omega
  · rfl

theorem postponed_committed (at_i : s.courses[i]? = some c) (before : c.saved = none)
    (saved : c'.saved = some d) :
    postponed (s.place i c' t') id = postponed s id + if id ∈ d.retried.map (·.id) then 1 else 0 := by
  obtain ⟨below, rfl⟩ := List.getElem?_eq_some_iff.mp at_i
  have none : s.courses[i].putOff = [] := by simp only [Course.putOff, before]
  have some : c'.putOff = d.retried.map (·.id) := by simp only [Course.putOff, saved]
  simp [postponed, State.place, List.countP_set below, none, some]

theorem postponed_begin (job : Job) (cancelled : Bool) :
    postponed (Ticks.step s (.begin job cancelled)) id = postponed s id := by
  simp [postponed, Ticks.step, Course.putOff]

theorem act_cases (h : Ticks.Sound [] s) (i : Nat) (a : Act) :
    Ticks.step s (.act i a) = s ∨ ∃ c c' t', s.courses[i]? = some c ∧ c.Sound ∧
      c'.session.job = c.session.job ∧ Course.Effect s.now c s.table c' t' ∧
      Ticks.step s (.act i a) = s.place i c' t' := by
  cases at_i : s.courses[i]? with
  | none => exact .inl (by simp only [Ticks.step, at_i])
  | some c =>
    have sound := h.courses c (List.mem_of_getElem? at_i)
    have moves := h.moves at_i a
    exact .inr ⟨c, _, _, rfl, sound, moves.job, Course.follow_effect sound moves, Ticks.step_act at_i a⟩

theorem postponed_le (features : Features) (h : Ticks.Sound [] s) (e : Event) (id : ItemId) :
    postponed s id ≤ postponed (step features s e) id := by
  cases e with
  | restart ids => exact Nat.le_refl _
  | ticks e =>
    cases e with
    | insert | clock => exact Nat.le_refl _
    | begin job cancelled => exact (postponed_begin job cancelled).ge
    | act i a =>
      rcases act_cases h i a with idle | ⟨c, c', t', at_i, sound, _, effect, moved⟩
      · exact (congrArg (postponed · id) idle).ge
      · simp only [step, moved]
        cases effect with
        | quiet _ saved | fetched _ saved => exact (postponed_place at_i saved).ge
        | committed saving saved =>
          rw [postponed_committed at_i (sound.unsaved saving) saved]
          exact Nat.le_add_right _ _

/-! ### One step -/

namespace Counting

theorem postponed_fresh (h : Counting features s) (fresh : id ∉ s.inserted.map (·.id)) :
    postponed s id = 0 := by
  refine List.countP_eq_zero.mpr fun c member off => fresh ?_
  obtain ⟨r, inBatch, rfl⟩ := List.mem_map.mp
    (Course.putOff_subset (h.sound.courses c member) id (of_decide_eq_true off))
  exact h.batches c member r inBatch

theorem insert (h : Counting features s) {rows : List Row}
    (lawful : Lawful features s (.ticks (.insert rows))) :
    Counting features (Ticks.step s (.insert rows)) := by
  obtain ⟨unique, fresh⟩ := lawful
  have old {id} (known : id ∈ s.inserted.map (·.id)) :
      (s.table.insert rows).field? (·.attempts) id = s.table.field? (·.attempts) id :=
    Table.field?_insert_of_ne fun r member same => fresh r member (same ▸ known)
  have grown {id} (known : id ∈ s.inserted.map (·.id)) : id ∈ (s.inserted ++ rows).map (·.id) := by
    rw [List.map_append]
    exact List.mem_append_left _ known
  refine ⟨Ticks.step_sound h.sound _, h.jobs, ?known, ?batches, ?atWork, ?counted⟩
  case known =>
    intro id there
    by_cases new : ∃ r ∈ rows, r.id = id
    · obtain ⟨r, member, rfl⟩ := new
      exact List.mem_map_of_mem (List.mem_append_right _ member)
    · have same : (s.table.insert rows).field? (·.attempts) id = s.table.field? (·.attempts) id :=
        Table.field?_insert_of_ne fun r member same => new ⟨r, member, same⟩
      exact grown (h.known id (same ▸ there))
  case batches => exact fun c member r inBatch => grown (h.batches c member r inBatch)
  case atWork =>
    exact fun c member working r inBatch =>
      (old (h.batches c member r inBatch)).trans (h.atWork c member working r inBatch)
  case counted =>
    intro row member n found
    rcases List.mem_append.mp member with before | new
    · exact h.counted row before n ((old (List.mem_map_of_mem before)).symm.trans found)
    · -- no save so far was about a row that is new
      have none : postponed (Ticks.step s (.insert rows)) row.id = 0 := h.postponed_fresh (fresh row new)
      cases (Table.field?_insert_of_mem unique new).symm.trans found
      have bounded := row.fields.attempts_le
      rw [none]
      omega

theorem begin (h : Counting features s) {job : Job} {cancelled : Bool}
    (lawful : Lawful features s (.ticks (.begin job cancelled))) :
    Counting features (Ticks.step s (.begin job cancelled)) := by
  have forall_begin {P : Course → Prop} (old : ∀ c ∈ s.courses, P c)
      (new : P { session := .start job cancelled }) :
      ∀ c ∈ (Ticks.step s (.begin job cancelled)).courses, P c := by
    intro c member
    rcases List.mem_append.mp member with before | last
    · exact old c before
    · exact List.mem_singleton.mp last ▸ new
  refine ⟨Ticks.step_sound h.sound _, forall_begin h.jobs lawful, h.known,
    forall_begin h.batches fun r inBatch => absurd inBatch List.not_mem_nil,
    forall_begin h.atWork fun _ r inBatch => absurd inBatch List.not_mem_nil, ?_⟩
  intro row member n found
  rw [postponed_begin]
  exact h.counted row member n found

theorem restart (h : Counting features s) (ids : List ItemId) :
    Counting features (step features s (.restart ids)) := by
  have same {id} : (s.table.restart features ids).2.field? (·.attempts) id =
      s.table.field? (·.attempts) id := Table.field?_restart StatusFields.attempts_restart ids
  have locks : (s.table.restart features ids).2.locks = s.table.locks ∧
      (s.table.restart features ids).2.nextTransaction = s.table.nextTransaction := Table.restart_locks ids
  exact ⟨⟨h.sound.locks.congr locks.1 locks.2, h.sound.courses⟩, h.jobs,
    fun id there => h.known id (same ▸ there), h.batches,
    fun c member working r inBatch => same.trans (h.atWork c member working r inBatch),
    fun row member n found => h.counted row member n (same.symm.trans found)⟩

theorem quiet (h : Counting features s) (at_i : s.courses[i]? = some c)
    (sound : Ticks.Sound [] (s.place i c' t')) (job : c'.session.job = c.session.job)
    (rows : t'.rows = s.table.rows) (saved : c'.saved = c.saved)
    (atWork : c'.session.tick.isWorking → ∀ r ∈ c'.batch,
      s.table.field? (·.attempts) r.id = some r.fields.attempts)
    (batch : ∀ r ∈ c'.batch, r.id ∈ s.inserted.map (·.id)) :
    Counting features (s.place i c' t') := by
  have same {id} : t'.field? (·.attempts) id = s.table.field? (·.attempts) id := Table.field?_congr rows
  have job : c'.session.job.features = features :=
    (congrArg _ job).trans (h.jobs c (List.mem_of_getElem? at_i))
  refine ⟨sound, Ticks.State.forall_place h.jobs job, fun id there => h.known id (same ▸ there),
    Ticks.State.forall_place h.batches batch, ?atWork, ?counted⟩
  case atWork =>
    intro e placed working r inBatch
    exact same.trans (Ticks.State.forall_place h.atWork atWork e placed working r inBatch)
  case counted =>
    intro row member n found
    rw [postponed_place at_i saved]
    exact h.counted row member n (same.symm.trans found)

theorem commit (h : Counting features s) (at_i : s.courses[i]? = some c) {n : Nat}
    {txn : TransactionId} (sound : Ticks.Sound [] (s.place i c' (c.session.commit txn d s.table)))
    (job : c'.session.job = c.session.job) (saving : c.session.tick = .saving n d)
    (saved : c'.saved = some d) (batch : c'.batch = c.batch)
    (ended : c'.session.tick = .ended (Tick.completed n d)) :
    Counting features (s.place i c' (c.session.commit txn d s.table)) := by
  have member := List.mem_of_getElem? at_i
  have course := h.sound.courses c member
  have working : c.session.tick.isWorking := by rw [saving]; rfl
  have sorted := course.decided saving
  have job : c'.session.job.features = features := (congrArg _ job).trans (h.jobs c member)
  refine ⟨sound, Ticks.State.forall_place h.jobs job, ?known,
    Ticks.State.forall_place h.batches (batch ▸ h.batches c member), ?atWork, ?counted⟩
  case known =>
    intro id there
    by_cases inBatch : id ∈ c.batch.map (·.id)
    · obtain ⟨r, hr, rfl⟩ := List.mem_map.mp inBatch
      exact h.batches c member r hr
    · exact h.known id (Session.field?_commit_outside sorted inBatch ▸ there)
  case atWork =>
    intro e placed atWork r inBatch
    rcases Ticks.State.of_mem_place placed with rfl | ⟨k, apart, at_k⟩
    · rw [ended] at atWork
      cases atWork
    · -- the batches of two ticks at work have nothing in common
      have outside : r.id ∉ c.batch.map (·.id) := fun taken =>
        h.sound.disjoint at_i at_k apart working atWork taken (List.mem_map_of_mem inBatch)
      exact (Session.field?_commit_outside sorted outside).trans
        (h.atWork e (List.mem_of_getElem? at_k) atWork r inBatch)
  case counted =>
    intro row inserted m found
    rw [postponed_committed at_i (course.unsaved saving) saved]
    split
    · rename_i off
      obtain ⟨after, retried, same⟩ := List.mem_map.mp off
      obtain ⟨-, r, inBatch, due, rfl⟩ := sorted.exists_of_retried retried
      -- the tick counts on from what the table has
      have before := h.atWork c member working r inBatch
      have counted := h.counted row inserted _ (same ▸ before)
      have written := Session.field?_commit_of_mem (·.attempts) txn sorted course.unique retried
        (Table.isSome_field?.symm.trans (Option.isSome_of_eq_some before))
      rw [← same] at found
      cases written.symm.trans found
      rw [StatusFields.attempts_scheduleRetry, counted]
      omega
    · rename_i kept
      exact h.counted row inserted m
        (Session.field?_commit_of_not_mem StatusFields.attempts_markCompleted txn sorted course.unique kept found)

theorem act (h : Counting features s) (i : Nat) (a : Act) : Counting features (Ticks.step s (.act i a)) := by
  have after := Ticks.step_sound h.sound (.act i a)
  rcases act_cases h.sound i a with idle | ⟨c, c', t', at_i, sound, job, effect, moved⟩
  · rw [idle]
    exact h
  · rw [moved] at after ⊢
    have member := List.mem_of_getElem? at_i
    cases effect with
    | quiet rows saved batch working =>
      refine h.quiet at_i after job rows saved (fun atWork => ?_) (batch ▸ h.batches c member)
      rw [batch]
      exact h.atWork c member (working atWork)
    | fetched rows saved window =>
      have found : ∀ r ∈ c'.batch, s.table.rows.find? r.id = some r := fun r inBatch =>
        (Table.mem_eligible.mp ((Table.window?_some window).1.subset inBatch)).1
      have there : ∀ r ∈ c'.batch, s.table.field? (·.attempts) r.id = some r.fields.attempts := by
        intro r inBatch
        unfold Table.field?
        rw [found r inBatch]
        rfl
      exact h.quiet at_i after job rows saved (fun _ => there) fun r inBatch =>
        h.known r.id (Option.isSome_of_eq_some (there r inBatch))
    | committed saving saved batch ended => exact h.commit at_i after job saving saved batch ended

theorem step (h : Counting features s) (e : Event) (lawful : Lawful features s e) :
    Counting features (step features s e) := by
  cases e with
  | restart ids => exact h.restart ids
  | ticks e =>
    cases e with
    | insert rows => exact h.insert lawful
    | clock now => exact ⟨Ticks.step_sound h.sound (.clock now), h.jobs, h.known, h.batches, h.atWork, h.counted⟩
    | begin job cancelled => exact h.begin lawful
    | act i a => exact h.act i a

theorem start (features : Features) (now : Instant) : Counting features { now } where
  sound := ⟨.empty, fun _ member => absurd member List.not_mem_nil⟩
  jobs _ member := absurd member List.not_mem_nil
  known _ there := nomatch there
  batches _ member := absurd member List.not_mem_nil
  atWork _ member := absurd member List.not_mem_nil
  counted _ member := absurd member List.not_mem_nil

end Counting

/-! ### Rows that wait -/

/-- If the row is in the table, it waits until `after`. -/
structure Waits (features : Features) (id : ItemId) (after : Instant) (s : State) : Prop where
  counting : Counting features s
  tracked : features.status
  known : id ∈ s.inserted.map (·.id)
  waits : ∀ due, s.table.field? (·.retryAfter) id = some due → due = some after

theorem Counting.postpones (h : Counting features s) (lawful : Lawful features s e) {after : Instant}
    (off : Postpones features s e id after) : Waits features id after (Attempts.step features s e) := by
  have counting := h.step e lawful
  obtain ⟨i, e', d, at_i, saved, unsaved, row, retried, rfl, due⟩ := off
  -- a tick that has not changed saved nothing
  have changed : s.courses[i]? ≠ some e' := fun old => by
    cases (unsaved e' old).symm.trans saved
  cases e with
  | restart ids => exact absurd at_i changed
  | ticks e =>
    cases e with
    | insert | clock => exact absurd at_i changed
    | begin job cancelled =>
      by_cases below : i < s.courses.length
      · exact absurd ((List.getElem?_append_left below).symm.trans at_i) changed
      · have new := List.mem_of_getElem? ((List.getElem?_append_right (Nat.le_of_not_lt below)).symm.trans at_i)
        rw [List.mem_singleton.mp new] at saved
        cases saved
    | act k a =>
      rcases act_cases h.sound k a with idle | ⟨c, c', t', at_k, sound, _, effect, moved⟩
      · simp only [Attempts.step, idle] at at_i
        exact absurd at_i changed
      · simp only [Attempts.step, moved] at counting at_i ⊢
        rcases Ticks.getElem?_place at_i with ⟨rfl, rfl⟩ | ⟨_, old⟩
        · cases effect with
          | quiet _ same | fetched _ same =>
            cases (same.trans (unsaved c at_k)).symm.trans saved
          | @committed _ _ txn saving same =>
            cases same.symm.trans saved
            have member := List.mem_of_getElem? at_k
            obtain ⟨tracked, r, inBatch, due', rfl⟩ := (sound.decided saving).exists_of_retried retried
            have before := h.atWork c member (by rw [saving]; rfl) r inBatch
            refine ⟨counting, h.jobs c member ▸ tracked, h.batches c member r inBatch, fun due'' found => ?_⟩
            have written := Session.field?_commit_of_mem (·.retryAfter) txn (sound.decided saving) sound.unique
              retried (Table.isSome_field?.symm.trans (Option.isSome_of_eq_some before))
            exact (Option.some.inj (written.symm.trans found)).symm.trans due
        · exact absurd old changed

/-- A row waits until a save puts it off again or an operator puts it back. -/
theorem Waits.step {after : Instant} (h : Waits features id after s) (e : Event) (lawful : Lawful features s e)
    (kept : postponed (Attempts.step features s e) id = postponed s id)
    (left : ∀ ids, e = .restart ids → id ∉ ids) : Waits features id after (Attempts.step features s e) := by
  have counting := h.counting.step e lawful
  cases e with
  | restart ids =>
    have same : (s.table.restart features ids).2.field? (·.retryAfter) id =
        s.table.field? (·.retryAfter) id := Table.field?_restart_of_not_mem (left ids rfl)
    exact ⟨counting, h.tracked, h.known, fun due found => h.waits due (same.symm.trans found)⟩
  | ticks e =>
    cases e with
    | insert rows =>
      have same : (s.table.insert rows).field? (·.retryAfter) id = s.table.field? (·.retryAfter) id :=
        Table.field?_insert_of_ne fun r member same => lawful.2 r member (same ▸ h.known)
      refine ⟨counting, h.tracked, ?_, fun due found => h.waits due (same.symm.trans found)⟩
      simp only [Attempts.step, Ticks.step, List.map_append]
      exact List.mem_append_left _ h.known
    | clock | begin => exact ⟨counting, h.tracked, h.known, h.waits⟩
    | act i a =>
      rcases act_cases h.counting.sound i a with idle | ⟨c, c', t', at_i, sound, _, effect, moved⟩
      · simp only [Attempts.step, idle]
        exact h
      · simp only [Attempts.step, moved] at counting kept ⊢
        refine ⟨counting, h.tracked, h.known, fun due found => h.waits due ?_⟩
        cases effect with
        | quiet rows | fetched rows => exact (Table.field?_congr rows).symm.trans found
        | committed saving saved =>
          rw [postponed_committed at_i (sound.unsaved saving) saved] at kept
          split at kept
          · -- another save that puts the row off would have counted
            omega
          · rename_i other
            exact Session.field?_commit_of_not_mem (fun _ => rfl) _ (sound.decided saving) sound.unique other
              found

theorem Waits.not_fetched {after now : Instant} (h : Waits features id after s) (early : now < after)
    (r : Repository) (limit : Nat) {rows : List Row}
    (fetched : (r.fetch features now limit s.table).1 = .ok rows) : ∀ row ∈ rows, row.id ≠ id := by
  rintro row member rfl
  rcases r.fetch_cases features now limit s.table with
    ⟨_, _, eq⟩ | ⟨_, _, eq⟩ | ⟨_, _, window, eq⟩ <;> rw [eq] at fetched <;> cases fetched
  · cases member
  · obtain ⟨found, eligible⟩ := Table.mem_eligible.mp ((Table.window?_some window).1.subset member)
    have due : row.fields.retryAfter = some after :=
      h.waits row.fields.retryAfter (by unfold Table.field?; rw [found]; rfl)
    simp only [Row.isEligible, Row.status?, h.tracked, if_true, StatusFields.isDue, due, Bool.and_eq_true,
      decide_eq_true_eq] at eligible
    exact Instant.not_le_of_lt early eligible.1

/-! ### A whole run -/

variable {events later : List Event}

theorem Counting.run (h : Counting features s) (lawful : Along (Attempts.step features) (Lawful features) s events) :
    Counting features (events.foldl (Attempts.step features) s) :=
  foldl_invariant (fun _ e h lawful => h.step e lawful) h lawful

theorem Counting.postponed_le (h : Counting features s)
    (lawful : Along (Attempts.step features) (Lawful features) s events) (id : ItemId) :
    postponed s id ≤ postponed (events.foldl (Attempts.step features) s) id := by
  induction events generalizing s with
  | nil => exact Nat.le_refl _
  | cons e rest ih => exact (Attempts.postponed_le features h.sound e id).trans (ih (h.step e lawful.1) lawful.2)

theorem Waits.run {after : Instant} (h : Waits features id after s)
    (lawful : Along (Attempts.step features) (Lawful features) s later)
    (kept : postponed (later.foldl (Attempts.step features) s) id = postponed s id)
    (left : ∀ ids, .restart ids ∈ later → id ∉ ids) :
    Waits features id after (later.foldl (Attempts.step features) s) := by
  induction later generalizing s with
  | nil => exact h
  | cons e rest ih =>
    -- the count of saves only grows, so it stays what it is at each step
    have first := postponed_le features h.counting.sound e id
    have others := (h.counting.step e lawful.1).postponed_le lawful.2 id
    rw [List.foldl_cons] at kept ⊢
    have still : postponed (Attempts.step features s e) id = postponed s id := by omega
    exact ih (h.step e lawful.1 still fun ids same => left ids (same ▸ List.mem_cons_self)) lawful.2
      (kept.trans still.symm) fun ids member => left ids (List.mem_cons_of_mem _ member)

theorem inserted_step (features : Features) (e : Event) : s.inserted ⊆ (step features s e).inserted := by
  cases e with
  | restart ids => exact fun _ member => member
  | ticks e =>
    cases e with
    | insert rows => exact List.subset_append_left ..
    | clock | begin => exact fun _ member => member
    | act i a =>
      simp only [step, Ticks.step]
      split <;> exact fun _ member => member

theorem inserted_run (features : Features) (events : List Event) :
    s.inserted ⊆ (events.foldl (step features) s).inserted := by
  induction events generalizing s with
  | nil => exact fun _ member => member
  | cons e rest ih => exact List.Subset.trans (inserted_step features e) ih

/-- In every state that a run reaches each row counts its saved failures on from its first count, up to
the greatest count, and no later step lowers a count. A row that a save puts off is not fetched before
its instant, as long as no other save puts it off and no operator puts it back. -/
theorem attempts_counted {now : Instant}
    (lawful : Along (step features) (Lawful features) { now } events) :
    let s := events.foldl (step features) { now }
    (∀ row ∈ s.inserted, ∀ n, s.table.field? (·.attempts) row.id = some n →
      n = min (row.fields.attempts + postponed s row.id) StatusFields.mostAttempts) ∧
    (∀ later, Along (step features) (Lawful features) s later → ∀ id n m,
      s.table.field? (·.attempts) id = some n →
      (later.foldl (step features) s).table.field? (·.attempts) id = some m → n ≤ m) ∧
    ∀ e id after later, Postpones features s e id after →
      Along (step features) (Lawful features) s (e :: later) →
      postponed (later.foldl (step features) (step features s e)) id = postponed (step features s e) id →
      (∀ ids, .restart ids ∈ later → id ∉ ids) →
      ∀ (r : Repository) (limit : Nat) (now : Instant) (rows : List Row), now < after →
        (r.fetch features now limit (later.foldl (step features) (step features s e)).table).1 = .ok rows →
        ∀ row ∈ rows, row.id ≠ id := by
  intro s
  have counting : Counting features s := (Counting.start features now).run lawful
  refine ⟨counting.counted, fun later lawful id n m before after => ?_, ?_⟩
  · obtain ⟨row, inserted, rfl⟩ := List.mem_map.mp (counting.known id (Option.isSome_of_eq_some before))
    have grown := counting.postponed_le lawful row.id
    have first := counting.counted row inserted n before
    have last := (counting.run lawful).counted row (inserted_run features later inserted) m after
    omega
  · intro e id after later off lawful kept left r limit now rows early fetched
    have waits := (counting.postpones lawful.1 off).run lawful.2 kept left
    exact waits.not_fetched early r limit fetched

def parcel : Row := { id := .ofNat 1, payload := "parcel", fields := { retryCount := some 4 } }

def eager : Job where
  worker := .competing
  features := { status := true }
  options := { retry := { policy := .constant } }

def attempt (tick : Nat) : List Event :=
  [.ticks (.begin eager false), .ticks (.act tick (.fetch none)),
    .ticks (.act tick (.answer (.verdict (some .retry))))]

/-- A tick that is given up, then one that is about to save; an operator comes in between. -/
def failing : List Event :=
  .ticks (.insert [parcel]) :: attempt 0 ++ [.ticks (.act 0 .cancel)] ++ attempt 1 ++ [.restart [parcel.id]]

def failed : State := failing.foldl (step eager.features) { now := .epoch }

def saving : Event := .ticks (.act 1 (.save none))

def threeSeconds : Instant := (Instant.epoch.plus? eager.options.retry.delay).getD .last

theorem attempts_counted_parcel :
    Along (step eager.features) (Lawful eager.features) { now := .epoch } failing ∧
    failed.table.field? (·.attempts) parcel.id = some 4 ∧
    Along (step eager.features) (Lawful eager.features) failed (saving :: attempt 2) ∧
    Postpones eager.features failed saving parcel.id threeSeconds ∧
    ((attempt 2).foldl (step eager.features) (step eager.features failed saving)).table.field? (·.attempts)
      parcel.id = some 5 ∧
    ∀ (r : Repository) (limit : Nat) (rows : List Row),
      (r.fetch eager.features .epoch limit
        ((attempt 2).foldl (step eager.features) (step eager.features failed saving)).table).1 = .ok rows →
      ∀ row ∈ rows, row.id ≠ parcel.id := by
  have lawful : Along (step eager.features) (Lawful eager.features) { now := .epoch } failing := by decide
  have later : Along (step eager.features) (Lawful eager.features) failed (saving :: attempt 2) := by decide
  have postpones : Postpones eager.features failed saving parcel.id threeSeconds := by
    refine ⟨1, _, _, rfl, rfl, fun c' before => ?_, _, List.mem_singleton_self _, rfl, rfl⟩
    cases before
    rfl
  have waits := (attempts_counted lawful).2.2 saving parcel.id threeSeconds (attempt 2) postpones later
    (by decide) fun ids member => by simp [attempt] at member
  exact ⟨lawful, by decide, later, postpones, by decide,
    fun r limit rows fetched => waits r limit .epoch rows (by decide) fetched⟩

end Attempts

end Outbox
