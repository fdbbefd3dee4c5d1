import Outbox.Proofs.Atomicity
import Outbox.Proofs.Conservation
import Outbox.Proofs.Runs

/-!
An outbox in service. Its options are replaced and its table is changed while ticks are under way.
What was checked when it was built, and what is checked of each replacement, holds for all of its
ticks, so none of them fails late (`holds_good`).
-/

namespace Outbox

/-- Whether nothing was made to fail in the act. -/
def Act.Faultless : Act → Prop
  | .fetch (some _) | .save (some _) => False
  | _ => True

theorem Act.Faultless.gaveUp {a : Act} {status : TickStatus} (h : a.Faultless)
    (gaveUp : a.gaveUp? = some status) : status ≠ .failed := by
  unfold gaveUp? at gaveUp
  split at gaveUp
  · cases h
  · cases h
  · cases gaveUp
    decide
  · cases gaveUp

theorem Decision.Sorted.retried_of_noWait {job : Job} {approved : Row → Prop} {seen : List Row}
    {d : Decision} (h : d.Sorted job approved seen) (strict : job.worker.lock = .noWait) :
    d.retried = [] := by
  obtain ⟨done, later, left, sorts⟩ := h
  have none : later = [] := sorts.retryable.resolve_right fun retries => by
    cases strict.symm.trans retries.1
  have pairs := sorts.retried
  rw [none] at pairs
  exact List.forall₂_nil_left_iff.mp pairs

theorem Job.reschedule_ne_unsupported {job : Job} (tracked : job.features.status) (now : Instant)
    (row : Row) : job.reschedule now row ≠ .unsupported := by
  simp only [Job.reschedule, Outbox.reschedule, tracked]
  simp only [Bool.not_true, Bool.false_eq_true, if_false]
  split <;> nofun

namespace Service

structure State where
  features : Features
  worker : WorkerType
  live : LiveOptions
  ticks : Ticks.State

inductive Event where
  | update (o : Options)
  | modify (edit : Options → Options)
  /-- A tick begins with the options in force. -/
  | process (jitter : Option (ItemId → Fin RetrySettings.maxJitter)) (cancelled : Bool)
  | act (tick : Nat) (a : Act)
  | clock (now : Instant)
  /-- What others make of the table: applications, operators and other workers. -/
  | change (t : Table)

/-- No step of a tick is made to fail, and whoever holds rows of the table has begun a transaction. -/
def Event.Harmless : Event → Prop
  | .act _ a => a.Faultless
  | .change t => t.Begun
  | _ => True

/-- The options that are put forward while others are in force. -/
def Event.proposal? (current : Options) : Event → Option Options
  | .update o => some o
  | .modify edit => some (edit current)
  | _ => none

def State.job (jitter : Option (ItemId → Fin RetrySettings.maxJitter)) (s : State) : Job where
  worker := s.worker
  features := s.features
  options := s.live.current
  jitter

/-- Other options are published if they are admitted. -/
def State.replace (o : Options) (s : State) : State :=
  match s.live.update o with
  | .ok live => { s with live }
  | .error _ => s

def step (s : State) : Event → State
  | .update o => s.replace o
  | .modify edit => s.replace (edit s.live.current)
  | .process jitter cancelled => { s with ticks := Ticks.step s.ticks (.begin (s.job jitter) cancelled) }
  | .act i a => { s with ticks := Ticks.step s.ticks (.act i a) }
  | .clock now => { s with ticks := Ticks.step s.ticks (.clock now) }
  | .change table => { s with ticks := { s.ticks with table } }

def start (features : Features) (p : Plan) (r : Registration) (now : Instant) (table : Table) : State where
  features
  worker := p.options.workerType
  live := r.options
  ticks := { now, table }

/-- What holds of the options of an outbox for as long as it is in service. -/
structure Legal (p : Plan) (o : Options) : Prop where
  faultless : o.fault? = none
  worker : o.workerType = p.options.workerType
  partitions : o.partitions.enabled = p.options.partitions.enabled

structure Own (features : Features) (p : Plan) (c : Course) : Prop where
  sound : c.Sound
  short : c.batch.length ≤ c.session.job.limit
  worker : c.session.job.worker = p.options.workerType
  itemType : c.session.job.features = features
  options : Legal p c.session.job.options
  notFailed : ∀ report, c.session.tick = .ended report → report.status ≠ .failed

structure Serving (features : Features) (p : Plan) (s : State) : Prop where
  itemType : s.features = features
  worker : s.worker = p.options.workerType
  options : Legal p s.live.current
  begun : s.ticks.table.Begun
  courses : ∀ c ∈ s.ticks.courses, Own features p c

variable {features : Features} {p : Plan} {r : Registration} {s : State} {o : Options} {c : Course}
  {e : Event} {events later : List Event}

/-! ### Options -/

theorem Legal.admits_iff (h : Legal p s.live.current) : s.live.Admits o ↔ Legal p o :=
  ⟨fun admits => ⟨admits.faultless, admits.worker.trans h.worker, admits.partitions.trans h.partitions⟩,
    fun legal => ⟨legal.faultless, legal.worker.trans h.worker.symm,
      legal.partitions.trans h.partitions.symm⟩⟩

theorem replace_of_legal (h : Legal p s.live.current) (legal : Legal p o) :
    s.replace o = { s with live := s.live.publish o } := by
  unfold State.replace
  rw [LiveOptions.update_of_admits (h.admits_iff.mpr legal)]

theorem replace_of_not_legal (h : Legal p s.live.current) (illegal : ¬ Legal p o) :
    (∃ e, s.live.update o = .error e) ∧ s.replace o = s := by
  obtain ⟨e, refused⟩ := LiveOptions.update_of_not_admits fun admits => illegal (h.admits_iff.mp admits)
  refine ⟨⟨e, refused⟩, ?_⟩
  unfold State.replace
  rw [refused]

theorem step_of_proposal (proposed : e.proposal? s.live.current = some o) : step s e = s.replace o := by
  cases e <;> cases proposed <;> rfl

theorem live_step (quiet : e.proposal? s.live.current = none) : (step s e).live = s.live := by
  cases e with
  | update | modify => cases quiet
  | _ => rfl

theorem live_run (quiet : ∀ e ∈ later, e.proposal? s.live.current = none) :
    (later.foldl step s).live = s.live := by
  induction later generalizing s with
  | nil => rfl
  | cons e rest ih =>
    have first := live_step (quiet e List.mem_cons_self)
    rw [List.foldl_cons, ← first]
    exact ih fun e member => first ▸ quiet e (List.mem_cons_of_mem _ member)

/-! ### Ticks -/

theorem Own.begin (h : Serving features p s) (jitter : Option (ItemId → Fin RetrySettings.maxJitter))
    (cancelled : Bool) : Own features p { session := .start (s.job jitter) cancelled } where
  sound := Ticks.begin_sound _ _
  short := Nat.zero_le _
  worker := h.worker
  itemType := h.itemType
  options := h.options
  notFailed report ended := by
    cases cancelled <;> cases ended
    decide

/-- The repository takes the rows that are put off: a strict worker never has any. -/
theorem Own.supported {n : Nat} {d : Decision} (own : Own features p c) (saving : c.session.tick = .saving n d)
    (retries : d.retried ≠ []) : c.session.job.worker.lock.supportsRetry := by
  cases lock : c.session.job.worker.lock with
  | skipLocked => rfl
  | noWait => exact absurd ((own.sound.decided saving).retried_of_noWait lock) retries

/-- A tick in which nothing is made to fail does not fail. -/
theorem Own.notFailed_move {now : Instant} {t t' : Table} {a : Act} {s' : Session}
    (own : Own features p c) (faultless : a.Faultless) (moves : Session.Move now c.session t a s' t')
    {report : TickReport} (ended : s'.tick = .ended report) : report.status ≠ .failed := by
  cases moves with
  | idle => exact own.notFailed report ended
  | quit _ gaveUp | rollback _ _ gaveUp =>
    cases ended
    exact faultless.gaveUp gaveUp
  | empty | commit =>
    cases ended
    nofun
  | @fetched rows _ _ found =>
    have working : (Tick.afterFetch c.session.job rows).isWorking := Session.afterFetch_isWorking found
    simp only [Session.opening] at ended
    rw [ended] at working
    cases working
  | @item n d row rest v =>
    have working := Session.afterItem_isWorking n rest (d.settle c.session.job now row (some (v.getD .retry)))
    simp only at ended
    rw [ended] at working
    cases working
  | batch => cases ended
  | refused saving _ retries unsupported =>
    exact absurd (own.supported saving retries) (Bool.eq_false_iff.mp unsupported)

theorem Own.act {now : Instant} {t t' : Table} {a : Act} {s' : Session} (own : Own features p c)
    (faultless : a.Faultless) (moves : Session.Move now c.session t a s' t') :
    Own features p (c.follow a s') where
  sound := Course.follow_sound own.sound moves
  short := Course.follow_short own.sound moves own.short
  worker := (congrArg Job.worker moves.job).trans own.worker
  itemType := (congrArg Job.features moves.job).trans own.itemType
  options := (congrArg Job.options moves.job) ▸ own.options
  notFailed _ ended := own.notFailed_move faultless moves ended

/-! ### A whole run -/

theorem Serving.replace (h : Serving features p s) (o : Options) : Serving features p (s.replace o) := by
  by_cases legal : Legal p o
  · rw [replace_of_legal h.options legal]
    exact ⟨h.itemType, h.worker, legal, h.begun, h.courses⟩
  · rw [(replace_of_not_legal h.options legal).2]
    exact h

theorem Serving.step (h : Serving features p s) (e : Event) (harmless : e.Harmless) :
    Serving features p (step s e) := by
  cases e with
  | update o => exact h.replace o
  | modify edit => exact h.replace _
  | clock now => exact ⟨h.itemType, h.worker, h.options, h.begun, h.courses⟩
  | change t => exact ⟨h.itemType, h.worker, h.options, harmless, h.courses⟩
  | process jitter cancelled =>
    refine ⟨h.itemType, h.worker, h.options, h.begun, fun c member => ?_⟩
    rcases List.mem_append.mp member with old | new
    · exact h.courses c old
    · rw [List.mem_singleton.mp new]
      exact Own.begin h jitter cancelled
  | act i a =>
    cases at_i : s.ticks.courses[i]? with
    | none =>
      simp only [Service.step, Ticks.step, at_i]
      exact h
    | some c =>
      have own := h.courses c (List.mem_of_getElem? at_i)
      have moves := Session.act_moves s.ticks.now a own.sound.session fun _ => h.begun
      simp only [Service.step, Ticks.step_act at_i]
      exact ⟨h.itemType, h.worker, h.options, moves.begun h.begun,
        Ticks.State.forall_place h.courses (own.act harmless moves)⟩

theorem Serving.start (built : p.build features = .ok r) (now : Instant) {t : Table} (begun : t.Begun) :
    Serving features p (Service.start features p r now t) := by
  have options := Plan.build_options built
  refine ⟨rfl, rfl, ?_, begun, fun _ member => absurd member List.not_mem_nil⟩
  show Legal p r.options.current
  rw [options]
  exact ⟨(Plan.build_ok built).1, rfl, rfl⟩

theorem Serving.run (h : Serving features p s) (harmless : ∀ e ∈ events, e.Harmless) :
    Serving features p (events.foldl Service.step s) :=
  foldl_invariant (fun _ e h harmless => h.step e harmless) h (Along.of_forall fun e member _ => harmless e member)

/-- If the row is still in the table it is stamped as completed. -/
def Finished (features : Features) (t : Table) (id : ItemId) : Prop :=
  ∀ r, t.rows.find? id = some r → r.IsCompleted features

/-- Each row that a save takes out of the queue is deleted, or stamped where done rows stay. -/
theorem Own.finished {n : Nat} {d : Decision} (own : Own features p c)
    (tracked : p.options.partitions.enabled → features.status) (saving : c.session.tick = .saving n d)
    (txn : TransactionId) (t : Table) :
    ∀ row ∈ d.processed, Finished features (c.session.commit txn d t) row.id := by
  intro row member r found
  obtain ⟨done, later, left, sorts⟩ := own.sound.decided saving
  have inDone : row.id ∈ done.map (·.id) := sorts.processed_ids ▸ List.mem_map_of_mem member
  obtain ⟨before, inDone, same⟩ := List.mem_map.mp inDone
  rw [← same, Session.find?_commit_done txn t sorts own.sound.unique inDone] at found
  obtain ⟨row, -, stamped⟩ := Option.bind_eq_some_iff.mp found
  unfold Table.leftover at stamped
  split at stamped
  · rename_i partitioned
    have tracked := tracked (own.options.partitions ▸ partitioned)
    have same := Option.some.inj stamped
    simp only [Row.modifyStatus, own.itemType, tracked, if_true] at same
    exact ⟨tracked, same ▸ rfl⟩
  · cases stamped

theorem Own.processed_short {n : Nat} {d : Decision} (own : Own features p c)
    (saving : c.session.tick = .saving n d) :
    (d.processed.map (·.id)).Nodup ∧ (Tick.completed n d).processed.toNat = d.processed.length := by
  have sorted := own.sound.decided saving
  exact ⟨sorted.nodup_processed own.sound.unique, (Session.completed_toNat sorted own.short).2.1⟩

/-- What can be said of an outbox in service at every moment: which options it takes and what it does
with them, and that none of its ticks fails late. -/
structure HoldsGood (features : Features) (p : Plan) (s : State) : Prop where
  current : Legal p s.live.current
  accepted : ∀ e o, e.proposal? s.live.current = some o → Legal p o →
    s.live.update o = .ok (s.live.publish o) ∧ step s e = { s with live := s.live.publish o }
  refused : ∀ e o, e.proposal? s.live.current = some o → ¬ Legal p o →
    (∃ e, s.live.update o = .error e) ∧ step s e = s
  used : ∀ o, Legal p o → ∀ later : List Event, (∀ e ∈ later, e.proposal? o = none) →
    ∀ jitter cancelled,
    ∃ c, (step (later.foldl step (step s (.update o))) (.process jitter cancelled)).ticks.courses.getLast? =
      some c ∧ c.session.job.options = o
  notFailed : ∀ c ∈ s.ticks.courses, ∀ report, c.session.tick = .ended report → report.status ≠ .failed
  reschedulable : ∀ c ∈ s.ticks.courses, c.session.job.worker.lock = .skipLocked →
    ∀ now row, c.session.job.reschedule now row ≠ .unsupported
  inOrder : ∀ c ∈ s.ticks.courses, c.session.job.worker.lock = .noWait →
    ∀ ids rows, c.session.tick.request? c.session.job = some (.save ids rows) → rows = []
  counted : ∀ i c n d, s.ticks.courses[i]? = some c → c.session.tick = .saving n d →
    ∃ c', (step s (.act i (.save none))).ticks.courses[i]? = some c' ∧
      c'.session.tick = .ended (Tick.completed n d) ∧
      (d.processed.map (·.id)).Nodup ∧ (Tick.completed n d).processed.toNat = d.processed.length ∧
      ∀ row ∈ d.processed, Finished features (step s (.act i (.save none))).ticks.table row.id

theorem Serving.used (h : Serving features p s) (legal : Legal p o)
    (quiet : ∀ e ∈ later, e.proposal? o = none) (jitter : Option (ItemId → Fin RetrySettings.maxJitter))
    (cancelled : Bool) :
    ∃ c, (Service.step (later.foldl Service.step (Service.step s (.update o)))
      (.process jitter cancelled)).ticks.courses.getLast? = some c ∧ c.session.job.options = o := by
  have published : Service.step s (.update o) = { s with live := s.live.publish o } :=
    replace_of_legal h.options legal
  have silent : ∀ e ∈ later, e.proposal? (Service.step s (.update o)).live.current = none := by
    rw [published]
    exact quiet
  have live := live_run silent
  refine ⟨_, List.getLast?_concat, ?_⟩
  show (later.foldl Service.step (Service.step s (.update o))).live.current = o
  rw [live, published]
  rfl

theorem Serving.counted (h : Serving features p s) (tracked : p.options.partitions.enabled → features.status)
    {i n : Nat} {d : Decision} (at_i : s.ticks.courses[i]? = some c) (saving : c.session.tick = .saving n d) :
    ∃ c', (Service.step s (.act i (.save none))).ticks.courses[i]? = some c' ∧
      c'.session.tick = .ended (Tick.completed n d) ∧
      (d.processed.map (·.id)).Nodup ∧ (Tick.completed n d).processed.toNat = d.processed.length ∧
      ∀ row ∈ d.processed, Finished features (Service.step s (.act i (.save none))).ticks.table row.id := by
  have own := h.courses c (List.mem_of_getElem? at_i)
  obtain ⟨below, -⟩ := List.getElem?_eq_some_iff.mp at_i
  obtain ⟨distinct, counted⟩ := own.processed_short saving
  have moves := Session.act_moves s.ticks.now (.save none) own.sound.session fun _ => h.begun
  simp only [Service.step, Ticks.step_act at_i, Course.act, Ticks.State.place, List.getElem?_set_self below]
  generalize (c.session.act s.ticks.now s.ticks.table (.save none)).1 = s',
    (c.session.act s.ticks.now s.ticks.table (.save none)).2.1 = t' at moves ⊢
  cases moves with
  | idle idle => exact absurd (saving ▸ trivial) idle
  | quit _ gaveUp | rollback _ _ gaveUp => cases gaveUp
  | commit saving' =>
    cases saving.symm.trans saving'
    exact ⟨_, rfl, rfl, distinct, counted, own.finished tracked saving _ _⟩
  | refused saving' _ retries unsupported =>
    exact absurd (own.supported saving' retries) (Bool.eq_false_iff.mp unsupported)

/-- What was checked when the outbox was built holds good for as long as it is in service, whatever
options it is given and whatever becomes of its table, if nothing is made to fail. -/
theorem holds_good (built : p.build features = .ok r) (now : Instant) {t : Table} (begun : t.Begun)
    (harmless : ∀ e ∈ events, e.Harmless) :
    HoldsGood features p (events.foldl step (start features p r now t)) := by
  have serving := (Serving.start built now begun).run harmless
  obtain ⟨-, able⟩ := Plan.build_ok built
  exact {
    current := serving.options
    accepted := fun e o proposed legal =>
      ⟨LiveOptions.update_of_admits (serving.options.admits_iff.mpr legal),
        (step_of_proposal proposed).trans (replace_of_legal serving.options legal)⟩
    refused := fun e o proposed illegal => by
      obtain ⟨answer, same⟩ := replace_of_not_legal serving.options illegal
      exact ⟨answer, (step_of_proposal proposed).trans same⟩
    used := fun o legal later quiet => serving.used legal quiet
    notFailed := fun c member => (serving.courses c member).notFailed
    reschedulable := fun c member skips => by
      have own := serving.courses c member
      refine Job.reschedule_ne_unsupported (own.itemType ▸ able (.inl ?_))
      rw [← own.worker]
      exact decide_eq_true skips
    inOrder := fun c member strict ids rows asked => by
      have own := serving.courses c member
      cases tick : c.session.tick with
      | saving n d =>
        rw [tick] at asked
        cases asked
        exact (own.sound.decided tick).retried_of_noWait (own.worker ▸ strict)
      | _ =>
        rw [tick] at asked
        cases asked
    counted := fun i c n d at_i saving => serving.counted (fun partitioned => able (.inr partitioned)) at_i saving }

def orders : Plan where
  outbox := "orders"
  hasRepository := true
  handler := some .item

/-- The first options would be refused when an outbox is built, the second leave room for one row. -/
def reloads : List Event :=
  [.update { itemsLimit := 0 }, .modify fun o => { o with itemsLimit := 1 },
    .change { rows := .ofList [{ id := .ofNat 1, payload := "a" }, { id := .ofNat 2, payload := "b" }] },
    .process none false, .act 0 (.fetch none), .act 0 (.answer (.verdict (some .ok))), .act 0 (.save none)]

/-- A reload that is refused, one that is accepted, and a tick with the options of the second. -/
theorem holds_good_reloaded :
    let r : Registration := { options := { outbox := "orders", current := {} }, managed := false }
    let s := reloads.foldl step (start { status := true } orders r .epoch {})
    orders.build { status := true } = .ok r ∧ ({} : Table).Begun ∧ (∀ e ∈ reloads, e.Harmless) ∧
      HoldsGood { status := true } orders s ∧
      s.live.version = 1 ∧ s.ticks.table.rows.toList.map (·.id) = [.ofNat 2] ∧
      s.ticks.courses.map (·.session.tick.report?) =
        [some { fetched := 1, processed := 1, status := .completed }] := by
  have built : orders.build { status := true } =
    .ok { options := { outbox := "orders", current := {} }, managed := false } := rfl
  have begun : ({} : Table).Begun := fun _ member => absurd member List.not_mem_nil
  have harmless : ∀ e ∈ reloads, e.Harmless := by
    simp only [reloads, List.forall_mem_cons]
    exact ⟨trivial, trivial, fun _ member => absurd member List.not_mem_nil, trivial, trivial, trivial, trivial,
      fun _ member => absurd member List.not_mem_nil⟩
  exact ⟨built, begun, harmless, holds_good built .epoch begun harmless, by decide, by decide, by decide⟩

end Service

end Outbox
