import Outbox.Proofs.Competing
import Outbox.Proofs.Offers

/-!
Competing ticks whose steps interleave. Once a tick has fetched, each of its later steps can change
places with a step of any other tick (`advance_comm`): locked rows and settled rows are equally
invisible to a fetch, and commits of different batches do not meet.
-/

namespace Outbox

variable {features : Features} {partitioned : Bool} {v : ItemId → Verdict} {others : List Lock}
  {now : Instant} {t t' : Table}

theorem Tick.ne_fetching {tick : Tick} (working : tick.isWorking) : tick ≠ .fetching := by
  rintro rfl
  cases working

theorem Tick.afterFetch_ne_fetching (job : Job) (rows : List Row) :
    Tick.afterFetch job rows ≠ .fetching := by
  cases rows with
  | nil => exact nofun
  | cons => exact Tick.ne_fetching (Session.afterFetch_isWorking nofun)

namespace Course

variable {c : Course} {h : Handlers}

/-- A step after the fetch does to the course the same on every table, and to the table nothing or its
commit. -/
theorem act_fetched (sound : c.Sound) (competes : c.session.job.Competes features partitioned)
    (fetched : c.session.tick ≠ .fetching) (now : Instant) (h : Handlers) :
    ∃ s' effect, (∀ t, c.act now t (c.session.tick.asked h none) =
        (c.follow (c.session.tick.asked h none) s', effect t)) ∧
      s'.tick ≠ .fetching ∧ s'.job = c.session.job ∧ (effect = id ∨ ∃ n d txn, c.session.tick = .saving n d ∧
        c.session.repository.transaction = some txn ∧ effect = c.session.commit txn d) := by
  cases tick : c.session.tick with
  | fetching => exact absurd tick fetched
  | item n d row rest =>
    let tick' := Tick.afterItem n rest (d.settle c.session.job now row (some ((h.item row).getD .retry)))
    refine ⟨{ c.session with tick := tick' }, id, fun t => ?_,
      Tick.ne_fetching (Session.afterItem_isWorking ..), rfl, .inl rfl⟩
    show (c.follow _ { c.session with tick := c.session.tick.next _ now _ }, t) = _
    rw [tick]
    rfl
  | batch rows =>
    refine ⟨{ c.session with
      tick := (Tick.batch rows).next c.session.job now (.outcome (h.batch rows)) }, id,
      fun t => ?_, nofun, rfl, .inl rfl⟩
    show (c.follow _ { c.session with tick := c.session.tick.next _ now _ }, t) = _
    rw [tick]
    rfl
  | saving n d =>
    obtain ⟨txn, opened⟩ := Option.isSome_iff_exists.mp (sound.session.opened.trans (by rw [tick]; rfl))
    have accepted : c.session.job.worker.lock.supportsRetry := by rw [competes.lock]; rfl
    refine ⟨c.session.ended (Tick.completed n d), c.session.commit txn d,
      fun t => ?_, nofun, rfl, .inr ⟨n, d, txn, rfl, opened, rfl⟩⟩
    obtain ⟨completed, written⟩ := Session.act_save sound.session tick opened (.inr accepted) now t
    show (c.follow (.save none) (c.session.act now t (.save none)).1,
      (c.session.act now t (.save none)).2.1) = _
    rw [completed, written]
    rfl
  | ended report =>
    refine ⟨c.session, id, fun t => ?_, by simp [tick], rfl, .inl rfl⟩
    have moves := Session.act_moves now (.save none) sound.session (t := t)
      fun fetching => absurd fetching fetched
    obtain ⟨same, still⟩ := moves.ended tick
    show (c.follow (.save none) (c.session.act now t (.save none)).1,
      (c.session.act now t (.save none)).2.1) = _
    rw [same, still]
    rfl

def fetchedSession (c : Course) (txn : TransactionId) (rows : List Row) : Session :=
  if rows = [] then c.session.ended { status := .empty } else c.session.opening txn rows

theorem fetchedSession_tick (c : Course) (txn : TransactionId) (rows : List Row) :
    (c.fetchedSession txn rows).tick = Tick.afterFetch c.session.job rows := by
  unfold fetchedSession
  split
  · rename_i none
    rw [none]
    rfl
  · rfl

theorem fetchedSession_job (c : Course) (txn : TransactionId) (rows : List Row) :
    (c.fetchedSession txn rows).job = c.session.job := by
  unfold fetchedSession
  split <;> rfl

theorem act_fetch (sound : c.Sound) (competes : c.session.job.Competes features partitioned)
    (fetching : c.session.tick = .fetching) (begun : t.Begun) (now : Instant) :
    c.act now t (.fetch none) =
      let rows := (t.onOffer features now partitioned).take c.session.job.limit
      (c.follow (.fetch none) (c.fetchedSession t.nextTransaction rows),
        t.begin.lockAll t.nextTransaction rows) := by
  have moves := Session.act_moves now (.fetch none) sound.session fun _ => begun
  have window : t.window? c.session.job.features now c.session.job.mode c.session.job.limit
      t.nextTransaction = some ((t.onOffer features now partitioned).take c.session.job.limit) := by
    rw [Job.mode, competes.lock, competes.partitions, competes.itemType]
    exact Table.window?_skipLocked begun _
  show (c.follow (.fetch none) (c.session.act now t (.fetch none)).1,
    (c.session.act now t (.fetch none)).2.1) = _
  generalize (c.session.act now t (.fetch none)).1 = s', (c.session.act now t (.fetch none)).2.1 = t'
    at moves ⊢
  cases moves with
  | idle idle =>
    rw [fetching] at idle
    exact absurd trivial idle
  | quit _ gaveUp | rollback _ _ gaveUp => cases gaveUp
  | empty _ nothing =>
    rw [window] at nothing
    have none := Option.some.inj (nothing.resolve_left nofun)
    simp only [none, fetchedSession, if_true]
    rfl
  | fetched _ found some =>
    cases window.symm.trans found
    simp only [fetchedSession, if_neg some]

end Course

namespace Ticks

/-- The next step of tick `i`, with the answers of its handlers. -/
def advance (handlers : Nat → Handlers) (s : State) (i : Nat) : State :=
  match s.courses[i]? with
  | some c => step s (.act i (c.session.tick.asked (handlers i) none))
  | none => s

def interleave (handlers : Nat → Handlers) (s : State) (schedule : List Nat) : State :=
  schedule.foldl (advance handlers) s

/-- Ticks of the given jobs that compete for rows, on their way. -/
structure Competition (features : Features) (partitioned : Bool) (v : ItemId → Verdict)
    (others : List Lock) (jobs : List Job) (s : State) : Prop where
  sound : Sound others s
  jobs : s.courses.map (·.session.job) = jobs
  tracked : features.status
  competes : ∀ c ∈ s.courses, c.session.job.Competes features partitioned
  early : s.now < .last
  settles : ∀ c ∈ s.courses, c.Settles s.now
  delays : ∀ c ∈ s.courses,
    c.session.job.Delays v (s.table.onOffer features s.now partitioned ++ c.batch)

variable {jobs : List Job} {handlers : Nat → Handlers} {s : State} {i j : Nat} {c : Course}

theorem advance_at (at_i : s.courses[i]? = some c) : advance handlers s i =
    s.place i (c.act s.now s.table (c.session.tick.asked (handlers i) none)).1
      (c.act s.now s.table (c.session.tick.asked (handlers i) none)).2 := by
  simp only [advance, at_i, step_act at_i]

theorem advance_none (at_i : s.courses[i]? = none) : advance handlers s i = s := by
  simp only [advance, at_i]

theorem courses_advance (apart : j ≠ i) (s : State) :
    (advance handlers s i).courses[j]? = s.courses[j]? := by
  cases at_i : s.courses[i]? with
  | none => rw [advance_none at_i]
  | some c =>
    rw [advance_at at_i]
    exact List.getElem?_set_ne apart.symm

def Fetched (s : State) (i : Nat) : Prop :=
  ∀ c, s.courses[i]? = some c → c.session.tick ≠ .fetching

theorem Competition.onOffer_commit (h : Competition features partitioned v others jobs s)
    (at_i : s.courses[i]? = some c) {n : Nat} {d : Decision} {txn : TransactionId}
    (saving : c.session.tick = .saving n d) (opened : c.session.repository.transaction = some txn) :
    (c.session.commit txn d s.table).onOffer features s.now partitioned =
      s.table.onOffer features s.now partitioned := by
  have member := List.mem_of_getElem? at_i
  have sound := h.sound.courses c member
  have job := h.competes c member
  have settles := (h.settles c member).settles
  have tracks := sound.tracks
  rw [saving] at settles tracks
  obtain ⟨done, later, sorts⟩ := tracks.2.none_left (settles.1.trans tracks.1)
  have locks := (Table.LocksExact.focus at_i).mp h.sound.locks
  unfold Course.holding at locks
  rw [opened] at locks
  have mode : c.session.job.mode.partitioned = partitioned := job.partitions
  have kept := Session.onOffer_commit (job.itemType ▸ h.tracked) locks sorts sound.unique settles.2
  rwa [mode, job.itemType] at kept

/-- What a step means for a fetch: the fetch of a tick takes the first rows on offer, and after it
nothing the tick does changes the offer. -/
theorem Competition.act_offer (h : Competition features partitioned v others jobs s)
    (at_i : s.courses[i]? = some c) {answers : Handlers} {c' : Course}
    (result : c.act s.now s.table (c.session.tick.asked answers none) = (c', t')) :
    c'.session.tick ≠ .fetching ∧ c'.session.job = c.session.job ∧
      (c.session.tick ≠ .fetching ∧ c'.batch = c.batch ∧
        t'.onOffer features s.now partitioned = s.table.onOffer features s.now partitioned ∨
      c.session.tick = .fetching ∧
        c'.batch = (s.table.onOffer features s.now partitioned).take c.session.job.limit ∧
        t'.onOffer features s.now partitioned =
          (s.table.onOffer features s.now partitioned).drop c.session.job.limit) := by
  have member := List.mem_of_getElem? at_i
  have sound := h.sound.courses c member
  have competes := h.competes c member
  by_cases fetching : c.session.tick = .fetching
  · have asked : c.session.tick.asked answers none = .fetch none := by rw [fetching]; rfl
    rw [asked, Course.act_fetch sound competes fetching h.sound.locks.allBegun] at result
    cases result
    refine ⟨?_, Course.fetchedSession_job .., .inr ⟨fetching, ?_, Table.onOffer_lockAll _⟩⟩
    · show (c.fetchedSession _ _).tick ≠ .fetching
      rw [Course.fetchedSession_tick]
      exact Tick.afterFetch_ne_fetching _ _
    · simp only [Course.follow, fetching, Course.fetchedSession_tick, Course.toHandle_afterFetch]
  · obtain ⟨s', effect, acts, unfetched, job, writes⟩ := Course.act_fetched sound competes fetching s.now answers
    rw [acts] at result
    cases result
    refine ⟨unfetched, job, .inl ⟨fetching, Course.follow_batch fetching, ?_⟩⟩
    rcases writes with rfl | ⟨n, d, txn, saving, opened, rfl⟩
    · rfl
    · exact h.onOffer_commit at_i saving opened

theorem Competition.advanced (h : Competition features partitioned v others jobs s)
    (follow : ∀ i, (handlers i).Follow v) (i : Nat) :
    Competition features partitioned v others jobs (advance handlers s i) := by
  cases at_i : s.courses[i]? with
  | none =>
    rw [advance_none at_i]
    exact h
  | some c =>
    have member := List.mem_of_getElem? at_i
    have sound := step_sound h.sound (.act i (c.session.tick.asked (handlers i) none))
    have settles := Course.follow_settles (h.sound.courses c member) (h.settles c member)
      (h.competes c member) h.tracked h.early (follow i) (h.sound.moves at_i _)
    rw [step_act at_i] at sound
    rw [advance_at at_i]
    have kept := h.delays c member
    change Job.Delays _ v (c.act s.now s.table (c.session.tick.asked (handlers i) none)).1.batch →
      (c.act s.now s.table (c.session.tick.asked (handlers i) none)).1.Settles s.now at settles
    rcases result : c.act s.now s.table (c.session.tick.asked (handlers i) none) with ⟨c', t'⟩
    rw [result] at sound settles
    obtain ⟨-, job, offer⟩ := h.act_offer at_i result
    -- no row is on offer or in a batch that was neither before
    have fewer : t'.onOffer features s.now partitioned ⊆ s.table.onOffer features s.now partitioned ∧
        c'.batch ⊆ s.table.onOffer features s.now partitioned ++ c.batch := by
      rcases offer with ⟨-, batch, same⟩ | ⟨-, batch, rest⟩
      · exact ⟨same ▸ List.Subset.refl _, batch ▸ List.subset_append_right _ _⟩
      · exact ⟨rest ▸ List.drop_subset _ _,
          batch ▸ List.Subset.trans (List.take_subset _ _) (List.subset_append_left _ _)⟩
    have offered := List.Subset.trans fewer.1 (List.subset_append_left _ c.batch)
    refine ⟨sound, ?jobs, h.tracked, State.forall_place h.competes (job ▸ h.competes c member), h.early,
      State.forall_place h.settles (settles (kept.mono fewer.2)), State.forall_place ?others (job ▸ ?own)⟩
    case jobs =>
      obtain ⟨below, rfl⟩ := List.getElem?_eq_some_iff.mp at_i
      rw [← h.jobs]
      show (s.courses.set i c').map _ = _
      rw [List.map_set, job, ← List.getElem_map (f := fun e : Course => e.session.job), List.set_getElem_self]
      simpa using below
    case own => exact kept.mono (List.append_subset.mpr ⟨offered, fewer.2⟩)
    case others =>
      intro e other
      exact (h.delays e other).mono (List.append_subset.mpr
        ⟨List.Subset.trans fewer.1 (List.subset_append_left _ _), List.subset_append_right _ _⟩)

/-- What a tick does is the same before and after a commit of another one, and so is the commit. -/
theorem Competition.act_commit (h : Competition features partitioned v others jobs s)
    (at_i : s.courses[i]? = some c) {e : Course} (at_j : s.courses[j]? = some e) (apart : j ≠ i)
    (answers : Handlers) {n : Nat} {d : Decision} {txn : TransactionId}
    (saving : c.session.tick = .saving n d) (opened : c.session.repository.transaction = some txn)
    (begun : (c.session.commit txn d s.table).Begun) :
    e.act s.now (c.session.commit txn d s.table) (e.session.tick.asked answers none) =
      ((e.act s.now s.table (e.session.tick.asked answers none)).1,
        c.session.commit txn d (e.act s.now s.table (e.session.tick.asked answers none)).2) := by
  have sound := h.sound.courses e (List.mem_of_getElem? at_j)
  have competes := h.competes e (List.mem_of_getElem? at_j)
  by_cases fetching : e.session.tick = .fetching
  · have asked : e.session.tick.asked answers none = .fetch none := by rw [fetching]; rfl
    have old : txn < s.table.nextTransaction := h.sound.locks.opened txn <|
      List.mem_filterMap.mpr ⟨c.holding, List.mem_map_of_mem (List.mem_of_getElem? at_i), opened⟩
    have unique : (((s.table.onOffer features s.now partitioned).take e.session.job.limit).map (·.id)).Nodup :=
      Table.onOffer_nodup.sublist ((List.take_sublist ..).map _)
    rw [asked, Course.act_fetch sound competes fetching begun,
      Course.act_fetch sound competes fetching h.sound.locks.allBegun]
    simp only [h.onOffer_commit at_i saving opened, Session.commit_nextTransaction,
      Session.commit_lockAll unique old]
  · obtain ⟨s', effect, acts, -, -, writes⟩ := Course.act_fetched sound competes fetching s.now answers
    rw [acts, acts]
    rcases writes with rfl | ⟨n', d', txn', saving', opened', rfl⟩
    · rfl
    · have batches := h.sound.disjoint at_i at_j apart (by rw [saving]; rfl) (by rw [saving']; rfl)
      have first := (h.sound.courses c (List.mem_of_getElem? at_i)).tracks
      have second := sound.tracks
      rw [saving] at first
      rw [saving'] at second
      rw [Session.commit_comm first.2 second.2 batches]

/-- A step of a tick that has fetched can change places with a step of any other. -/
theorem Competition.advance_comm (h : Competition features partitioned v others jobs s)
    (follow : ∀ i, (handlers i).Follow v) (apart : j ≠ i) (fetched : Fetched s i) :
    advance handlers (advance handlers s i) j = advance handlers (advance handlers s j) i := by
  cases at_i : s.courses[i]? with
  | none => rw [advance_none at_i, advance_none ((courses_advance apart.symm s).trans at_i)]
  | some c =>
    cases at_j : s.courses[j]? with
    | none => rw [advance_none at_j, advance_none ((courses_advance apart s).trans at_j)]
    | some e =>
      have sound := h.sound.courses c (List.mem_of_getElem? at_i)
      have competes := h.competes c (List.mem_of_getElem? at_i)
      obtain ⟨s', effect, acts, -, -, writes⟩ :=
        Course.act_fetched sound competes (fetched c at_i) s.now (handlers i)
      have after := (h.advanced follow i).sound.locks.allBegun
      rw [advance_at ((courses_advance apart s).trans at_j),
        advance_at ((courses_advance apart.symm s).trans at_i), advance_at at_i, advance_at at_j]
      rw [advance_at at_i] at after
      simp only [State.place, acts] at after ⊢
      have kept : e.act s.now (effect s.table) (e.session.tick.asked (handlers j) none) =
          ((e.act s.now s.table (e.session.tick.asked (handlers j) none)).1,
            effect (e.act s.now s.table (e.session.tick.asked (handlers j) none)).2) := by
        rcases writes with rfl | ⟨n, d, txn, saving, opened, rfl⟩
        · rfl
        · exact h.act_commit at_i at_j apart (handlers j) saving opened after
      rw [kept, List.set_comm _ _ apart.symm]

end Ticks

end Outbox
