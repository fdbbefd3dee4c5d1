import Outbox.Proofs.InOrder
import Outbox.Proofs.Runs

/-!
Ticks that keep to the order of one queue. Two of them that have rows at once have them one before the
other (`apart_run`). As long as nothing comes on offer ahead of what a tick has, that tick is the only
one with rows: it has the first rows of the queue, and every other fetch meets them (`single_owner`).
-/

namespace Outbox

theorem Course.follow_found {now : Instant} {c : Course} {t t' : Table} {a : Act} {s' : Session}
    (sound : c.Sound) (found : c.session.tick.isWorking → c.batch ≠ [])
    (moves : Session.Move now c.session t a s' t') :
    s'.tick.isWorking → (c.follow a s').batch ≠ [] := by
  intro working
  cases moves with
  | idle =>
    rw [follow_self sound]
    exact found working
  | quit | empty | commit | refused | rollback => cases working
  | fetched fetching _ some =>
    simp only [follow, fetching, Session.opening, toHandle_afterFetch]
    exact some
  | item handling | batch handling =>
    rw [follow_batch (by simp [handling])]
    exact found (by rw [handling]; rfl)

def Course.Holds (c : Course) : Prop := c.holding.locks ≠ []

theorem Course.Sound.working {c : Course} (sound : c.Sound) (holds : c.Holds) :
    c.session.tick.isWorking := by
  rw [← sound.session.opened]
  unfold Holds holding Holding.locks at holds
  split at holds
  · rename_i txn opened
    rw [show c.session.repository.transaction = some txn from opened]
    rfl
  · exact absurd rfl holds

namespace Ticks

abbrev run (s : State) (events : List Event) : State := events.foldl step s

/-- Ticks in order, inserts of new rows and a clock that goes on. -/
def Strict (features : Features) (partitioned : Bool) (s : State) : Event → Prop
  | .insert rows => ∀ r ∈ rows, s.table.rows.find? r.id = none
  | .clock now => s.now ≤ now
  | .begin job _ => job.InOrder features partitioned
  | .act .. => True

/-- What an insert or the clock brings on offer comes after all that ticks hold. -/
def Behind (features : Features) (partitioned : Bool) (s : State) (e : Event) : Prop :=
  match e with
  | .insert _ | .clock _ => ∀ r ∈ (step s e).table.eligible features (step s e).now partitioned,
      r ∉ s.table.eligible features s.now partitioned →
        ∀ c ∈ s.courses, c.Holds → ∀ b ∈ c.batch, b.precedes features r
  | .begin .. | .act .. => True

instance (features : Features) (a b : Row) : Decidable (a.precedes features b) := by
  unfold Row.precedes
  infer_instance

instance (c : Course) : Decidable c.Holds := inferInstanceAs (Decidable (_ ≠ []))

instance (features : Features) (partitioned : Bool) (s : State) (e : Event) :
    Decidable (Strict features partitioned s e) := by
  unfold Strict
  cases e <;> infer_instance

instance (features : Features) (partitioned : Bool) (s : State) (e : Event) :
    Decidable (Behind features partitioned s e) := by
  unfold Behind
  cases e <;> infer_instance

/-- The rows of ticks at work are on offer and locked. -/
structure Held (features : Features) (partitioned : Bool) (others : List Lock) (s : State) : Prop where
  sound : Sound others s
  jobs : ∀ c ∈ s.courses, c.session.job.InOrder features partitioned
  found : ∀ c ∈ s.courses, c.session.tick.isWorking → c.batch ≠ []
  held : ∀ c ∈ s.courses, c.session.tick.isWorking →
    ∀ b ∈ c.batch, b ∈ s.table.eligible features s.now partitioned

/-- Of two ticks at work one has its rows before those of the other. -/
def Apart (features : Features) (s : State) : Prop :=
  ∀ (i j : Nat) (c e : Course), s.courses[i]? = some c → s.courses[j]? = some e → i ≠ j →
    c.session.tick.isWorking → e.session.tick.isWorking →
    (∀ a ∈ c.batch, ∀ b ∈ e.batch, a.precedes features b) ∨
      ∀ a ∈ c.batch, ∀ b ∈ e.batch, b.precedes features a

/-- A tick at work has the first rows on offer. -/
def First (features : Features) (partitioned : Bool) (s : State) : Prop :=
  ∀ c ∈ s.courses, c.session.tick.isWorking →
    c.batch <+: s.table.eligible features s.now partitioned

variable {features : Features} {partitioned : Bool} {others : List Lock} {s s' : State} {e : Event}
  {i j : Nat} {c : Course} {row : Row} {now : Instant} {a : Act}

/-! ### Inserts and the clock -/

/-- Nothing that was on offer is taken off by an insert or as time goes on. -/
theorem Strict.stays (strict : Strict features partitioned s e) (idle : ∀ i a, e ≠ .act i a)
    (offered : row ∈ s.table.eligible features s.now partitioned) :
    row ∈ (step s e).table.eligible features (step s e).now partitioned := by
  cases e with
  | insert rows => exact Table.mem_eligible_insert strict offered
  | clock now =>
    obtain ⟨found, eligible⟩ := Table.mem_eligible.mp offered
    exact Table.mem_eligible.mpr ⟨found, Row.isEligible_later strict eligible⟩
  | begin => exact offered
  | act i a => exact absurd rfl (idle i a)

namespace Held

theorem mem (h : Held features partitioned others s) (at_i : s.courses[i]? = some c) :
    c ∈ s.courses ∧ c.Sound :=
  ⟨List.mem_of_getElem? at_i, h.sound.courses c (List.mem_of_getElem? at_i)⟩

theorem grow (h : Held features partitioned others s) (sound : Sound others s')
    (courses : s'.courses = s.courses)
    (stays : ∀ r ∈ s.table.eligible features s.now partitioned,
      r ∈ s'.table.eligible features s'.now partitioned) : Held features partitioned others s' where
  sound
  jobs := courses ▸ h.jobs
  found := courses ▸ h.found
  held c member working b inBatch := by
    rw [courses] at member
    exact stays b (h.held c member working b inBatch)

theorem begin (h : Held features partitioned others s) {job : Job} (cancelled : Bool)
    (inOrder : job.InOrder features partitioned) :
    Held features partitioned others (step s (.begin job cancelled)) := by
  have idle : (Session.start job cancelled).tick.isWorking = false := by cases cancelled <;> rfl
  refine ⟨step_sound h.sound _, fun c member => ?_, fun c member working => ?_,
    fun c member working => ?_⟩
  all_goals
    rcases List.mem_append.mp member with old | new
  · exact h.jobs c old
  · rw [List.mem_singleton.mp new]
    exact inOrder
  · exact h.found c old working
  · rw [List.mem_singleton.mp new, idle] at working
    cases working
  · exact h.held c old working
  · rw [List.mem_singleton.mp new, idle] at working
    cases working

theorem locked (h : Held features partitioned others s) (at_i : s.courses[i]? = some c)
    (working : c.session.tick.isWorking) {b : Row} (inBatch : b ∈ c.batch) :
    s.table.lockedByOther s.table.nextTransaction b.id = true := by
  obtain ⟨txn, opened⟩ := Option.isSome_iff_exists.mp ((h.mem at_i).2.session.opened.trans working)
  have locks := (Table.LocksExact.focus at_i).mp h.sound.locks
  have found := (locks.find?_eq_iff opened b.id).mpr (List.mem_map_of_mem inBatch)
  cases free : s.table.lockedByOther s.table.nextTransaction b.id with
  | true => rfl
  | false => cases found.symm.trans (h.sound.locks.allBegun.unlocked free)

theorem window (h : Held features partitioned others s) (at_i : s.courses[i]? = some c)
    {rows : List Row} (window : s.table.window? c.session.job.features s.now c.session.job.mode
      c.session.job.limit s.table.nextTransaction = some rows) :
    rows = (s.table.eligible features s.now partitioned).take c.session.job.limit ∧
      ∀ (j : Nat) (e : Course), s.courses[j]? = some e → e.session.tick.isWorking →
        ∀ b ∈ e.batch, b ∉ rows := by
  have inOrder := h.jobs c (h.mem at_i).1
  have free := (Table.window?_some window).2.2
  rw [Job.mode, inOrder.lock, inOrder.itemType, inOrder.partitions] at window
  refine ⟨Table.window?_noWait window, fun j e at_j working b inBatch taken => ?_⟩
  cases (h.locked at_j working inBatch).symm.trans (free b taken)

theorem act (h : Held features partitioned others s) (i : Nat) (a : Act) :
    Held features partitioned others (step s (.act i a)) := by
  cases at_i : s.courses[i]? with
  | none => simpa only [step, at_i] using h
  | some c =>
    obtain ⟨member, course⟩ := h.mem at_i
    have moves := h.sound.moves at_i a
    have sound := step_sound h.sound (.act i a)
    have effect := Course.follow_effect course moves
    have found := Course.follow_found course (h.found c member) moves
    have job : (c.follow a (c.session.act s.now s.table a).1).session.job = c.session.job := moves.job
    rw [step_act at_i] at sound ⊢
    change (c.follow a (c.session.act s.now s.table a).1).session.tick.isWorking → _ at found
    simp only [Course.act] at sound ⊢
    generalize c.follow a (c.session.act s.now s.table a).1 = c',
      (c.session.act s.now s.table a).2.1 = t' at effect sound found job ⊢
    have jobs : ∀ e ∈ (s.place i c' t').courses, e.session.job.InOrder features partitioned :=
      State.forall_place h.jobs (job ▸ h.jobs c member)
    refine ⟨sound, jobs, State.forall_place h.found found, ?_⟩
    cases effect with
    | quiet rows _ batch working =>
      have same : (s.place i c' t').table.eligible features s.now partitioned =
          s.table.eligible features s.now partitioned := Table.eligible_congr rows
      refine State.forall_place (fun e other atWork => ?_) fun atWork => ?_
      · exact same ▸ h.held e other atWork
      · rw [batch]
        exact same ▸ h.held c member (working atWork)
    | fetched rows _ window =>
      have same : (s.place i c' t').table.eligible features s.now partitioned =
          s.table.eligible features s.now partitioned := Table.eligible_congr rows
      refine State.forall_place (fun e other atWork => ?_) fun _ => ?_
      · exact same ▸ h.held e other atWork
      · rw [(h.window at_i window).1]
        exact same ▸ fun b taken => List.mem_of_mem_take taken
    | committed saving _ _ ended =>
      have decided := course.tracks
      rw [saving] at decided
      intro e placed atWork b inBatch
      rcases State.of_mem_place placed with rfl | ⟨j, apart, at_j⟩
      · rw [ended] at atWork
        cases atWork
      · obtain ⟨there, eligible⟩ := Table.mem_eligible.mp
          (h.held e (List.mem_of_getElem? at_j) atWork b inBatch)
        have outside : b.id ∉ c.batch.map (·.id) := fun own =>
          h.sound.disjoint at_i at_j apart (by rw [saving]; rfl) atWork own (List.mem_map_of_mem inBatch)
        refine Table.mem_eligible.mpr ⟨?_, eligible⟩
        exact (Session.find?_commit_outside decided.2 outside).trans there

theorem step (h : Held features partitioned others s) (e : Event)
    (strict : Strict features partitioned s e) : Held features partitioned others (Ticks.step s e) := by
  cases e with
  | insert rows => exact h.grow (step_sound h.sound _) rfl fun r => strict.stays nofun
  | clock now => exact h.grow (step_sound h.sound _) rfl fun r => strict.stays nofun
  | begin job cancelled => exact h.begin cancelled strict
  | act i a => exact h.act i a

theorem start {t : Table} (begun : t.Begun) (now : Instant) :
    Held features partitioned t.locks.toList { now, table := t } :=
  ⟨⟨.before begun, fun _ member => absurd member List.not_mem_nil⟩,
    fun _ member => absurd member List.not_mem_nil, fun _ member => absurd member List.not_mem_nil,
    fun _ member => absurd member List.not_mem_nil⟩

end Held

/-! ### One before the other -/

theorem working_begin {job : Job} {cancelled : Bool}
    (at_i : (step s (.begin job cancelled)).courses[i]? = some c) (working : c.session.tick.isWorking) :
    s.courses[i]? = some c := by
  simp only [step] at at_i
  by_cases below : i < s.courses.length
  · rwa [List.getElem?_append_left below] at at_i
  · rw [List.getElem?_append_right (Nat.le_of_not_lt below)] at at_i
    rw [List.mem_singleton.mp (List.mem_of_getElem? at_i)] at working
    cases cancelled <;> cases working

theorem Apart.step (apart : Apart features s) (h : Held features partitioned others s)
    (e : Event) : Apart features (Ticks.step s e) := by
  cases e with
  | insert | clock => exact apart
  | begin job cancelled =>
    intro i j c e at_i at_j other hc he
    exact apart i j c e (working_begin at_i hc) (working_begin at_j he) other hc he
  | act k a =>
    cases at_k : s.courses[k]? with
    | none => simpa only [Ticks.step, at_k] using apart
    | some d =>
      have effect := Course.follow_effect (h.mem at_k).2 (h.sound.moves at_k a)
      rw [step_act at_k]
      simp only [Course.act]
      generalize d.follow a (d.session.act s.now s.table a).1 = d',
        (d.session.act s.now s.table a).2.1 = t' at effect ⊢
      -- what tick `k` has after its step it has apart from any other
      have own : ∀ (j : Nat) (e : Course), s.courses[j]? = some e → j ≠ k → d'.session.tick.isWorking →
          e.session.tick.isWorking → (∀ a ∈ d'.batch, ∀ b ∈ e.batch, a.precedes features b) ∨
            ∀ a ∈ d'.batch, ∀ b ∈ e.batch, b.precedes features a := by
        intro j e at_j other hd he
        cases effect with
        | quiet _ _ batch working =>
          rw [batch]
          exact apart k j d e at_k at_j other.symm (working hd) he
        | fetched _ _ window =>
          obtain ⟨taken, free⟩ := h.window at_k window
          have sorted : (s.table.eligible features s.now partitioned).Pairwise (Row.precedes features) :=
            Table.eligible_pairwise
          rw [← List.take_append_drop d.session.job.limit (s.table.eligible features s.now partitioned),
            ← taken] at sorted
          refine .inl fun a ha b hb => (List.pairwise_append.mp sorted).2.2 a ha b ?_
          have offered := h.held e (List.mem_of_getElem? at_j) he b hb
          rw [← List.take_append_drop d.session.job.limit (s.table.eligible features s.now partitioned),
            ← taken] at offered
          exact (List.mem_append.mp offered).resolve_left (free j e at_j he b hb)
        | committed _ _ _ ended =>
          rw [ended] at hd
          cases hd
      intro i j c e at_i at_j other hc he
      rcases getElem?_place at_i with ⟨rfl, rfl⟩ | ⟨hi, old_i⟩ <;>
        rcases getElem?_place at_j with ⟨rfl, rfl⟩ | ⟨hj, old_j⟩
      · exact absurd rfl other
      · exact own j e old_j hj hc he
      · exact (own i c old_i hi he hc).symm.imp (fun before a ha b hb => before b hb a ha)
          fun before a ha b hb => before b hb a ha
      · exact apart i j c e old_i old_j other hc he

/-! ### The first rows of the queue -/

namespace First

theorem alone (first : First features partitioned s) (h : Held features partitioned others s)
    {e : Course} (at_i : s.courses[i]? = some c) (at_j : s.courses[j]? = some e)
    (hc : c.session.tick.isWorking) (he : e.session.tick.isWorking) : i = j := by
  by_contra apart
  have disjoint := h.sound.disjoint at_i at_j (Ne.symm apart) hc he
  obtain ⟨x, xs, left⟩ := List.exists_cons_of_ne_nil (h.found c (h.mem at_i).1 hc)
  obtain ⟨y, ys, right⟩ := List.exists_cons_of_ne_nil (h.found e (h.mem at_j).1 he)
  obtain ⟨_, whole⟩ := first c (h.mem at_i).1 hc
  obtain ⟨_, same⟩ := first e (h.mem at_j).1 he
  rw [← whole, left, right] at same
  obtain rfl := (List.cons.inj same).1
  apply disjoint
  · exact left ▸ List.mem_map_of_mem List.mem_cons_self
  · exact right ▸ List.mem_map_of_mem List.mem_cons_self

/-- What is first stays so if nothing is taken off and all that is new comes after it. -/
theorem grow (first : First features partitioned s) (courses : s'.courses = s.courses)
    (stays : ∀ r ∈ s.table.eligible features s.now partitioned,
      r ∈ s'.table.eligible features s'.now partitioned)
    (behind : ∀ r ∈ s'.table.eligible features s'.now partitioned,
      r ∉ s.table.eligible features s.now partitioned →
        ∀ c ∈ s.courses, c.session.tick.isWorking → ∀ b ∈ c.batch, b.precedes features r) :
    First features partitioned s' := by
  intro c member working
  rw [courses] at member
  obtain ⟨rest, whole⟩ := first c member working
  have sorted : (s.table.eligible features s.now partitioned).Pairwise (Row.precedes features) :=
    Table.eligible_pairwise
  rw [← whole] at sorted
  obtain ⟨own, -, before⟩ := List.pairwise_append.mp sorted
  refine prefix_of_precedes own Table.eligible_pairwise (fun b inBatch => ?_) fun r offered b inBatch ahead => ?_
  · exact stays b (whole ▸ List.mem_append_left rest inBatch)
  · by_cases old : r ∈ s.table.eligible features s.now partitioned
    · rw [← whole] at old
      rcases List.mem_append.mp old with mine | later
      · exact mine
      · exact absurd (before b inBatch r later) (Row.precedes_asymm ahead)
    · exact absurd (behind r offered old c member working b inBatch) (Row.precedes_asymm ahead)

theorem act (first : First features partitioned s) (h : Held features partitioned others s) (i : Nat)
    (a : Act) : First features partitioned (step s (.act i a)) := by
  cases at_i : s.courses[i]? with
  | none => simpa only [step, at_i] using first
  | some c =>
    obtain ⟨member, course⟩ := h.mem at_i
    have effect := Course.follow_effect course (h.sound.moves at_i a)
    rw [step_act at_i]
    simp only [Course.act]
    generalize c.follow a (c.session.act s.now s.table a).1 = c',
      (c.session.act s.now s.table a).2.1 = t' at effect ⊢
    cases effect with
    | quiet rows _ batch working =>
      have same : (s.place i c' t').table.eligible features s.now partitioned =
          s.table.eligible features s.now partitioned := Table.eligible_congr rows
      refine State.forall_place (fun e other atWork => ?_) fun atWork => ?_
      · exact same ▸ first e other atWork
      · rw [batch]
        exact same ▸ first c member (working atWork)
    | fetched rows _ window =>
      have same : (s.place i c' t').table.eligible features s.now partitioned =
          s.table.eligible features s.now partitioned := Table.eligible_congr rows
      refine State.forall_place (fun e other atWork => ?_) fun _ => ?_
      · exact same ▸ first e other atWork
      · rw [(h.window at_i window).1]
        exact same ▸ List.take_prefix ..
    | committed saving _ _ ended =>
      -- no other tick is at work
      intro e placed atWork
      rcases State.of_mem_place placed with rfl | ⟨j, apart, at_j⟩
      · rw [ended] at atWork
        cases atWork
      · exact absurd (first.alone h at_j at_i atWork (by rw [saving]; rfl)) apart

theorem begin (first : First features partitioned s) (job : Job) (cancelled : Bool) :
    First features partitioned (step s (.begin job cancelled)) := by
  intro c member working
  obtain ⟨i, at_i⟩ := List.getElem?_of_mem member
  exact first c (List.mem_of_getElem? (working_begin at_i working)) working

end First

theorem Held.holds (h : Held features partitioned others s) (at_i : s.courses[i]? = some c)
    (working : c.session.tick.isWorking) : c.Holds := by
  obtain ⟨member, course⟩ := h.mem at_i
  obtain ⟨txn, opened⟩ := Option.isSome_iff_exists.mp (course.session.opened.trans working)
  simpa [Course.Holds, Course.holding, Holding.locks, opened] using h.found c member working

theorem First.step (first : First features partitioned s) (h : Held features partitioned others s)
    (strict : Strict features partitioned s e) (behind : Behind features partitioned s e) :
    First features partitioned (Ticks.step s e) := by
  have after : ∀ (r : Row) (c : Course), (c.Holds → ∀ b ∈ c.batch, b.precedes features r) → c ∈ s.courses →
      c.session.tick.isWorking → ∀ b ∈ c.batch, b.precedes features r := by
    intro r c behind member working
    obtain ⟨i, at_i⟩ := List.getElem?_of_mem member
    exact behind (h.holds at_i working)
  cases e with
  | insert rows =>
    exact first.grow rfl (fun r => strict.stays nofun) fun r offered new c member =>
      after r c (behind r offered new c member) member
  | clock now =>
    exact first.grow rfl (fun r => strict.stays nofun) fun r offered new c member =>
      after r c (behind r offered new c member) member
  | begin job cancelled => exact first.begin job cancelled
  | act i a => exact first.act h i a

/-- A fetch beside a tick that has the first rows comes back empty. -/
theorem First.fetch_empty (first : First features partitioned s) (h : Held features partitioned others s)
    {e : Course} (at_i : s.courses[i]? = some c) (at_j : s.courses[j]? = some e)
    (working : c.session.tick.isWorking) (fetching : e.session.tick = .fetching) :
    (e.act s.now s.table (.fetch none)).1.session.tick = .ended { status := .empty } := by
  have moves := h.sound.moves at_j (.fetch none)
  simp only [Course.act, Course.follow]
  generalize (e.session.act s.now s.table (.fetch none)).1 = s',
    (e.session.act s.now s.table (.fetch none)).2.1 = t' at moves ⊢
  cases moves with
  | idle idle =>
    rw [fetching] at idle
    exact absurd trivial idle
  | quit _ gaveUp | rollback _ _ gaveUp => cases gaveUp
  | empty => rfl
  | @fetched rows _ window some =>
    obtain ⟨taken, free⟩ := h.window at_j window
    obtain ⟨x, xs, batch⟩ := List.exists_cons_of_ne_nil (h.found c (h.mem at_i).1 working)
    obtain ⟨rest, whole⟩ := first c (h.mem at_i).1 working
    rw [← whole, batch, List.cons_append] at taken
    cases limit : e.session.job.limit with
    | zero =>
      rw [limit, List.take_zero] at taken
      exact absurd taken some
    | succ n =>
      rw [limit, List.take_succ_cons] at taken
      refine absurd ?_ (free i c at_i working x ?_)
      · exact taken ▸ List.mem_cons_self
      · exact batch ▸ List.mem_cons_self

theorem apart_run {t : Table} (begun : t.Begun) {events : List Event}
    (strict : Along step (Strict features partitioned) { now, table := t } events) :
    Held features partitioned t.locks.toList (run { now, table := t } events) ∧
      Apart features (run { now, table := t } events) := by
  have keeps : ∀ s e, Held features partitioned t.locks.toList s ∧ Apart features s →
      Strict features partitioned s e →
      Held features partitioned t.locks.toList (step s e) ∧ Apart features (step s e) :=
    fun s e inv strict => ⟨inv.1.step e strict, inv.2.step inv.1 e⟩
  have idle : Apart features { now, table := t } := by
    intro i j c e at_i
    cases List.getElem?_nil.symm.trans at_i
  exact foldl_invariant keeps ⟨Held.start begun now, idle⟩ strict

/-- Ticks in order hold rows at once only one before the other. Where all that comes on offer comes
after what is held, one tick at most holds rows, and whatever fetches meanwhile finds nothing. -/
theorem single_owner {t : Table} (begun : t.Begun) {events : List Event}
    (strict : Along step (Strict features partitioned) { now, table := t } events) :
    let s := run { now, table := t } events
    (∀ (i j : Nat) (c e : Course), s.courses[i]? = some c → s.courses[j]? = some e → i ≠ j →
      c.Holds → e.Holds → (∀ a ∈ c.batch, ∀ b ∈ e.batch, a.precedes features b) ∨
        ∀ a ∈ c.batch, ∀ b ∈ e.batch, b.precedes features a) ∧
    (Along step (Behind features partitioned) { now, table := t } events →
      ∀ (i j : Nat) (c e : Course), s.courses[i]? = some c → s.courses[j]? = some e → c.Holds →
        (e.Holds → i = j) ∧ (e.session.tick = .fetching →
          (e.act s.now s.table (.fetch none)).1.session.tick = .ended { status := .empty })) := by
  intro s
  obtain ⟨held, apart⟩ := apart_run begun strict
  refine ⟨fun i j c e at_i at_j other hc he => ?_, fun behind i j c e at_i at_j hc => ?_⟩
  · exact apart i j c e at_i at_j other ((held.mem at_i).2.working hc) ((held.mem at_j).2.working he)
  · have first : First features partitioned s := by
      have keeps : ∀ s e, Held features partitioned t.locks.toList s ∧ First features partitioned s →
          Strict features partitioned s e ∧ Behind features partitioned s e →
          Held features partitioned t.locks.toList (step s e) ∧ First features partitioned (step s e) :=
        fun s e inv given => ⟨inv.1.step e given.1, inv.2.step inv.1 given.1 given.2⟩
      have idle : First features partitioned { now, table := t } :=
        fun _ member => absurd member List.not_mem_nil
      exact (foldl_invariant keeps ⟨Held.start begun now, idle⟩ (strict.and behind)).2
    have working := (held.mem at_i).2.working hc
    refine ⟨fun he => first.alone held at_i at_j working ((held.mem at_j).2.working he), ?_⟩
    exact first.fetch_empty held at_i at_j working

def express : Job where
  worker := .strictOrdering
  features := { priority := true }
  options := { workerType := .strictOrdering, itemsLimit := 1 }

theorem express_accepted : express.Accepted { priority := true } :=
  ⟨rfl, rfl, { outbox := "parcels", options := express.options, hasRepository := true, handler := some .item },
    rfl, _, rfl⟩

def letter : Row := { id := .ofNat 1, payload := "letter" }

def postcard : Row := { id := .ofNat 2, payload := "postcard" }

def telegram : Row := { id := .ofNat 2, payload := "telegram", priority := 1 }

/-- A tick holds the letter and another is about to fetch; one more row comes in between. -/
def meanwhile (row : Row) : List Event :=
  [.insert [letter], .begin express false, .begin express false, .act 0 (.fetch none), .insert [row]]

theorem single_owner_postcard :
    let s := run { now := .epoch } (meanwhile postcard)
    Along step (Strict express.features false) { now := .epoch } (meanwhile postcard) ∧
      Along step (Behind express.features false) { now := .epoch } (meanwhile postcard) ∧
      ∃ c e, s.courses = [c, e] ∧ c.Holds ∧ c.batch = [letter] ∧
        (e.act s.now s.table (.fetch none)).1.session.tick = .ended { status := .empty } := by
  have strict : Along step (Strict express.features false) { now := .epoch } (meanwhile postcard) := by decide
  have behind : Along step (Behind express.features false) { now := .epoch } (meanwhile postcard) := by decide
  have begun : ({} : Table).Begun := fun _ member => absurd member List.not_mem_nil
  have holds : ∃ c e, (run { now := .epoch } (meanwhile postcard)).courses = [c, e] ∧ c.Holds ∧
      c.batch = [letter] ∧ e.session.tick = .fetching := ⟨_, _, rfl, List.cons_ne_nil _ _, rfl, rfl⟩
  obtain ⟨c, e, courses, holds, batch, fetching⟩ := holds
  refine ⟨strict, behind, c, e, courses, holds, batch, ?_⟩
  exact ((single_owner begun strict).2 behind 0 1 c e (courses ▸ rfl) (courses ▸ rfl) holds).2 fetching

/-- Once a row comes in ahead of the letter, the second tick has it while the first is at work. -/
theorem two_owners :
    let events := meanwhile telegram ++ [.act 1 (.fetch none)]
    express.Accepted { priority := true } ∧ Along step (Strict express.features false) { now := .epoch } events ∧
      ∃ c e, (run { now := .epoch } events).courses = [c, e] ∧ c.Holds ∧ e.Holds ∧
        c.batch = [letter] ∧ e.batch = [telegram] :=
  ⟨express_accepted, by decide, _, _, rfl, List.cons_ne_nil _ _, List.cons_ne_nil _ _, rfl, rfl⟩

end Ticks

end Outbox
