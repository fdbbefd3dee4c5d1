import Mathlib.Algebra.GroupWithZero.Nat
import Mathlib.Algebra.Order.BigOperators.Group.List
import Mathlib.Algebra.Order.Group.Nat
import Outbox.Proofs.Interleaving

/-!
Competing ticks are serializable (`serializable`). The steps of a tick after its fetch can be gathered
right behind it (`Competition.interleave_gather`), so a schedule that brings all ticks to their ends
does what they would do one after the other in the order of their fetches. Together they take from
the offer at the start as much as it has and their limits allow (`Competition.total`).
-/

namespace Outbox

theorem Tick.ended_of_remaining {limit : Nat} {tick : Tick} (done : tick.remaining limit = 0) :
    ∃ report, tick = .ended report := by
  cases tick with
  | ended report => exact ⟨report, rfl⟩
  | _ => cases done

namespace Ticks

variable {features : Features} {partitioned : Bool} {v : ItemId → Verdict} {others : List Lock}
  {jobs : List Job} {handlers : Nat → Handlers} {s : State} {schedule : List Nat} {i j : Nat} {c : Course}

def start (now : Instant) (t : Table) (jobs : List Job) : State where
  now
  table := t
  courses := jobs.map fun job => { session := .start job false }

/-- The schedule in which each tick comes to its end before the next begins. -/
def oneByOne (jobs : List Job) (order : List Nat) : List Nat :=
  order.flatMap fun i => List.replicate (jobs[i]?.elim 0 (·.limit + 2)) i

def Fetching (s : State) (i : Nat) : Prop :=
  ∀ c, s.courses[i]? = some c → c.session.tick = .fetching

def Ended (s : State) (i : Nat) : Prop :=
  ∀ c, s.courses[i]? = some c → ∃ report, c.session.tick = .ended report

theorem interleave_append (s : State) (first second : List Nat) :
    interleave handlers s (first ++ second) = interleave handlers (interleave handlers s first) second :=
  List.foldl_append

theorem Competition.interleaved (h : Competition features partitioned v others jobs s)
    (follow : ∀ i, (handlers i).Follow v) (schedule : List Nat) :
    Competition features partitioned v others jobs (interleave handlers s schedule) := by
  induction schedule generalizing s with
  | nil => exact h
  | cons i rest ih => exact ih (h.advanced follow i)

theorem courses_interleave (outside : j ∉ schedule) (s : State) :
    (interleave handlers s schedule).courses[j]? = s.courses[j]? := by
  induction schedule generalizing s with
  | nil => rfl
  | cons i rest ih =>
    rw [List.mem_cons, not_or] at outside
    exact (ih outside.2 _).trans (courses_advance outside.1 s)

/-! ### Gathering the steps of a tick -/

theorem Competition.fetched_self (h : Competition features partitioned v others jobs s) :
    Fetched (advance handlers s i) i := by
  intro c' after
  cases at_i : s.courses[i]? with
  | none =>
    rw [advance_none at_i, at_i] at after
    cases after
  | some c =>
    rw [advance_at at_i] at after
    obtain ⟨below, -⟩ := List.getElem?_eq_some_iff.mp at_i
    cases (List.getElem?_set_self below).symm.trans after
    exact (h.act_offer at_i rfl).1

theorem Competition.fetched_advance (h : Competition features partitioned v others jobs s)
    (fetched : Fetched s i) (j : Nat) : Fetched (advance handlers s j) i := by
  by_cases same : i = j
  · exact same ▸ h.fetched_self
  · intro c after
    exact fetched c ((courses_advance same s).symm.trans after)

theorem Competition.advance_replicate (h : Competition features partitioned v others jobs s)
    (follow : ∀ i, (handlers i).Follow v) (apart : j ≠ i) (fetched : Fetched s i) (n : Nat) :
    advance handlers (interleave handlers s (List.replicate n i)) j =
      interleave handlers (advance handlers s j) (List.replicate n i) := by
  induction n generalizing s with
  | zero => rfl
  | succ n ih =>
    have later := ih (h.advanced follow i) (h.fetched_advance fetched i)
    rw [h.advance_comm follow apart fetched] at later
    exact later

/-- The steps of a tick that has fetched can be taken before those of all others. -/
theorem Competition.interleave_gather (h : Competition features partitioned v others jobs s)
    (follow : ∀ i, (handlers i).Follow v) (fetched : Fetched s i) (schedule : List Nat) :
    interleave handlers s schedule = interleave handlers s
      (List.replicate (schedule.count i) i ++ schedule.filter fun j => !j == i) := by
  induction schedule generalizing s with
  | nil => rfl
  | cons j rest ih =>
    have gathered := ih (h.advanced follow j) (h.fetched_advance fetched j)
    by_cases same : j = i
    · subst same
      rw [List.count_cons_self, List.filter_cons_of_neg (by simp)]
      exact gathered
    · rw [List.count_cons_of_ne same, List.filter_cons_of_pos (by simpa using same)]
      rw [interleave_append, ← h.advance_replicate follow same fetched] at gathered
      exact gathered.trans (interleave_append s _ (j :: _)).symm

/-! ### A tick from its fetch to its end -/

theorem Competition.remaining_interleave (h : Competition features partitioned v others jobs s)
    (follow : ∀ i, (handlers i).Follow v) (at_i : s.courses[i]? = some c) (schedule : List Nat) :
    ∃ c', (interleave handlers s schedule).courses[i]? = some c' ∧
      c'.session.tick.remaining c.session.job.limit ≤
        c.session.tick.remaining c.session.job.limit - schedule.count i := by
  induction schedule generalizing s c with
  | nil => exact ⟨c, at_i, Nat.le_refl _⟩
  | cons j rest ih =>
    by_cases same : j = i
    · subst same
      have moves := h.sound.moves at_i (c.session.tick.asked (handlers j) none)
      have nearer := moves.remaining_le (Tick.asked_awaited (handlers j) none)
      obtain ⟨below, -⟩ := List.getElem?_eq_some_iff.mp at_i
      obtain ⟨c', at_j, near⟩ := ih (h.advanced follow j)
        (by rw [advance_at at_i]; exact List.getElem?_set_self below)
      have job : (c.act s.now s.table (c.session.tick.asked (handlers j) none)).1.session.job =
          c.session.job := moves.job
      rw [job] at near
      refine ⟨c', at_j, near.trans ?_⟩
      rw [List.count_cons_self, Nat.add_comm, Nat.sub_add_eq]
      exact Nat.sub_le_sub_right nearer _
    · rw [List.count_cons_of_ne same]
      exact ih (h.advanced follow j) ((courses_advance (Ne.symm same) s).trans at_i)

theorem Competition.advance_ended (h : Competition features partitioned v others jobs s)
    (ended : Ended s i) : advance handlers s i = s := by
  cases at_i : s.courses[i]? with
  | none => exact advance_none at_i
  | some c =>
    obtain ⟨report, tick⟩ := ended c at_i
    obtain ⟨same, still⟩ := (h.sound.moves at_i (c.session.tick.asked (handlers i) none)).ended tick
    obtain ⟨below, rfl⟩ := List.getElem?_eq_some_iff.mp at_i
    rw [advance_at at_i]
    simp only [Course.act, same, still, Course.follow_ended tick, State.place, List.set_getElem_self]

/-- More steps than bring a tick to its end do nothing. -/
theorem Competition.interleave_enough (h : Competition features partitioned v others jobs s)
    (follow : ∀ i, (handlers i).Follow v) {m n : Nat}
    (ended : Ended (interleave handlers s (List.replicate m i)) i) (more : m ≤ n) :
    interleave handlers s (List.replicate n i) = interleave handlers s (List.replicate m i) := by
  induction n, more using Nat.le_induction with
  | base => rfl
  | succ n _ ih =>
    rw [List.replicate_succ', interleave_append, ih]
    exact (h.interleaved follow _).advance_ended ended

/-- Whatever the others do, a tick is over after `limit + 2` of its own steps. -/
theorem Competition.ended_of_enough (h : Competition features partitioned v others jobs s)
    (follow : ∀ i, (handlers i).Follow v) (fetching : Fetching s i)
    (enough : jobs[i]?.elim 0 (·.limit + 2) ≤ schedule.count i) :
    Ended (interleave handlers s schedule) i := by
  intro c' after
  cases at_i : s.courses[i]? with
  | none =>
    have none := (h.interleaved follow schedule).jobs.trans h.jobs.symm
    have beyond := congrArg List.length none
    rw [List.length_map, List.length_map] at beyond
    obtain ⟨below, -⟩ := List.getElem?_eq_some_iff.mp after
    exact absurd (beyond ▸ below) (Nat.not_lt.mpr (List.getElem?_eq_none_iff.mp at_i))
  | some c =>
    have job : jobs[i]? = some c.session.job := by rw [← h.jobs, List.getElem?_map, at_i]; rfl
    obtain ⟨c', at_c', near⟩ := h.remaining_interleave follow at_i schedule
    cases at_c'.symm.trans after
    rw [job] at enough
    rw [fetching c at_i] at near
    exact Tick.ended_of_remaining (Nat.le_zero.mp (near.trans (Nat.sub_eq_zero_of_le enough).le))

/-- However many steps brought a tick to its end, it is where it is after the steps of `oneByOne`. -/
theorem Competition.interleave_alone (h : Competition features partitioned v others jobs s)
    (follow : ∀ i, (handlers i).Follow v) (fetching : Fetching s i) {n : Nat}
    (ended : Ended (interleave handlers s (List.replicate n i)) i) :
    interleave handlers s (List.replicate n i) =
      interleave handlers s (List.replicate (jobs[i]?.elim 0 (·.limit + 2)) i) := by
  have enough : Ended (interleave handlers s (List.replicate (jobs[i]?.elim 0 (·.limit + 2)) i)) i :=
    h.ended_of_enough follow fetching (List.count_replicate_self ..).ge
  rcases Nat.le_total n (jobs[i]?.elim 0 (·.limit + 2)) with fewer | more
  · exact (h.interleave_enough follow ended fewer).symm
  · exact h.interleave_enough follow enough more

/-- A schedule that brings all its ticks from their fetches to their ends does what they would do one
after the other, in the order of their first steps. -/
theorem Competition.interleave_oneByOne (h : Competition features partitioned v others jobs s)
    (follow : ∀ i, (handlers i).Follow v) (schedule : List Nat) (fetching : ∀ i ∈ schedule, Fetching s i)
    (ended : ∀ i ∈ schedule, Ended (interleave handlers s schedule) i) :
    interleave handlers s schedule = interleave handlers s (oneByOne jobs schedule.eraseDups) := by
  -- by the number of steps: without those of its first tick a schedule is shorter
  induction steps : schedule.length using Nat.strong_induction_on generalizing s schedule with
  | _ n ih =>
    cases schedule with
    | nil => rfl
    | cons i rest =>
      let left := rest.filter fun j => !j == i
      have shorter : left.length < n := steps ▸ Nat.lt_succ_of_le (List.length_filter_le ..)
      have outside : i ∉ left := by simp [left]
      have gathered : interleave handlers s (i :: rest) =
          interleave handlers (interleave handlers s (List.replicate (rest.count i + 1) i)) left :=
        ((h.advanced follow i).interleave_gather follow h.fetched_self rest).trans (interleave_append ..)
      rw [gathered] at ended ⊢
      have alone := h.interleave_alone follow (fetching i List.mem_cons_self) (n := rest.count i + 1)
        fun c at_i => ended i List.mem_cons_self c ((courses_interleave outside _).trans at_i)
      rw [alone] at ended ⊢
      rw [List.eraseDups_cons, oneByOne, List.flatMap_cons, interleave_append]
      refine ih _ shorter (h.interleaved follow _) left (fun j member c at_j => ?_)
        (fun j member => ended j ?_) rfl
      · obtain ⟨within, apart⟩ := List.mem_filter.mp member
        have other : j ∉ List.replicate (jobs[i]?.elim 0 (·.limit + 2)) i := fun same =>
          absurd (List.eq_of_mem_replicate same) (by simpa using apart)
        exact fetching j (List.mem_cons_of_mem _ within) c ((courses_interleave other s).symm.trans at_j)
      · exact List.mem_cons_of_mem _ (List.mem_filter.mp member).1

/-! ### How the offer is shared out -/

/-- What was on offer at the start is in the batches of the ticks and still on offer. As long as
something is, each tick that fetched has its fill. -/
structure Shared (features : Features) (partitioned : Bool) (rows : List Row) (s : State) : Prop where
  all : (s.courses.flatMap (·.batch) ++ s.table.onOffer features s.now partitioned).Perm rows
  fill : ∀ c ∈ s.courses, c.session.tick ≠ .fetching → c.batch.length ≤ c.session.job.limit ∧
    (s.table.onOffer features s.now partitioned ≠ [] → c.batch.length = c.session.job.limit)

variable {rows : List Row}

theorem Shared.advanced (shared : Shared features partitioned rows s)
    (h : Competition features partitioned v others jobs s) (i : Nat) :
    Shared features partitioned rows (advance handlers s i) := by
  cases at_i : s.courses[i]? with
  | none =>
    rw [advance_none at_i]
    exact shared
  | some c =>
    rw [advance_at at_i]
    rcases result : c.act s.now s.table (c.session.tick.asked (handlers i) none) with ⟨c', t'⟩
    obtain ⟨-, job, offer⟩ := h.act_offer at_i result
    obtain ⟨below, at_i'⟩ := List.getElem?_eq_some_iff.mp at_i
    have member := List.mem_of_getElem? at_i
    have before := ((List.getElem_cons_eraseIdx_perm below).flatMap_right (·.batch)).symm
    have after := (List.set_perm_cons_eraseIdx below c').flatMap_right (·.batch)
    rw [at_i'] at before
    rw [List.flatMap_cons] at before after
    constructor
    · refine (after.append_right _).trans (.trans ?_ ((before.append_right _).symm.trans shared.all))
      rcases offer with ⟨-, batch, same⟩ | ⟨fetching, batch, rest⟩
      · show (c'.batch ++ _ ++ t'.onOffer features s.now partitioned).Perm _
        rw [batch, same]
      · have none : c.batch = [] := by
          have tracks := (h.sound.courses c member).tracks
          rwa [fetching] at tracks
        show (c'.batch ++ _ ++ t'.onOffer features s.now partitioned).Perm _
        rw [batch, rest, none, List.nil_append, List.append_assoc]
        refine (List.perm_append_comm_assoc ..).trans ?_
        rw [List.take_append_drop]
    · intro e placed fetched
      show _ ∧ (t'.onOffer features s.now partitioned ≠ [] → _)
      rcases List.mem_or_eq_of_mem_set placed with other | rfl
      · obtain ⟨short, fill⟩ := shared.fill e other fetched
        refine ⟨short, fun left => fill fun none => left ?_⟩
        rcases offer with ⟨-, -, same⟩ | ⟨-, -, rest⟩
        · rw [same, none]
        · rw [rest, none, List.drop_nil]
      · rw [job]
        rcases offer with ⟨fetched, batch, same⟩ | ⟨-, batch, rest⟩
        · rw [batch, same]
          exact shared.fill c member fetched
        · rw [batch, rest, List.length_take]
          refine ⟨Nat.min_le_left .., fun left => Nat.min_eq_left ?_⟩
          exact Nat.le_of_not_le fun short => left (List.drop_eq_nil_of_le short)

theorem Shared.interleaved (shared : Shared features partitioned rows s)
    (h : Competition features partitioned v others jobs s) (follow : ∀ i, (handlers i).Follow v)
    (schedule : List Nat) : Shared features partitioned rows (interleave handlers s schedule) := by
  induction schedule generalizing s with
  | nil => exact shared
  | cons i rest ih => exact ih (shared.advanced h i) (h.advanced follow i)

theorem Shared.total (shared : Shared features partitioned rows s)
    (h : Competition features partitioned v others jobs s)
    (fetched : ∀ c ∈ s.courses, c.session.tick ≠ .fetching) :
    (s.courses.flatMap (·.batch)).length = min rows.length (jobs.map (·.limit)).sum := by
  have whole := shared.all.length_eq
  rw [List.length_append, List.length_flatMap] at whole
  rw [List.length_flatMap, ← h.jobs, List.map_map]
  have short : (s.courses.map (·.batch.length)).sum ≤ (s.courses.map (·.session.job.limit)).sum :=
    List.sum_le_sum fun c member => (shared.fill c member (fetched c member)).1
  by_cases left : s.table.onOffer features s.now partitioned = []
  · rw [left, List.length_nil, Nat.add_zero] at whole
    exact whole.trans (Nat.min_eq_left (whole ▸ short)).symm
  · have full : s.courses.map (·.batch.length) = s.courses.map (·.session.job.limit) :=
      List.map_congr_left fun c member => (shared.fill c member (fetched c member)).2 left
    rw [full] at whole ⊢
    exact (Nat.min_eq_right (whole ▸ Nat.le_add_right ..)).symm

/-! ### From the start -/

section Start

variable {now : Instant} {t : Table}

theorem start_competition (tracked : features.status)
    (competes : ∀ job ∈ jobs, job.Competes features partitioned) (begun : t.Begun) (early : now < .last)
    (delays : ∀ job ∈ jobs, job.Delays v (t.onOffer features now partitioned)) :
    Competition features partitioned v t.locks.toList jobs (start now t jobs) where
  sound := by
    constructor
    · show t.LocksExact t.locks.toList ((jobs.map _).map _)
      rw [List.map_map]
      clear competes delays
      induction jobs with
      | nil => exact .before begun
      | cons job rest ih => exact (Table.LocksExact.cons_closed rfl).mpr ih
    · intro c member
      obtain ⟨job, -, rfl⟩ := List.mem_map.mp member
      exact begin_sound job false
  jobs := by simp [start, Function.comp_def, Session.start]
  tracked
  competes c member := by
    obtain ⟨job, given, rfl⟩ := List.mem_map.mp member
    exact competes job given
  early
  settles c member := by
    obtain ⟨job, -, rfl⟩ := List.mem_map.mp member
    exact ⟨rfl, trivial⟩
  delays c member := by
    obtain ⟨job, given, rfl⟩ := List.mem_map.mp member
    rw [List.append_nil]
    exact delays job given

theorem start_shared : Shared features partitioned (t.onOffer features now partitioned) (start now t jobs) where
  all := by
    show ((jobs.map _).flatMap _ ++ _).Perm _
    rw [List.flatMap_map, List.flatMap_eq_nil_iff.mpr fun _ _ => rfl]
    rfl
  fill c member fetched := by
    obtain ⟨job, -, rfl⟩ := List.mem_map.mp member
    exact absurd rfl fetched

theorem start_fetching (i : Nat) : Fetching (start now t jobs) i := by
  intro c at_i
  obtain ⟨job, -, rfl⟩ := List.mem_map.mp (List.mem_of_getElem? at_i)
  rfl

/-- Competing ticks are serializable. However their steps interleave, each of them comes to its end, and
then the table and all ticks are as if the ticks had run one after the other in the order of their
fetches. No row was handled twice, and as many were as are on offer and as the limits allow. -/
theorem serializable (tracked : features.status)
    (competes : ∀ job ∈ jobs, job.Competes features partitioned) (begun : t.Begun) (early : now < .last)
    (follow : ∀ i, (handlers i).Follow v)
    (delays : ∀ job ∈ jobs, job.Delays v (t.onOffer features now partitioned)) (schedule : List Nat) :
    let s := interleave handlers (start now t jobs) schedule
    (∀ i, jobs[i]?.elim 0 (·.limit + 2) ≤ schedule.count i → Ended s i) ∧
      ((∀ i, Ended s i) →
        s = interleave handlers (start now t jobs) (oneByOne jobs schedule.eraseDups) ∧
        ((s.courses.flatMap (·.handled)).map (·.id)).Nodup ∧
        (s.courses.flatMap (·.handled)).length =
          min (t.onOffer features now partitioned).length (jobs.map (·.limit)).sum) := by
  intro s
  have atStart := start_competition tracked competes begun early delays
  refine ⟨fun i => atStart.ended_of_enough follow (start_fetching i), fun ended => ?_⟩
  have h := atStart.interleaved follow schedule
  have shared := start_shared.interleaved atStart follow schedule
  have reports : ∀ c ∈ s.courses, ∃ report, c.session.tick = .ended report := fun c member => by
    obtain ⟨i, at_i⟩ := List.getElem?_of_mem member
    exact ended i c at_i
  have handled : s.courses.flatMap (·.handled) = s.courses.flatMap (·.batch) := by
    refine List.flatMap_congr fun c member => ?_
    obtain ⟨report, tick⟩ := reports c member
    have whole := (h.settles c member).whole
    rw [tick] at whole
    exact (List.append_nil _).symm.trans whole
  rw [handled]
  refine ⟨atStart.interleave_oneByOne follow schedule (fun i _ => start_fetching i) fun i _ => ended i, ?_,
    shared.total h fun c member fetching => ?_⟩
  · have unique := (shared.all.map (·.id)).nodup_iff.mpr Table.onOffer_nodup
    rw [List.map_append] at unique
    exact (List.nodup_append.mp unique).1
  · obtain ⟨report, tick⟩ := reports c member
    cases fetching.symm.trans tick

end Start

def fourRows : Table where
  rows := .ofList [{ id := .ofNat 1, payload := "a" }, { id := .ofNat 2, payload := "b" },
    { id := .ofNat 3, payload := "c" }, { id := .ofNat 4, payload := "d" }]
  locks := .ofList [⟨.ofNat 3, 1⟩]
  nextTransaction := 2

def rivals : List Job :=
  [{ worker := .competing, features := { status := true }, options := { itemsLimit := 2 } },
    { worker := .batchCompeting, features := { status := true }, options := { itemsLimit := 2 } }]

def butSecond (id : ItemId) : Verdict := if id = .ofNat 2 then .retry else .ok

def answering (_ : Nat) : Handlers where
  item row := some (butSecond row.id)
  batch rows := some { verdicts := rows.map fun r => (r.id, butSecond r.id) }

theorem answering_follow (i : Nat) : (answering i).Follow butSecond where
  item _ := rfl
  batch rows := by
    refine ⟨_, rfl, fun row member => ?_⟩
    have given := List.lookup_graph butSecond (List.mem_map_of_mem (f := Row.id) member)
    rw [List.map_map] at given
    exact given

/-- Two ticks take turns. The one that fetched first puts a row off; the other goes past the row that is
held elsewhere. -/
theorem serializable_rivals :
    let s := interleave answering (start .epoch fourRows rivals) [1, 0, 1, 0, 1, 0, 1, 0]
    (∀ i, Ended s i) ∧
      s = interleave answering (start .epoch fourRows rivals) (oneByOne rivals [1, 0]) ∧
      ((s.courses.flatMap (·.handled)).map (·.id)).Nodup ∧
      (s.courses.flatMap (·.handled)).length = 3 ∧
      s.courses.map (·.session.tick.report?) =
        [some { fetched := 1, processed := 1, status := .completed },
          some { fetched := 2, processed := 1, retried := 1, status := .completed }] := by
  have competes : ∀ job ∈ rivals, job.Competes { status := true } false := by
    intro job given
    rcases List.mem_pair.mp given with rfl | rfl <;> exact ⟨rfl, rfl, rfl, rfl, rfl⟩
  have delays : ∀ job ∈ rivals, job.Delays butSecond (fourRows.onOffer { status := true } .epoch false) := by
    unfold Job.Delays
    decide
  have begun : fourRows.Begun := by unfold Table.Begun; decide
  obtain ⟨ends, serial⟩ := serializable rfl competes begun (by decide) answering_follow delays
    [1, 0, 1, 0, 1, 0, 1, 0]
  have ended : ∀ i, Ended _ i := fun i => ends i <| by
    match i with
    | 0 | 1 => decide
    | _ + 2 => exact Nat.zero_le _
  obtain ⟨same, unique, total⟩ := serial ended
  exact ⟨ended, same, unique, total.trans (by decide), by decide⟩

end Ticks

end Outbox
