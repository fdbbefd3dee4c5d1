import Outbox.Proofs.Lanes

/-!
Outboxes that are started together do not influence each other. Each lane of a schedule does at the
same times what it does on a schedule of its own (`Schedule.undisturbed`), whatever the others hold, fail
at or wait for, whatever it takes where several things are ready and whichever lane goes first: a lane
follows its own events up to a time (`Lane.Follows`), and doing what comes first of all lanes is following
each of them (`Schedule.runFor_follows`).
-/

namespace Outbox.Rehearsal

section Earliest

variable {α : Type} {entries : List (Nat × α)} {best e : Nat × α}

theorem earliest_mem (found : earliest entries = some best) : best ∈ entries := by
  induction entries generalizing best with
  | nil => cases found
  | cons e rest ih =>
    unfold earliest at found
    split at found
    · rename_i later foundLater
      cases found
      split
      · exact List.mem_cons_of_mem _ (ih foundLater)
      · exact List.mem_cons_self
    · cases found
      exact List.mem_cons_self

theorem exists_earliest (member : e ∈ entries) : ∃ best, earliest entries = some best ∧ best.1 ≤ e.1 := by
  induction entries with
  | nil => cases member
  | cons first rest ih =>
    unfold earliest
    rcases List.mem_cons.mp member with rfl | later
    · split
      · refine ⟨_, rfl, ?_⟩
        split <;> omega
      · exact ⟨_, rfl, Nat.le_refl _⟩
    · obtain ⟨best, found, least⟩ := ih later
      simp only [found]
      refine ⟨_, rfl, ?_⟩
      split <;> omega

theorem earliest_le (found : earliest entries = some best) (member : e ∈ entries) : best.1 ≤ e.1 := by
  obtain ⟨best', found', least⟩ := exists_earliest member
  cases found.symm.trans found'
  exact least

end Earliest

/-- What was seen of a lane when it did something, with all it holds from then on: its table, its counts,
the calls of its handlers and of its store. -/
structure Moment where
  time : Nat
  event : Event
  report : Option TickReport
  lane : Lane

namespace Lane

def moment (time : Nat) (now : Instant) (event : Event) (l : Lane) : Moment where
  time
  event
  report := (l.perform time now event).2.report
  lane := (l.perform time now event).1

variable {clock : Nat → Instant} {target e t d : Nat} {l l₁ l₂ : Lane} {ev : Event} {ms ms₁ ms₂ : List Moment}

theorem ready_choose (free : l.held = false) (first : l.Ready t ev) : l.Ready t (l.choose target t ev) := by
  unfold choose
  split
  · rename_i place _
    cases found : ((l.events.filter (·.1 ≤ t)).map (·.2))[place]? with
    | none => exact first
    | some other =>
      obtain ⟨entry, ready, rfl⟩ := List.mem_map.mp (List.mem_of_getElem? found)
      obtain ⟨member, past⟩ := List.mem_filter.mp ready
      exact ready_of_mem member (of_decide_eq_true past)
  · split
    · exact .wait free
    · exact first

theorem next?_some (next : l.next? target e = some (t, ev)) :
    l.held = false ∧ t ≤ target ∧ ∃ d first, (d, first) ∈ l.events ∧ t = max d e ∧ ev = l.choose target t first := by
  unfold next? at next
  split at next
  · cases next
  · obtain ⟨⟨time, first⟩, found, same⟩ := Option.map_eq_some_iff.mp next
    obtain ⟨least, within⟩ := Option.filter_eq_some_iff.mp found
    obtain ⟨entry, member, at_first⟩ := List.mem_map.mp (earliest_mem least)
    cases at_first
    cases same
    exact ⟨Bool.eq_false_iff.mpr ‹_›, of_decide_eq_true within, entry.1, entry.2, member, rfl, rfl⟩

theorem ready_of_next? (next : l.next? target e = some (t, ev)) : e ≤ t ∧ t ≤ target ∧ l.Ready t ev := by
  obtain ⟨free, within, d, first, member, time, rfl⟩ := next?_some next
  exact ⟨by omega, within, ready_choose free (ready_of_mem member (by omega))⟩

theorem exists_next? (free : l.held = false) (member : (d, ev) ∈ l.events) (within : max d e ≤ target) :
    ∃ t ev', l.next? target e = some (t, ev') ∧ t ≤ max d e := by
  have late : (max d e, ev) ∈ l.pending e := List.mem_map.mpr ⟨(d, ev), member, rfl⟩
  obtain ⟨best, found, least⟩ := exists_earliest late
  have near : best.1 ≤ target := Nat.le_trans least within
  refine ⟨best.1, l.choose target best.1 best.2, ?_, least⟩
  unfold next?
  rw [if_neg (by simp [free]), found, Option.filter_some, if_pos (decide_eq_true near), Option.map_some]

theorem next?_eq_none_iff (within : e ≤ target) :
    l.next? target e = none ↔ l.held = true ∨ ∀ d ev, (d, ev) ∈ l.events → target < d := by
  constructor
  · intro nothing
    cases free : l.held with
    | true => exact .inl rfl
    | false =>
      refine .inr fun d ev member => Nat.lt_of_not_le fun past => ?_
      obtain ⟨t, ev', next, -⟩ := exists_next? free member (Nat.max_le.mpr ⟨past, within⟩)
      cases nothing.symm.trans next
  · intro idle
    refine Option.eq_none_iff_forall_ne_some.mpr fun (t, ev) next => ?_
    obtain ⟨free, early, d, first, member, time, -⟩ := next?_some next
    rcases idle with held | late
    · cases free.symm.trans held
    · have := late d first member
      omega

/-- From a time on a lane does one thing after another, on its own, as long as they are due by another
time. -/
inductive Follows (clock : Nat → Instant) (target : Nat) : Nat → Lane → List Moment → Lane → Prop
  | rest {e : Nat} {l : Lane} (nothing : l.next? target e = none) : Follows clock target e l [] l
  | go {e t : Nat} {ev : Event} {l l' : Lane} {ms : List Moment} (next : l.next? target e = some (t, ev))
    (later : Follows clock target t (l.perform t (clock t) ev).1 ms l') :
    Follows clock target e l (l.moment t (clock t) ev :: ms) l'

theorem Follows.unique (h₁ : Follows clock target e l ms₁ l₁) (h₂ : Follows clock target e l ms₂ l₂) :
    ms₁ = ms₂ ∧ l₁ = l₂ := by
  induction h₁ generalizing ms₂ with
  | rest nothing =>
    cases h₂ with
    | rest => exact ⟨rfl, rfl⟩
    | go next => cases nothing.symm.trans next
  | go next _ ih =>
    cases h₂ with
    | rest nothing => cases nothing.symm.trans next
    | go next' later' =>
      cases next.symm.trans next'
      obtain ⟨same, last⟩ := ih later'
      exact ⟨by rw [same], last⟩

/-- At a time nothing is left to do before the outside has its turn. -/
def Still (l : Lane) (time : Nat) : Prop := l.next? time time = none

theorem Follows.still (h : Follows clock target e l ms l₁) (within : e ≤ target) : l₁.Still target := by
  induction h with
  | rest nothing => exact (next?_eq_none_iff (Nat.le_refl _)).mpr ((next?_eq_none_iff within).mp nothing)
  | go next _ ih => exact ih (ready_of_next? next).2.1

theorem Still.follows (h : l.Still target) : Follows clock target target l [] l := .rest h

/-- The lane has been left alone since a time, and nothing of it was passed over. -/
structure Trails (l : Lane) (since elapsed : Nat) : Prop where
  past : since ≤ elapsed
  missed : l.held = false → ∀ d ev, (d, ev) ∈ l.events → elapsed ≤ max d since

theorem Trails.pending (h : l.Trails e t) (free : l.held = false) : l.pending t = l.pending e := by
  refine List.map_congr_left fun entry member => ?_
  have missed := h.missed free entry.1 entry.2 member
  have past := h.past
  have time : max entry.1 t = max entry.1 e := by omega
  simp only [time]

theorem Trails.next? (h : l.Trails e t) : l.next? target t = l.next? target e := by
  unfold Lane.next?
  split
  · rfl
  · rw [h.pending (Bool.eq_false_iff.mpr ‹_›)]

end Lane

namespace Schedule

/-- What is seen of a lane while at most a number of things are done up to a time. -/
def momentsFor (i target : Nat) : Nat → Schedule → List Moment
  | 0, _ => []
  | n + 1, s =>
    match s.next? target with
    | some (time, lane, event) =>
      let later := momentsFor i target n (s.perform time lane event)
      if lane = i then (s.lanes[i]?.map (Lane.moment time (s.clock time) event)).toList ++ later else later
    | none => []

def moments (i target : Nat) (s : Schedule) : List Moment := s.momentsFor i target (s.work target)

def Orderly (s : Schedule) : Prop := ∀ l ∈ s.lanes, l.Orderly

variable {s : Schedule} {i j n t target e : Nat} {l : Lane} {ev : Event}

/-! ### What comes first of all -/

theorem mem_upcoming (here : s.lanes[i]? = some l) (next : l.next? target s.elapsed = some (t, ev)) :
    (t, i, ev) ∈ s.upcoming target := by
  have placed : (l, i) ∈ s.lanes.zipIdx := List.mem_zipIdx_iff_getElem?.mpr here
  refine List.mem_filterMap.mpr ⟨(l, i), placed, ?_⟩
  simp only [next, Option.map_some]

/-- Whichever lane has its turn, nothing of another one is due before. -/
theorem next?_least {first : Nat × Nat × Event} (found : s.next? target = some first) :
    first ∈ s.upcoming target ∧ ∀ other ∈ s.upcoming target, first.1 ≤ other.1 := by
  obtain ⟨least, minimal, chosen⟩ := Option.map_eq_some_iff.mp found
  have due : first ∈ s.upcoming target ∧ first.1 = least.1 := by
    rw [← chosen]
    cases there : ((s.upcoming target).filter (·.1 = least.1))[s.turns s.taken]? with
    | none => exact ⟨earliest_mem minimal, rfl⟩
    | some own =>
      obtain ⟨member, same⟩ := List.mem_filter.mp (List.mem_of_getElem? there)
      exact ⟨member, of_decide_eq_true same⟩
  exact ⟨due.1, fun other member => due.2 ▸ earliest_le minimal member⟩

theorem next?_some (found : s.next? target = some (t, j, ev)) :
    ∃ l, s.lanes[j]? = some l ∧ l.next? target s.elapsed = some (t, ev) := by
  obtain ⟨⟨l, k⟩, placed, next⟩ := List.mem_filterMap.mp (next?_least found).1
  obtain ⟨entry, lane, same⟩ := Option.map_eq_some_iff.mp next
  cases same
  exact ⟨l, List.mem_zipIdx_iff_getElem?.mp placed, lane⟩

theorem next?_none (nothing : s.next? target = none) (here : s.lanes[i]? = some l) :
    l.next? target s.elapsed = none := by
  refine Option.eq_none_iff_forall_ne_some.mpr fun (t, ev) next => ?_
  obtain ⟨best, found, -⟩ := exists_earliest (mem_upcoming here next)
  rw [next?, found] at nothing
  cases nothing

/-! ### One thing at a time -/

theorem perform_eq (orderly : s.Orderly) (here : s.lanes[j]? = some l) (ready : l.Ready t ev) :
    s.perform t j ev = { s with
      elapsed := t, taken := s.taken + 1, lanes := s.lanes.set j (l.perform t (s.clock t) ev).1 } := by
  have calm : (l.perform t (s.clock t) ev).2.cancelled = false :=
    ((orderly l (List.mem_of_getElem? here)).perform ready).2
  simp only [perform, here, now, calm, Bool.false_eq_true, if_false]

theorem Orderly.perform (orderly : s.Orderly) (here : s.lanes[j]? = some l) (ready : l.Ready t ev) :
    (s.perform t j ev).Orderly := by
  rw [perform_eq orderly here ready]
  intro l' member
  rcases List.mem_or_eq_of_mem_set member with old | rfl
  · exact orderly l' old
  · exact ((orderly l (List.mem_of_getElem? here)).perform ready).1

theorem foldr_le {lanes : List Lane} {f g : Lane → Nat} (each : ∀ l ∈ lanes, g l ≤ f l) :
    lanes.foldr (fun l n => g l + n) 0 ≤ lanes.foldr (fun l n => f l + n) 0 := by
  induction lanes with
  | nil => exact Nat.le_refl _
  | cons first rest ih =>
    have head := each first List.mem_cons_self
    have sums := ih fun l member => each l (List.mem_cons_of_mem _ member)
    simp only [List.foldr_cons]
    omega

theorem foldr_set_lt {lanes : List Lane} {f g : Lane → Nat} {l' : Lane} (here : lanes[j]? = some l)
    (less : g l' < f l) (others : ∀ l ∈ lanes, g l ≤ f l) :
    (lanes.set j l').foldr (fun l n => g l + n) 0 < lanes.foldr (fun l n => f l + n) 0 := by
  induction lanes generalizing j with
  | nil => cases here
  | cons first rest ih =>
    have tail (l : Lane) (member : l ∈ rest) : g l ≤ f l := others l (List.mem_cons_of_mem _ member)
    cases j with
    | zero =>
      cases here
      have sums := foldr_le tail
      simp only [List.set_cons_zero, List.foldr_cons]
      omega
    | succ j =>
      have sums := ih here tail
      have head := others first List.mem_cons_self
      simp only [List.set_cons_succ, List.foldr_cons]
      omega

theorem Orderly.work_perform (orderly : s.Orderly) (here : s.lanes[j]? = some l) (ready : l.Ready t ev)
    (later : s.elapsed ≤ t) (within : t ≤ target) : (s.perform t j ev).work target < s.work target := by
  rw [perform_eq orderly here ready]
  refine foldr_set_lt here ?_ fun l _ => Lane.work_antitone later
  exact (orderly l (List.mem_of_getElem? here)).work_perform ready later within

/-! ### Doing all that is due -/

theorem Orderly.next?_none_of_idle (orderly : s.Orderly) (idle : s.work target = 0) : s.next? target = none := by
  refine Option.eq_none_iff_forall_ne_some.mpr fun (t, j, ev) found => ?_
  obtain ⟨l, here, next⟩ := next?_some found
  obtain ⟨later, within, ready⟩ := Lane.ready_of_next? next
  have less := orderly.work_perform here ready later within
  omega

structure Beside (s s' : Schedule) : Prop where
  clock : s'.clock = s.clock
  hasParent : s'.hasParent = s.hasParent
  length : s'.lanes.length = s.lanes.length

theorem runFor_beside (orderly : s.Orderly) : Beside s (s.runFor target n) ∧ (s.runFor target n).Orderly := by
  induction n generalizing s with
  | zero => exact ⟨⟨rfl, rfl, rfl⟩, orderly⟩
  | succ n ih =>
    unfold runFor
    split
    · rename_i t j ev found
      obtain ⟨l, here, next⟩ := next?_some found
      obtain ⟨-, -, ready⟩ := Lane.ready_of_next? next
      have same := perform_eq orderly here ready
      obtain ⟨beside, after⟩ := ih (orderly.perform here ready)
      refine ⟨⟨?_, ?_, ?_⟩, after⟩
      · rw [beside.clock, same]
      · rw [beside.hasParent, same]
      · rw [beside.length, same, List.length_set]
    · exact ⟨⟨rfl, rfl, rfl⟩, orderly⟩

theorem elapsed_runFor : (s.runFor target n).elapsed = target := by
  induction n generalizing s with
  | zero => rfl
  | succ n ih =>
    unfold runFor
    split
    · exact ih
    · rfl

theorem rest_of_next?_none (nothing : s.next? target = none) (here : s.lanes[i]? = some l)
    (trails : l.Trails e s.elapsed) : l.Follows s.clock target e [] l :=
  .rest (trails.next?.symm.trans (next?_none nothing here))

/-- Another lane's turn is nothing that this lane could have passed over. -/
theorem trails_of_next? (found : s.next? target = some (t, j, ev)) (here : s.lanes[i]? = some l)
    (trails : l.Trails e s.elapsed) : l.Trails e t := by
  obtain ⟨m, -, turn⟩ := next?_some found
  obtain ⟨later, within, -⟩ := Lane.ready_of_next? turn
  refine ⟨Nat.le_trans trails.past later, fun free d own member => ?_⟩
  have missed := trails.missed free d own member
  by_cases near : max d s.elapsed ≤ target
  · obtain ⟨u, other, next, least⟩ := Lane.exists_next? free member near
    have first : t ≤ u := (next?_least found).2 _ (mem_upcoming here next)
    omega
  · omega

/-- While all lanes do what comes first, each follows its own events. -/
theorem runFor_follows (orderly : s.Orderly) (enough : s.work target ≤ n) (here : s.lanes[i]? = some l)
    (trails : l.Trails e s.elapsed) :
    ∃ l', (s.runFor target n).lanes[i]? = some l' ∧ l.Follows s.clock target e (s.momentsFor i target n) l' := by
  induction n generalizing s l e with
  | zero =>
    have nothing := orderly.next?_none_of_idle (Nat.le_zero.mp enough)
    exact ⟨l, here, rest_of_next?_none nothing here trails⟩
  | succ n ih =>
    cases found : s.next? target with
    | none =>
      simp only [runFor, momentsFor, found]
      exact ⟨l, here, rest_of_next?_none found here trails⟩
    | some first =>
      obtain ⟨t, j, ev⟩ := first
      obtain ⟨m, at_j, next⟩ := next?_some found
      obtain ⟨later, within, ready⟩ := Lane.ready_of_next? next
      have less := orderly.work_perform at_j ready later within
      have after := orderly.perform at_j ready
      have same := perform_eq orderly at_j ready
      have clock : (s.perform t j ev).clock = s.clock := by rw [same]
      have elapsed : (s.perform t j ev).elapsed = t := by rw [same]
      simp only [runFor, momentsFor, found]
      by_cases own : j = i
      · subst own
        cases at_j.symm.trans here
        have there : (s.perform t j ev).lanes[j]? = some (l.perform t (s.clock t) ev).1 := by
          rw [same]
          exact List.getElem?_set_self (List.getElem?_eq_some_iff.mp here).1
        have moved : (l.perform t (s.clock t) ev).1.Trails t (s.perform t j ev).elapsed := by
          rw [elapsed]
          exact ⟨Nat.le_refl t, fun _ _ _ _ => Nat.le_max_right ..⟩
        obtain ⟨l', last, follows⟩ := ih after (by omega) there moved
        rw [clock] at follows
        rw [trails.next?] at next
        refine ⟨l', last, ?_⟩
        rw [if_pos rfl, here]
        exact .go next follows
      · have there : (s.perform t j ev).lanes[i]? = some l := by
          rw [same]
          exact (List.getElem?_set_ne own).trans here
        have stays : l.Trails e (s.perform t j ev).elapsed := by
          rw [elapsed]
          exact trails_of_next? found here trails
        obtain ⟨l', last, follows⟩ := ih after (by omega) there stays
        rw [clock] at follows
        refine ⟨l', last, ?_⟩
        rw [if_neg own]
        exact follows

theorem runTo_beside (orderly : s.Orderly) : Beside s (s.runTo target) ∧ (s.runTo target).Orderly :=
  runFor_beside orderly

theorem runTo_follows (orderly : s.Orderly) (here : s.lanes[i]? = some l) :
    ∃ l', (s.runTo target).lanes[i]? = some l' ∧ l.Follows s.clock target s.elapsed (s.moments i target) l' :=
  runFor_follows orderly (Nat.le_refl _) here ⟨Nat.le_refl _, fun _ _ _ _ => Nat.le_max_right ..⟩

end Schedule

/-! ### One lane of many, and alone -/

/-- What a step from outside is to a lane that is the only one of its schedule. -/
def ScheduleStep.concern? (i : Nat) : ScheduleStep → Option ScheduleStep
  | .update j o => if j = i then some (.update 0 o) else none
  | .modify j patch => if j = i then some (.modify 0 patch) else none
  | .insert j rows => if j = i then some (.insert 0 rows) else none
  | .inject j fault => if j = i then some (.inject 0 fault) else none
  | .injectStore j fault => if j = i then some (.injectStore 0 fault) else none
  | step => some step

namespace Schedule

def stepMoments (i : Nat) (s : Schedule) (step : ScheduleStep) : List Moment :=
  (s.change step).2.moments i ((s.change step).2.elapsed + step.nanos)

def run (s : Schedule) (steps : List ScheduleStep) : Schedule := steps.foldl (fun s step => (s.step step).2) s

def history (i : Nat) : Schedule → List ScheduleStep → List Moment
  | _, [] => []
  | s, step :: rest => s.stepMoments i step ++ history i (s.step step).2 rest

/-- A schedule with a lane among others and one with that lane alone. -/
structure Alike (i : Nat) (s a : Schedule) (l : Lane) : Prop where
  orderly : s.Orderly
  here : s.lanes[i]? = some l
  alone : a.lanes = [l]
  clock : a.clock = s.clock
  elapsed : a.elapsed = s.elapsed
  hasParent : a.hasParent = s.hasParent

variable {s a : Schedule} {i j target : Nat} {l : Lane}

theorem Alike.own (h : Alike i s a l) : a.Orderly ∧ a.lanes[0]? = some l := by
  rw [h.alone]
  refine ⟨fun l' member => ?_, rfl⟩
  rw [h.alone] at member
  cases List.mem_singleton.mp member
  exact h.orderly l (List.mem_of_getElem? h.here)

theorem Alike.runTo (h : Alike i s a l) (within : s.elapsed ≤ target) :
    s.moments i target = a.moments 0 target ∧
      ∃ l', Alike i (s.runTo target) (a.runTo target) l' ∧ l'.Still target := by
  obtain ⟨orderly, only⟩ := h.own
  obtain ⟨l₁, here, follows⟩ := runTo_follows h.orderly h.here
  obtain ⟨l₂, there, follows'⟩ := runTo_follows orderly only
  rw [h.clock, h.elapsed] at follows'
  obtain ⟨moments, same⟩ := follows.unique follows'
  subst same
  refine ⟨moments, l₁, ?_, follows.still within⟩
  obtain ⟨beside, after⟩ : Beside s (s.runTo target) ∧ (s.runTo target).Orderly := runTo_beside h.orderly
  obtain ⟨beside', -⟩ : Beside a (a.runTo target) ∧ _ := runTo_beside orderly
  have alone : (a.runTo target).lanes = [l₁] := by
    have length : (a.runTo target).lanes.length = 1 := by rw [beside'.length, h.alone, List.length_singleton]
    obtain ⟨only', single⟩ := List.length_eq_one_iff.mp length
    rw [single] at there ⊢
    cases there
    rfl
  refine ⟨after, here, alone, ?_, ?_, ?_⟩
  · rw [beside'.clock, beside.clock, h.clock]
  · exact elapsed_runFor.trans elapsed_runFor.symm
  · rw [beside'.hasParent, beside.hasParent, h.hasParent]

/-- A lane with nothing to do is left alone when others have. -/
theorem Alike.settle (h : Alike i s a l) (still : l.Still s.elapsed) :
    s.moments i s.elapsed = [] ∧ Alike i s.settle a l := by
  obtain ⟨l₁, here, follows⟩ : ∃ l', s.settle.lanes[i]? = some l' ∧ l.Follows s.clock s.elapsed s.elapsed _ l' :=
    runTo_follows h.orderly h.here
  obtain ⟨moments, same⟩ := follows.unique still.follows
  obtain ⟨beside, after⟩ : Beside s s.settle ∧ s.settle.Orderly := runTo_beside h.orderly
  refine ⟨moments, after, same ▸ here, h.alone, ?_, ?_, ?_⟩
  · rw [beside.clock, h.clock]
  · exact h.elapsed.trans elapsed_runFor.symm
  · rw [beside.hasParent, h.hasParent]

/-! ### Steps -/

section Edits

variable {f : Lane → Lane} (ordered : ∀ l : Lane, l.Orderly → (f l).Orderly)

include ordered

theorem Orderly.modifyLane (orderly : s.Orderly) (j : Nat) : (s.modifyLane j f).Orderly := by
  intro l' member
  obtain ⟨k, at_k⟩ := List.getElem?_of_mem member
  simp only [Schedule.modifyLane, List.getElem?_modify] at at_k
  obtain ⟨before, old, same⟩ := Option.map_eq_some_iff.mp at_k
  have was := orderly before (List.mem_of_getElem? old)
  split at same
  · exact same ▸ (ordered before was).release
  · exact same ▸ was

theorem Alike.modify_own (h : Alike i s a l) :
    Alike i (s.modifyLane i f) (a.modifyLane 0 f) (f l).release := by
  refine ⟨Orderly.modifyLane ordered h.orderly i, ?_, ?_, h.clock, h.elapsed, h.hasParent⟩
  · simp only [modifyLane, List.getElem?_modify, h.here]
    rfl
  · simp only [modifyLane, h.alone]
    rfl

theorem Alike.modify_other (h : Alike i s a l) (other : j ≠ i) : Alike i (s.modifyLane j f) a l := by
  refine ⟨Orderly.modifyLane ordered h.orderly j, ?_, h.alone, h.clock, h.elapsed, h.hasParent⟩
  simp only [modifyLane, List.getElem?_modify, h.here, if_neg other]
  rfl

/-- What is done to all lanes at once is done to each. -/
theorem Alike.map (h : Alike i s a l) :
    Alike i { s with lanes := s.lanes.map f } { a with lanes := a.lanes.map f } (f l) := by
  refine ⟨fun l' member => ?_, ?_, ?_, h.clock, h.elapsed, h.hasParent⟩
  · obtain ⟨before, old, rfl⟩ := List.mem_map.mp member
    exact ordered before (h.orderly before old)
  · simp only [List.getElem?_map, h.here, Option.map_some]
  · simp only [h.alone, List.map_cons, List.map_nil]

end Edits

theorem Alike.release (h : Alike i s a l) : Alike i s.release a.release l.release :=
  h.map fun _ orderly => orderly.release

theorem Alike.cancel (h : Alike i s a l) : Alike i s.cancel a.cancel l.cancel := by
  have stopped : Alike i { s with lanes := s.lanes.map Lane.cancel } { a with lanes := a.lanes.map Lane.cancel } _ :=
    h.map fun _ orderly => orderly.cancel
  exact ⟨stopped.orderly, stopped.here, stopped.alone, h.clock, h.elapsed, h.hasParent⟩

theorem Alike.change_own (h : Alike i s a l) {x y : ScheduleStep} (own : x.concern? i = some y) :
    x.nanos = y.nanos ∧ ∃ l', Alike i (s.change x).2 (a.change y).2 l' := by
  cases x with
  | sleep ms =>
    cases own
    exact ⟨rfl, _, h.release⟩
  | setClock clock =>
    cases own
    have released := h.release
    exact ⟨rfl, _, released.orderly, released.here, released.alone, rfl, h.elapsed, h.hasParent⟩
  | update j o =>
    obtain ⟨rfl, ⟨⟩⟩ := Option.ite_none_right_eq_some.mp own
    exact ⟨rfl, _, h.modify_own fun _ orderly => orderly.update o⟩
  | modify j patch =>
    obtain ⟨rfl, ⟨⟩⟩ := Option.ite_none_right_eq_some.mp own
    exact ⟨rfl, _, h.modify_own fun _ orderly => orderly.modify patch⟩
  | insert j rows =>
    obtain ⟨rfl, ⟨⟩⟩ := Option.ite_none_right_eq_some.mp own
    exact ⟨rfl, _, h.modify_own fun _ orderly => orderly.withBench _⟩
  | inject j fault =>
    obtain ⟨rfl, ⟨⟩⟩ := Option.ite_none_right_eq_some.mp own
    exact ⟨rfl, _, h.modify_own fun _ orderly => orderly.withBench _⟩
  | injectStore j fault =>
    obtain ⟨rfl, ⟨⟩⟩ := Option.ite_none_right_eq_some.mp own
    exact ⟨rfl, _, h.modify_own fun _ orderly => orderly.inject fault⟩
  | requestShutdown =>
    cases own
    exact ⟨rfl, _, h.cancel⟩
  | cancelParent =>
    cases own
    simp only [change, h.hasParent]
    split
    · exact ⟨trivial, _, h.cancel⟩
    · exact ⟨trivial, l, h⟩
  | shutdownAndJoin =>
    cases own
    have cancelled := h.cancel
    exact ⟨rfl, _, cancelled.orderly, cancelled.here, cancelled.alone, h.clock, h.elapsed, h.hasParent⟩

theorem Alike.change_other (h : Alike i s a l) {x : ScheduleStep} (other : x.concern? i = none) :
    x.nanos = 0 ∧ (s.change x).2.elapsed = s.elapsed ∧ Alike i (s.change x).2 a l := by
  cases x with
  | update j o =>
    have elsewhere : j ≠ i := fun same => nomatch ite_eq_right_iff.mp other same
    exact ⟨rfl, rfl, h.modify_other (fun _ orderly => orderly.update o) elsewhere⟩
  | modify j patch =>
    have elsewhere : j ≠ i := fun same => nomatch ite_eq_right_iff.mp other same
    exact ⟨rfl, rfl, h.modify_other (fun _ orderly => orderly.modify patch) elsewhere⟩
  | insert j rows =>
    have elsewhere : j ≠ i := fun same => nomatch ite_eq_right_iff.mp other same
    exact ⟨rfl, rfl, h.modify_other (fun _ orderly => orderly.withBench _) elsewhere⟩
  | inject j fault =>
    have elsewhere : j ≠ i := fun same => nomatch ite_eq_right_iff.mp other same
    exact ⟨rfl, rfl, h.modify_other (fun _ orderly => orderly.withBench _) elsewhere⟩
  | injectStore j fault =>
    have elsewhere : j ≠ i := fun same => nomatch ite_eq_right_iff.mp other same
    exact ⟨rfl, rfl, h.modify_other (fun _ orderly => orderly.inject fault) elsewhere⟩
  | sleep => cases other
  | setClock => cases other
  | requestShutdown => cases other
  | cancelParent => cases other
  | shutdownAndJoin => cases other

theorem Alike.step_own (h : Alike i s a l) {x y : ScheduleStep} (own : x.concern? i = some y) :
    s.stepMoments i x = a.stepMoments 0 y ∧
      ∃ l', Alike i (s.step x).2 (a.step y).2 l' ∧ l'.Still (s.step x).2.elapsed := by
  obtain ⟨nanos, l₁, changed⟩ := h.change_own own
  obtain ⟨moments, l₂, alike, still⟩ := changed.runTo (Nat.le_add_right _ x.nanos)
  unfold stepMoments step
  dsimp only
  rw [changed.elapsed, ← nanos]
  refine ⟨moments, l₂, alike, ?_⟩
  exact elapsed_runFor ▸ still

theorem Alike.step_other (h : Alike i s a l) (still : l.Still s.elapsed) {x : ScheduleStep}
    (other : x.concern? i = none) :
    s.stepMoments i x = [] ∧ Alike i (s.step x).2 a l ∧ l.Still (s.step x).2.elapsed := by
  obtain ⟨nanos, elapsed, changed⟩ := h.change_other other
  rw [← elapsed] at still
  obtain ⟨moments, alike⟩ := changed.settle still
  unfold stepMoments step
  dsimp only
  rw [nanos, Nat.add_zero]
  refine ⟨moments, alike, ?_⟩
  exact elapsed_runFor ▸ still

/-- Among others a lane goes through the same, and ends the same, as alone under its own part of the steps. -/
theorem Alike.run (h : Alike i s a l) (still : l.Still s.elapsed) (steps : List ScheduleStep) :
    s.history i steps = a.history 0 (steps.filterMap (·.concern? i)) ∧
      (s.run steps).lanes[i]? = (a.run (steps.filterMap (·.concern? i))).lanes[0]? := by
  induction steps generalizing s a l with
  | nil => exact ⟨rfl, h.here.trans h.own.2.symm⟩
  | cons x rest ih =>
    cases concern : x.concern? i with
    | none =>
      obtain ⟨nothing, alike, still⟩ := h.step_other still concern
      obtain ⟨later, last⟩ := ih alike still
      rw [List.filterMap_cons_none concern]
      refine ⟨?_, last⟩
      rw [history, nothing, List.nil_append, later]
    | some y =>
      obtain ⟨first, l', alike, still⟩ := h.step_own concern
      obtain ⟨later, last⟩ := ih alike still
      rw [List.filterMap_cons_some concern]
      refine ⟨?_, last⟩
      rw [history, history, first, later]

/-- All that is seen of a lane from the start on, while steps from outside follow. -/
def course (i : Nat) (s : Schedule) (steps : List ScheduleStep) : List Moment :=
  s.moments i s.elapsed ++ s.settle.history i steps

/-- Outboxes that are started together do not influence each other: each goes through the same, at the
same times and with the same tables, counts, reports and calls, as it does alone under the steps that
concern it. So it is whatever each lane takes at its choices, and whichever lane goes first. -/
theorem undisturbed (start : Instant) (hasParent : Bool) (turns : Nat → Nat) {lanes : List Lane}
    (built : ∀ l ∈ lanes, l.Built ∧ l.handling.Gentle) (here : lanes[i]? = some l) (steps : List ScheduleStep) :
    let s := { opened start hasParent lanes with turns }
    let a := opened start hasParent [l]
    course i s steps = course 0 a (steps.filterMap (·.concern? i)) ∧
      (s.settle.run steps).lanes[i]? = (a.settle.run (steps.filterMap (·.concern? i))).lanes[0]? := by
  intro s a
  have orderly : s.Orderly := fun l member => Lane.Orderly.of_built (built l member).1 (built l member).2
  have alike : Alike i s a l := ⟨orderly, here, rfl, rfl, rfl, rfl⟩
  obtain ⟨first, l', settled, still⟩ := alike.runTo (Nat.le_refl s.elapsed)
  obtain ⟨later, last⟩ := settled.run (elapsed_runFor ▸ still) steps
  refine ⟨?_, last⟩
  unfold course
  rw [first]
  exact congrArg _ later

/-! ### Neighbours -/

def obliging : Handling := fun _ _ _ b => { turn := .said (.verdict .ok), bench := b }

/-- Handlers that wait second after second and never come back. -/
def stuck : Handling := fun _ _ _ b => { turn := .paused 1000, bench := b }

theorem obliging_gentle : obliging.Gentle := fun _ _ _ _ _ => ⟨rfl, nofun⟩

theorem stuck_gentle : stuck.Gentle := fun _ _ _ _ _ => ⟨rfl, nofun⟩

def planned (handling : Handling) (choices : Nat → Choice) (plan : Plan) (catalogue : Option Catalogue)
    (rows : List Row) : List Lane :=
  match Lane.build .epoch plan catalogue rows false with
  | .ok l => [{ l with handling, choices }]
  | .error _ => []

theorem built_of_planned {handling : Handling} {choices : Nat → Choice} {plan : Plan}
    {catalogue : Option Catalogue} {rows : List Row} (gentle : handling.Gentle)
    (member : l ∈ planned handling choices plan catalogue rows) : l.Built ∧ l.handling.Gentle := by
  unfold planned at member
  split at member
  · rename_i first built
    cases List.mem_singleton.mp member
    exact ⟨⟨_, _, _, _, _, _, first, built, rfl⟩, gentle⟩
  · cases member

def everySecond (outbox : String) (partitioned : Bool) : Plan where
  outbox
  options := { workerType := .strictOrdering, workerDelay := .ofMillis 1000, partitions := { enabled := partitioned } }

def letter : Row := { id := .ofNat 1, payload := "letter" }

/-- Once the outside goes first, and the timer goes before new options. -/
def patient (n : Nat) : Choice := if n = 1 then .wait else .take 1

def eager (_ : Nat) : Choice := .take 0

/-- The handlers of one outbox are stuck, and the partitions of another cannot be made. -/
def neighbours : List Lane :=
  planned obliging patient (everySecond "orders" false) none [letter] ++
    planned stuck eager (everySecond "letters" false) none [letter] ++
    planned obliging eager (everySecond "parcels" true) (some { table := "parcels", partitioned := false }) []

def slower : Options := { (everySecond "orders" false).options with workerDelay := .ofMillis 3000 }

def outside : List ScheduleStep :=
  [.insert 1 [{ letter with id := .ofNat 2 }], .sleep 2000, .update 0 slower, .requestShutdown]

/-- An update comes when the timer is due, and the tick is run before it is noticed. -/
theorem undisturbed_neighbours :
    let s := { opened .epoch false neighbours with turns := fun _ => 1 }
    neighbours.length = 3 ∧
    outside.filterMap (·.concern? 0) = [.sleep 2000, .update 0 slower, .requestShutdown] ∧
    (∃ l, neighbours[0]? = some l ∧
      course 0 s outside = course 0 (opened .epoch false [l]) (outside.filterMap (·.concern? 0))) ∧
    (course 0 s outside).map (·.time) = [1000000000, 2000000000, 2000000000, 2000000000, 2000000000] ∧
    (course 0 s outside).map (·.event) = [.fire, .wait, .fire, .notice, .stop] ∧
    (course 0 s outside).map (·.report) =
      [some { fetched := 1, processed := 1, status := .completed }, none, some { status := .empty }, none, none] := by
  intro s
  have length : neighbours.length = 3 := by decide +kernel
  have built : ∀ l ∈ neighbours, l.Built ∧ l.handling.Gentle := by
    intro l member
    rcases List.mem_append.mp member with first | third
    · rcases List.mem_append.mp first with first | second
      · exact built_of_planned obliging_gentle first
      · exact built_of_planned stuck_gentle second
    · exact built_of_planned obliging_gentle third
  obtain ⟨l, here⟩ : ∃ l, neighbours[0]? = some l :=
    ⟨_, List.getElem?_eq_getElem (by rw [length]; decide)⟩
  have alone := (undisturbed .epoch false (fun _ => 1) built here outside).1
  exact ⟨length, rfl, ⟨l, here, alone⟩, by decide +kernel, by decide +kernel, by decide +kernel⟩

end Schedule

end Outbox.Rehearsal
