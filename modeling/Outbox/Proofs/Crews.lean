import Outbox.Proofs.Chores
import Outbox.Proofs.Coverage

/-!
Several managers on one store. Their creations and retirements take turns, one call at a time
(`Crew.advance`). Where all that managers ever created has ranges of the same days, there is room for what
is wanted (`OnGrid.plan`), so no run fails, and whatever the order of the calls was, the store ends as if
there had been one creation and one retirement (`Crew.safe`).
-/

namespace Outbox

namespace Catalogue

variable {c c' : Catalogue} {call : StoreCall} {answer : Except PartitionError Unit} {table : String}
  {span : Nat} {s : PartitionSettings} {now : Instant} {wanted old : List PartitionRange} {r : PartitionRange}

/-! ### Ranges of one grid -/

/-- Attached are ranges of a grid of `span` days. -/
structure OnGrid (table : String) (span : Nat) (c : Catalogue) : Prop where
  table_eq : c.table = table
  partitioned : c.partitioned
  attached : ∀ r ∈ c.attached.toList, ∃ j : Int, r.Spans table (span * j) (span * (j + 1))

theorem OnGrid.move (h : c.OnGrid table span) (moves : Move c call answer c')
    (days : ∀ r, call = .create r → ∃ j : Int, r.Spans table (span * j) (span * (j + 1))) :
    c'.OnGrid table span where
  table_eq := moves.table_eq.trans h.table_eq
  partitioned := moves.partitioned_eq.trans h.partitioned
  attached r member := by
    rcases moves.attached member with before | ⟨new, -⟩
    · exact h.attached r before
    · exact days r new

theorem OnGrid.plan (h : c.OnGrid table s.spanDays) (fits : s.Fits now)
    (computed : s.ranges table now = .ok wanted) (computed' : s.expiredRanges table now = .ok old) :
    c.Plan wanted (old.map (·.name)) where
  partitioned := h.partitioned
  unique := PartitionSettings.ranges_unique computed
  apart := PartitionSettings.ranges_not_expired computed computed'
  room r given free := by
    obtain ⟨j, spans⟩ := PartitionSettings.ranges_grid fits computed given
    have apart {other : PartitionRange} {k : Int}
        (spans' : other.Spans table (s.spanDays * k) (s.spanDays * (k + 1))) (distinct : other.name ≠ r.name) :
        r.overlaps other = false := by
      by_contra overlap
      exact distinct (spans.name_eq_of_overlaps s.spanDays_pos spans' (by simpa using overlap)).symm
    refine ⟨fun other member => ?_, fun other wants _ distinct => ?_⟩
    · obtain ⟨k, spans'⟩ := h.attached other member
      refine apart spans' fun same => free (.inl ?_)
      exact Keyed.contains_iff.mpr ⟨other, member, same⟩
    · obtain ⟨k, spans'⟩ := PartitionSettings.ranges_grid fits computed wants
      exact apart spans' distinct

end Catalogue

/-! ### What managers have done before -/

namespace Rehearsal.UpkeepRun

variable {r : UpkeepRun} {e : UpkeepStep} {table : String} {span : Nat}

/-- Managers under settings of `span` days, at any time. What they create lies among the days that ids tell
apart; calls may be made to fail, and no one else calls the store. -/
def Maintained (span : Nat) (r : UpkeepRun) : UpkeepStep → Prop
  | .createUpcoming => r.settings.Fits r.now
  | .settings s => s.spanDays = span
  | .retireOld | .setClock _ | .advance _ | .inject _ => True
  | .call _ => False

instance (span : Nat) (r : UpkeepRun) : (e : UpkeepStep) → Decidable (r.Maintained span e)
  | .createUpcoming => inferInstanceAs (Decidable (r.settings.Fits r.now))
  | .settings s => inferInstanceAs (Decidable (s.spanDays = span))
  | .retireOld | .setClock _ | .advance _ | .inject _ => .isTrue trivial
  | .call _ => .isFalse id

structure Gridded (table : String) (span : Nat) (r : UpkeepRun) : Prop where
  settings : r.settings.spanDays = span
  grid : r.store.catalogue.OnGrid table span

namespace Gridded

theorem next (h : r.Gridded table span) (maintained : r.Maintained span e) : (r.next e).Gridded table span := by
  obtain ⟨same, grid⟩ := h
  let Inv (store : Store) : Prop := store.catalogue.OnGrid table span
  cases e with
  | createUpcoming =>
    refine ⟨same, ?_⟩
    refine Upkeep.create_keeps Inv (fun ranges computed x given store grid' => ?_) grid
    rw [grid.table_eq] at computed
    refine grid'.move (Catalogue.store_moves store _) fun y asked => ?_
    cases asked
    exact same ▸ PartitionSettings.ranges_grid maintained computed given
  | retireOld =>
    refine ⟨same, Upkeep.retire_run Inv (fun ranges computed x given store grid' => ?_) grid⟩
    constructor
    · exact grid'.move (Catalogue.store_moves store (.detach x.name)) fun y asked => by cases asked
    · exact grid'.move (Catalogue.store_moves store (.drop x.name)) fun y asked => by cases asked
  | settings s => exact ⟨maintained, grid⟩
  | setClock | advance | inject => exact ⟨same, grid⟩
  | call => exact maintained.elim

theorem run {settings : PartitionSettings} {start : Instant} {steps : List UpkeepStep}
    (maintained : Along UpkeepRun.next (Maintained settings.spanDays) (fresh table start settings) steps) :
    (steps.foldl UpkeepRun.next (fresh table start settings)).Gridded table settings.spanDays := by
  have empty : (fresh table start settings).Gridded table settings.spanDays :=
    ⟨rfl, rfl, rfl, fun _ member => absurd member List.not_mem_nil⟩
  exact foldl_invariant (fun _ _ => Gridded.next) empty maintained

end Gridded

end Rehearsal.UpkeepRun

/-! ### Taking turns -/

/-- A store and the runs that managers have begun on it. -/
structure Crew where
  store : Catalogue
  runs : List ChoreRun

namespace Crew

def begin (c : Catalogue) (s : PartitionSettings) (now : Instant) (chores : List Chore) : Crew :=
  { store := c, runs := chores.map fun chore => ⟨chore, chore.start s c.table now⟩ }

/-- The run at place `i` makes its next call, unless it has ended. -/
def advance (crew : Crew) (i : Nat) : Crew :=
  match crew.runs[i]? with
  | none => crew
  | some run =>
    match run.work.call? with
    | none => crew
    | some call =>
      let (answer, store) := crew.store.perform call
      { store, runs := crew.runs.set i (run.next crew.store.table answer) }

variable {crew : Crew} {i j : Nat} {run : ChoreRun} {call : StoreCall} {start : Catalogue}
  {wanted : List PartitionRange} {expired : List String} {base : Nat}

theorem advance_of_call (there : crew.runs[i]? = some run) (asks : run.work.call? = some call) :
    crew.advance i = { store := (crew.store.perform call).2,
                       runs := crew.runs.set i (run.next crew.store.table (crew.store.perform call).1) } := by
  simp only [advance, there, asks]

theorem advance_of_ended (ended : ∀ run, crew.runs[i]? = some run → run.work.call? = none) :
    crew.advance i = crew := by
  unfold advance
  split
  · rfl
  · rename_i run there
    rw [ended run there]

theorem advance_working (h : start.Working wanted expired base crew.runs crew.store)
    (plan : start.Plan wanted expired) (i : Nat) :
    start.Working wanted expired base (crew.advance i).runs (crew.advance i).store := by
  by_cases ended : ∀ run, crew.runs[i]? = some run → run.work.call? = none
  · rwa [advance_of_ended ended]
  · push Not at ended
    obtain ⟨run, there, unfinished⟩ := ended
    obtain ⟨call, asks⟩ := Option.ne_none_iff_exists'.mp unfinished
    obtain ⟨below, at_i⟩ := List.getElem?_eq_some_iff.mp there
    have place : crew.runs = crew.runs.take i ++ run :: crew.runs.drop (i + 1) := by
      rw [← at_i, ← List.drop_eq_getElem_cons below, List.take_append_drop]
    rw [place] at h
    rw [advance_of_call there asks, List.set_eq_take_append_cons_drop, if_pos below]
    exact h.next plan asks

theorem schedule_working (h : start.Working wanted expired base crew.runs crew.store)
    (plan : start.Plan wanted expired) (schedule : List Nat) :
    start.Working wanted expired base (schedule.foldl advance crew).runs
      (schedule.foldl advance crew).store := by
  induction schedule generalizing crew with
  | nil => exact h
  | cons i rest ih => exact ih (advance_working h plan i)

theorem advance_elsewhere (other : j ≠ i) : (crew.advance j).runs[i]? = crew.runs[i]? := by
  unfold advance
  split
  · rfl
  · split
    · rfl
    · exact List.getElem?_set_ne other

/-- A turn takes a run closer to its end, and those of others leave it where it is. -/
theorem advance_place (there : crew.runs[i]? = some run) (j : Nat) :
    ∃ run', (crew.advance j).runs[i]? = some run' ∧ run'.chore = run.chore ∧
      run'.work.callsLeft ≤ run.work.callsLeft - [j].count i := by
  by_cases own : j = i
  · subst own
    rw [List.count_singleton_self]
    cases asks : run.work.call? with
    | none =>
      have ended : ∀ run, crew.runs[j]? = some run → run.work.call? = none := by
        intro other found
        cases there.symm.trans found
        exact asks
      rw [advance_of_ended ended, Upkeep.callsLeft_of_ended asks]
      exact ⟨run, there, rfl, (Upkeep.callsLeft_of_ended asks).le⟩
    | some call =>
      obtain ⟨below, -⟩ := List.getElem?_eq_some_iff.mp there
      rw [advance_of_call there asks]
      refine ⟨_, List.getElem?_set_self below, rfl, ?_⟩
      exact Nat.le_sub_one_of_lt (Upkeep.callsLeft_next asks _)
  · refine ⟨run, (advance_elsewhere own).trans there, rfl, ?_⟩
    rw [List.count_singleton, if_neg (by simpa using own)]
    exact Nat.le_refl _

theorem schedule_place (there : crew.runs[i]? = some run) (schedule : List Nat) :
    ∃ run', (schedule.foldl advance crew).runs[i]? = some run' ∧ run'.chore = run.chore ∧
      run'.work.callsLeft ≤ run.work.callsLeft - schedule.count i := by
  induction schedule generalizing crew run with
  | nil => exact ⟨run, there, rfl, Nat.le_refl _⟩
  | cons j rest ih =>
    obtain ⟨mid, there', same, left⟩ := advance_place there j
    obtain ⟨last, found, same', left'⟩ := ih there'
    refine ⟨last, found, same'.trans same, ?_⟩
    rw [← List.singleton_append, List.count_append]
    omega

end Crew

/-! ### One creation and one retirement -/

namespace Catalogue

variable {start c : Catalogue} {s : PartitionSettings} {now : Instant} {wanted old : List PartitionRange}
  {expired : List String} {runs : List ChoreRun} {base : Nat} {result result' : Except OutboxError Nat}

theorem Working.settled (h : start.Working wanted expired base runs c)
    (created : ⟨.creation, .ended result⟩ ∈ runs) (retired : ⟨.retirement, .ended result'⟩ ∈ runs) :
    c.Settled wanted expired := by
  constructor
  · cases h.progress _ created with
    | created taken => exact taken
  · cases h.progress _ retired with
    | retired gone => exact gone

theorem begin_working (computed : s.ranges c.table now = .ok wanted)
    (computed' : s.expiredRanges c.table now = .ok old) (chores : List Chore) :
    c.Working wanted (old.map (·.name)) 0 (Crew.begin c s now chores).runs c where
  underway := .refl c _ _
  progress run member := by
    obtain ⟨chore, -, rfl⟩ := List.mem_map.mp member
    cases chore with
    | creation => exact .create computed
    | retirement => exact .retire computed' rfl
  counted := by
    rw [lost_self, Crew.begin, List.map_map]
    simp [Function.comp_def, ChoreRun.dropped_start]

theorem visit_working (plan : c.Plan wanted (old.map (·.name))) (computed : s.ranges c.table now = .ok wanted)
    (computed' : s.expiredRanges c.table now = .ok old) :
    ∃ result result', c.Working wanted (old.map (·.name)) 0
      [⟨.creation, .ended result⟩, ⟨.retirement, .ended result'⟩] (c.visit s now) := by
  have begun : c.Working wanted (old.map (·.name)) 0
      ([] ++ ⟨.creation, .create s c.table now⟩ :: [⟨.retirement, .retire s c.table now⟩]) c :=
    begin_working computed computed' [.creation, .retirement]
  have half : c.Working wanted (old.map (·.name)) 0
      ([⟨.creation, .ended (c.carryOut .creation s now).1⟩] ++ ⟨.retirement, .retire s c.table now⟩ :: [])
      (c.carryOut .creation s now).2 := begun.finish plan
  have whole : c.Working wanted (old.map (·.name)) 0
      ([⟨.creation, .ended (c.carryOut .creation s now).1⟩] ++
        ⟨.retirement, .ended ((Upkeep.retire s c.table now).run c.table perform
          (c.carryOut .creation s now).2).1⟩ :: [])
      ((Upkeep.retire s c.table now).run c.table perform (c.carryOut .creation s now).2).2 := half.finish plan
  rw [← half.underway.table_eq] at whole
  exact ⟨_, _, whole⟩

end Catalogue

namespace Crew

open Rehearsal (UpkeepRun UpkeepStep)

/-- Creations and retirements of several managers may take turns in any order. None of them fails, and each
ends when it has had its turns. Once all have, the store is that of one creation followed by one
retirement if there was one of each, and what they count is what has gone. -/
theorem safe {table : String} {settings s : PartitionSettings} {begun now : Instant} {steps : List UpkeepStep}
    (maintained : Along UpkeepRun.next (UpkeepRun.Maintained s.spanDays)
      (UpkeepRun.fresh table begun settings) steps)
    (same : settings.spanDays = s.spanDays) (enabled : s.enabled) (valid : s.fault? = none) (fits : s.Fits now)
    (since : Instant.first.day ≤ s.rangeDay now - s.spanDays * s.precreateCount.toNat) (chores : List Chore)
    (schedule : List Nat) :
    let c := (steps.foldl UpkeepRun.next (UpkeepRun.fresh table begun settings)).store.catalogue
    let crew := schedule.foldl advance (.begin c s now chores)
    (∀ run ∈ crew.runs, ∀ e, run.work ≠ .ended (.error e)) ∧
    (∀ i chore, chores[i]? = some chore → (chore.start s table now).callsLeft ≤ schedule.count i →
      ∃ n, crew.runs[i]? = some ⟨chore, .ended (.ok n)⟩) ∧
    ((∀ run ∈ crew.runs, ∃ n, run.work = .ended (.ok n)) →
      (.creation ∈ chores → .retirement ∈ chores → crew.store = c.visit s now) ∧
      (crew.runs.map ChoreRun.dropped).sum = c.lost crew.store) := by
  intro c crew
  have grid : c.OnGrid table s.spanDays := same ▸ (UpkeepRun.Gridded.run (same ▸ maintained)).grid
  have bounded := PartitionSettings.bounded_of_valid enabled valid
  obtain ⟨wanted, computed⟩ : ∃ wanted, s.ranges table now = .ok wanted :=
    PartitionSettings.ranges_some bounded fits
  obtain ⟨old, computed'⟩ : ∃ old, s.expiredRanges table now = .ok old :=
    PartitionSettings.expiredRanges_some bounded since
  have plan := grid.plan fits computed computed'
  rw [← grid.table_eq] at computed computed'
  have working : c.Working wanted (old.map (·.name)) 0 crew.runs crew.store :=
    schedule_working (Catalogue.begin_working computed computed' chores) plan schedule
  -- a run keeps its place among the others, so its turns can be counted
  have place : ∀ i chore, chores[i]? = some chore → ∃ run, crew.runs[i]? = some run ∧ run.chore = chore ∧
      run.work.callsLeft ≤ (chore.start s table now).callsLeft - schedule.count i := by
    intro i chore chosen
    have first : (Crew.begin c s now chores).runs[i]? = some ⟨chore, chore.start s c.table now⟩ := by
      rw [begin, List.getElem?_map, chosen, Option.map_some]
    rw [grid.table_eq] at first
    exact schedule_place first schedule
  refine ⟨fun run member e failed => ?_, fun i chore chosen turns => ?_, fun ended => ⟨fun one other => ?_, ?_⟩⟩
  · obtain ⟨chore, work⟩ := run
    cases failed
    obtain ⟨n, fine⟩ := (working.progress _ member).ended_ok
    cases fine
  · obtain ⟨⟨chore, work⟩, there, rfl, left⟩ := place i chore chosen
    have none : work.callsLeft = 0 := Nat.le_zero.mp (left.trans (Nat.sub_eq_zero_of_le turns).le)
    obtain ⟨result, rfl⟩ := Upkeep.ended_of_callsLeft none
    obtain ⟨n, rfl⟩ := (working.progress _ (List.mem_of_getElem? there)).ended_ok
    exact ⟨n, there⟩
  · have done : ∀ chore ∈ chores, ∃ result, ⟨chore, .ended result⟩ ∈ crew.runs := by
      intro chore member
      obtain ⟨i, chosen⟩ := List.getElem?_of_mem member
      obtain ⟨⟨chore, work⟩, there, rfl, -⟩ := place i chore chosen
      have member := List.mem_of_getElem? there
      obtain ⟨n, result⟩ := ended _ member
      cases result
      exact ⟨_, member⟩
    obtain ⟨result, created⟩ := done _ one
    obtain ⟨result', retired⟩ := done _ other
    obtain ⟨_, _, visited⟩ := Catalogue.visit_working plan computed computed'
    exact working.underway.eq_of_settled visited.underway plan.unique (working.settled created retired)
      (visited.settled List.mem_cons_self (List.mem_cons_of_mem _ List.mem_cons_self))
  · have counted := working.counted
    omega

def weekly : PartitionSettings :=
  { enabled := true, daysPerPartition := 7, precreateCount := 3, retentionCount := 1 }

/-- Three weeks are created, and one of them is detached and not dropped. -/
def threeWeeks : List UpkeepStep :=
  [.createUpcoming, .setClock (.ofSecond (49 * 86400)),
    .inject ⟨"drop", "outbox_p19700205", .other "busy"⟩, .retireOld, .settings weekly]

/-- Two retirements get in each other's way. -/
def turns : List Nat := [1, 2, 0, 2, 1, 0, 1, 1, 2, 0, 2]

theorem safe_weekly :
    let start : Instant := .ofSecond (28 * 86400)
    let now : Instant := .ofSecond (49 * 86400)
    let c := (threeWeeks.foldl UpkeepRun.next (UpkeepRun.fresh "outbox" start weekly)).store.catalogue
    let crew := turns.foldl advance (.begin c weekly now [.creation, .retirement, .retirement])
    Along UpkeepRun.next (UpkeepRun.Maintained weekly.spanDays) (UpkeepRun.fresh "outbox" start weekly)
        threeWeeks ∧
      weekly.fault? = none ∧ weekly.Fits now ∧ c.detached.size = 1 ∧
      (∀ run ∈ crew.runs, ∃ n, run.work = .ended (.ok n)) ∧ crew.store = c.visit weekly now ∧
      (crew.runs.map ChoreRun.dropped).sum = c.lost crew.store := by
  intro start now c crew
  have maintained : Along UpkeepRun.next (UpkeepRun.Maintained weekly.spanDays)
      (UpkeepRun.fresh "outbox" start weekly) threeWeeks := by decide +kernel
  have fits : weekly.Fits now := by decide +kernel
  obtain ⟨-, each, all⟩ := safe maintained rfl (by decide) (by decide) fits (by decide +kernel)
    [.creation, .retirement, .retirement] turns
  have three : crew.runs.length = 3 := by decide +kernel
  have ended : ∀ run ∈ crew.runs, ∃ n, run.work = .ended (.ok n) := by
    intro run member
    obtain ⟨i, there⟩ := List.getElem?_of_mem member
    obtain ⟨below, -⟩ := List.getElem?_eq_some_iff.mp there
    have result {chore : Chore} (h : ∃ n, crew.runs[i]? = some ⟨chore, .ended (.ok n)⟩) :
        ∃ n, run.work = .ended (.ok n) := by
      obtain ⟨n, found⟩ := h
      cases there.symm.trans found
      exact ⟨n, rfl⟩
    obtain rfl | rfl | rfl : i = 0 ∨ i = 1 ∨ i = 2 := by omega
    · exact result (each 0 .creation rfl (by decide +kernel))
    · exact result (each 1 .retirement rfl (by decide +kernel))
    · exact result (each 2 .retirement rfl (by decide +kernel))
  obtain ⟨same, counted⟩ := all ended
  exact ⟨maintained, by decide, fits, by decide +kernel, ended, same (by decide) (by decide), counted⟩

end Crew

end Outbox
