import Mathlib.Data.List.Induction
import Outbox.Loop.Partition
import Outbox.Proofs.Registration
import Outbox.Proofs.Runs
import Outbox.Proofs.UpkeepTraces

/-!
The loop that looks after partitions among everything it waits for: the store's answers, the end of its
rest, new options and its token. Each cycle keeps to the settings it began with, creates before it retires
and is followed by one period of rest, and nothing but the token and a misconfiguration ends the loop
(`ends_for_reason`). A cycle that is played on a store in one go is one of its runs (`cycle_played`).
-/

namespace Outbox

theorem PartitionLoop.ne_ended_of_call {l : PartitionLoop} {call : StoreCall} (asks : l.call? = some call) :
    l ≠ .ended := by
  rintro rfl
  cases asks

namespace PartitionRuns

open Upkeep (Trace Answered creation removal)

/-- A cycle of the loop, as far as it has come. -/
structure Cycle where
  began : Nat
  settings : PartitionSettings
  /-- What the clock showed when the ranges to create were computed. -/
  created : Instant
  /-- What it showed when those to retire were. -/
  retired : Option Instant := none
  calls : List Exchange := []
  result : Option (Nat × Except OutboxError Nat) := none

/-- The loop with what it waits for. Times are nanoseconds since the start. -/
structure World where
  table : String
  time : Nat := 0
  live : LiveOptions
  loop : PartitionLoop := .resting 0
  /-- The cycles so far, the last one first. -/
  cycles : List Cycle := []
  cancelled : Option Nat := none
  /-- Whether the loop ended because of the token. -/
  stopped : Bool := false

inductive Event where
  | pass (ns : Nat)
  | publish (o : Options)
  | cancel
  /-- The loop finds its rest over. -/
  | wake (now : Instant)
  | answer (a : Except PartitionError Unit)
  /-- The loop goes on where the work at hand is done. -/
  | advance (now : Instant)
  /-- The loop finds its token cancelled. -/
  | stop

namespace Cycle

def answer (call : StoreCall) (a : Except PartitionError Unit) (c : Cycle) : Cycle :=
  { c with calls := c.calls ++ [(call, a)] }

def retire (now : Instant) (c : Cycle) : Cycle := { c with retired := some now }

def finish (time : Nat) (result : Except OutboxError Nat) (c : Cycle) : Cycle :=
  { c with result := some (time, result) }

/-- What it means for the cycle that its loop goes on. -/
def advance (now : Instant) (time : Nat) (c : Cycle) : PartitionLoop → Cycle
  | .creating _ (.ended (.ok _)) => c.retire now
  | .creating _ (.ended (.error e)) => c.finish time (.error e)
  | .retiring _ (.ended result) => c.finish time result
  | _ => c

end Cycle

namespace World

def wake (now : Instant) (w : World) : World :=
  let settings := w.live.current.partitions
  { w with
    loop := .begin settings w.table now
    cycles := { began := w.time, settings, created := now } :: w.cycles }

def answer (call : StoreCall) (a : Except PartitionError Unit) (w : World) : World :=
  { w with loop := w.loop.answer w.table a, cycles := w.cycles.modifyHead (Cycle.answer call a) }

def advance (now : Instant) (w : World) : World :=
  { w with
    loop := w.loop.advance w.table now w.time
    cycles := w.cycles.modifyHead fun c => c.advance now w.time w.loop }

def stop (w : World) : World :=
  match w.loop with
  | .ended => w
  | l => { w with loop := l.cancel, stopped := true }

/-- One step. What the loop is not ready for changes nothing; of all it is ready for it may take any. -/
def step (w : World) : Event → World
  | .pass ns => { w with time := w.time + ns }
  | .publish o =>
    match w.live.update o with
    | .ok live => { w with live }
    | .error _ => w
  | .cancel => { w with cancelled := some (w.cancelled.getD w.time) }
  | .wake now =>
    match w.loop with
    | .resting due => if due ≤ w.time then w.wake now else w
    | _ => w
  | .answer a =>
    match w.loop.call? with
    | some call => w.answer call a
    | none => w
  | .advance now => w.advance now
  | .stop => if w.cancelled.isSome then w.stop else w

def start (table : String) (live : LiveOptions) : World := { table, live }

def run (table : String) (live : LiveOptions) (events : List Event) : World := events.foldl step (start table live)

/-- There is nothing for the loop to do before a time. -/
def Idle (time : Nat) (cancelled : Option Nat) : PartitionLoop → Prop
  | .creating _ work | .retiring _ work => cancelled = none ∧ work.call?.isSome
  | .resting due => cancelled = none ∧ time ≤ due
  | .ended => True

instance (time : Nat) (cancelled : Option Nat) : (l : PartitionLoop) → Decidable (Idle time cancelled l)
  | .creating .. | .retiring .. | .resting _ => inferInstanceAs (Decidable (_ ∧ _))
  | .ended => .isTrue trivial

/-- No time goes by while the loop could go on. -/
def Prompt (w : World) : Event → Prop
  | .pass ns => Idle (w.time + ns) w.cancelled w.loop
  | _ => True

instance (w : World) : (e : Event) → Decidable (w.Prompt e)
  | .pass _ => inferInstanceAs (Decidable (Idle _ _ _))
  | .publish _ | .cancel | .wake _ | .answer _ | .advance _ | .stop => .isTrue trivial

end World

/-! ### What a cycle has to be like -/

namespace Cycle

def wanted (table : String) (c : Cycle) : List PartitionRange := (c.settings.ranges table c.created).toOption.getD []

/-- The calls that take out what had expired by its settings. -/
def removals (table : String) (c : Cycle) : List StoreCall :=
  c.retired.elim [] fun now => ((c.settings.expiredRanges table now).toOption.getD []).flatMap (removal ·.name)

/-- Some of its ranges lie outside the calendar. -/
def Beyond (c : Cycle) : Prop :=
  let n := c.settings.precreateCount.toNat
  ¬ c.settings.HasBounds (c.settings.rangeDay c.created) n ∨
    ∃ now, c.retired = some now ∧ ¬ c.settings.HasBounds (c.settings.rangeDay now - c.settings.spanDays * n) n

def Misconfigured (c : Cycle) : Prop := ∃ t result, c.result = some (t, result) ∧ Upkeep.Misconfigured result

/-- Creations come first, in the order of the ranges that are wanted; nothing is detached or dropped unless
all of them have succeeded. -/
def InOrder (table : String) (c : Cycle) : Prop :=
  ∃ made gone, c.calls = made ++ gone ∧ made.map (·.1) <+: (c.wanted table).map .create ∧
    gone.map (·.1) <+: c.removals table ∧ (gone ≠ [] → made = (c.wanted table).map creation)

structure Proper (table : String) (c : Cycle) : Prop where
  inOrder : c.InOrder table
  complete : ∀ t n, c.result = some (t, .ok n) →
    c.calls.map (·.1) = (c.wanted table).map .create ++ c.removals table
  outcome : c.result.isSome → (c.Misconfigured ↔ Upkeep.Unpartitioned c.calls ∨ c.Beyond)

structure Creates (table : String) (c : Cycle) (u : Upkeep) : Prop where
  unfinished : c.result = none
  early : c.retired = none
  trace : (Upkeep.create c.settings table c.created).Trace table c.calls u

/-- A cycle that has created all it should. -/
structure Retires (table : String) (c : Cycle) (u : Upkeep) : Prop where
  unfinished : c.result = none
  traces : ∃ now made gone n, c.retired = some now ∧ c.calls = made ++ gone ∧
    (Upkeep.create c.settings table c.created).Trace table made (.ended (.ok n)) ∧
    (Upkeep.retire c.settings table now).Trace table gone u

variable {table : String} {c : Cycle} {u : Upkeep} {now : Instant} {n time : Nat} {call : StoreCall}
  {e : OutboxError} {result : Except OutboxError Nat}

theorem misconfigured_finish : (c.finish time result).Misconfigured ↔ Upkeep.Misconfigured result := by
  constructor
  · rintro ⟨t, r, same, ill⟩
    cases same
    exact ill
  · intro ill
    exact ⟨_, _, rfl, ill⟩

theorem Proper.of_unfinished (inOrder : c.InOrder table) (unfinished : c.result = none) : c.Proper table := by
  refine ⟨inOrder, fun t n ended => ?_, fun ended => ?_⟩
  · cases unfinished.symm.trans ended
  · cases unfinished ▸ ended

namespace Creates

theorem inOrder (h : c.Creates table u) : c.InOrder table := by
  have planned := h.trace.progress.planned
  rw [Upkeep.todo_create] at planned
  exact ⟨c.calls, [], (List.append_nil _).symm, planned, List.nil_prefix, fun some => absurd rfl some⟩

theorem answer (h : c.Creates table u) (asks : u.call? = some call) (a : Except PartitionError Unit) :
    (c.answer call a).Creates table (u.next table a) := ⟨h.unfinished, h.early, h.trace.more asks a⟩

theorem retire (h : c.Creates table (.ended (.ok n))) (now : Instant) :
    (c.retire now).Retires table (.retire c.settings table now) :=
  ⟨h.unfinished, now, c.calls, [], n, rfl, (List.append_nil _).symm, h.trace, .none⟩

theorem finish (h : c.Creates table (.ended (.error e))) (bounded : c.settings.Bounded)
    (count : 1 ≤ c.settings.precreateCount.toNat) (time : Nat) : (c.finish time (.error e)).Proper table := by
  refine ⟨h.inOrder, nofun, fun _ => ?_⟩
  have beyond : c.Beyond ↔
      ¬ c.settings.HasBounds (c.settings.rangeDay c.created) c.settings.precreateCount.toNat := by
    rw [Beyond, h.early]
    refine or_iff_left ?_
    rintro ⟨now, read, -⟩
    cases read
  rw [misconfigured_finish, h.trace.progress.outcome, Upkeep.create_refused_iff table c.created bounded count,
    ← beyond]
  rfl

end Creates

namespace Retires

theorem inOrder (h : c.Retires table u) : c.InOrder table := by
  obtain ⟨now, made, gone, n, read, calls, created, trace⟩ := h.traces
  obtain ⟨all, fine⟩ := created.progress.all
  have planned := trace.progress.planned
  rw [Upkeep.todo_create] at all
  rw [Upkeep.todo_retire] at planned
  refine ⟨made, gone, calls, all ▸ List.prefix_rfl, ?_, fun _ => Upkeep.eq_creations fine all⟩
  rw [removals, read]
  exact planned

theorem answer (h : c.Retires table u) (asks : u.call? = some call) (a : Except PartitionError Unit) :
    (c.answer call a).Retires table (u.next table a) := by
  obtain ⟨now, made, gone, n, read, calls, created, trace⟩ := h.traces
  refine ⟨h.unfinished, now, made, gone ++ [(call, a)], n, read, ?_, created, trace.more asks a⟩
  rw [Cycle.answer, calls, List.append_assoc]

theorem finish (h : c.Retires table (.ended result)) (bounded : c.settings.Bounded)
    (count : 1 ≤ c.settings.precreateCount.toNat) (time : Nat) : (c.finish time result).Proper table := by
  obtain ⟨now, made, gone, n, read, calls, created, trace⟩ := h.traces
  refine ⟨h.inOrder, fun t k ended => ?_, fun _ => ?_⟩
  · cases ended
    have all := created.progress.all.1
    have gone_all := trace.progress.all.1
    rw [Upkeep.todo_create] at all
    rw [Upkeep.todo_retire] at gone_all
    rw [finish, calls, List.map_append, all, gone_all, removals, read]
    rfl
  · -- the creations went well, so whatever is wrong came up among the retirements
    have well : ¬ Upkeep.Misconfigured (.ok n) := by
      rintro ⟨e, failed, -⟩
      cases failed
    rw [created.progress.outcome, Upkeep.create_refused_iff table c.created bounded count, not_or] at well
    have beyond : c.Beyond ↔ ¬ c.settings.HasBounds
        (c.settings.rangeDay now - c.settings.spanDays * c.settings.precreateCount.toNat)
        c.settings.precreateCount.toNat := by
      rw [Beyond, or_iff_right well.2, read]
      simp only [Option.some.injEq, exists_eq_left']
    have unpartitioned : Upkeep.Unpartitioned c.calls ↔ Upkeep.Unpartitioned gone := by
      rw [calls, Upkeep.unpartitioned_append, or_iff_right well.1]
    rw [misconfigured_finish, trace.progress.outcome, Upkeep.retire_refused_iff table now bounded count, ← beyond,
      ← unpartitioned]
    rfl

end Retires

def SameStart (c c' : Cycle) : Prop := c.began = c'.began ∧ c.settings = c'.settings ∧ c.created = c'.created

theorem SameStart.refl (c : Cycle) : c.SameStart c := ⟨rfl, rfl, rfl⟩

theorem advance_sameStart (now : Instant) (time : Nat) (l : PartitionLoop) (c : Cycle) :
    (c.advance now time l).SameStart c := by
  unfold advance
  split <;> exact .refl c

theorem mem_modifyHead {f : Cycle → Cycle} {cycles : List Cycle} (same : ∀ c, (f c).SameStart c)
    (member : c ∈ cycles.modifyHead f) : ∃ c' ∈ cycles, c.SameStart c' := by
  cases cycles with
  | nil => exact absurd member List.not_mem_nil
  | cons head past =>
    rcases List.mem_cons.mp member with rfl | earlier
    · exact ⟨head, List.mem_cons_self, same head⟩
    · exact ⟨c, List.mem_cons_of_mem _ earlier, .refl c⟩

end Cycle

/-! ### Where the loop is -/

/-- Where the loop is in its cycles. -/
inductive Stage (table : String) (stopped : Bool) (l : PartitionLoop) (cycles : List Cycle) : Prop
  | fresh (first : cycles = []) (loop : l = .resting 0)
  | creating {c : Cycle} {past : List Cycle} {u : Upkeep} (latest : cycles = c :: past)
      (loop : l = .creating c.settings u) (creates : c.Creates table u)
  | retiring {c : Cycle} {past : List Cycle} {u : Upkeep} (latest : cycles = c :: past)
      (loop : l = .retiring c.settings u) (retires : c.Retires table u)
  | resting {c : Cycle} {past : List Cycle} {t : Nat} {result : Except OutboxError Nat} (latest : cycles = c :: past)
      (finished : c.result = some (t, result)) (well : ¬ Upkeep.Misconfigured result)
      (loop : l = .resting (t + c.settings.precreatePeriod.nanos))
  | misconfigured {c : Cycle} {past : List Cycle} (latest : cycles = c :: past) (ill : c.Misconfigured)
      (loop : l = .ended)
  | stopped (token : stopped) (loop : l = .ended)

/-- Each cycle begins after one period, by the settings of the cycle before, which was no misconfiguration. -/
def Spaced (rel : Nat → Nat → Prop) (cycles : List Cycle) : Prop :=
  cycles.IsChain fun later c => ∃ t result, c.result = some (t, result) ∧ ¬ Upkeep.Misconfigured result ∧
    rel (t + c.settings.precreatePeriod.nanos) later.began

section

variable {rel : Nat → Nat → Prop} {table : String} {l : PartitionLoop} {c c' : Cycle} {past cycles : List Cycle}
  {due : Nat} {stopped : Bool} {s : PartitionSettings} {u : Upkeep}

theorem Spaced.head (h : Spaced rel (c :: past)) (began : c'.began = c.began) : Spaced rel (c' :: past) := by
  cases past with
  | nil => exact .singleton c'
  | cons before past =>
    obtain ⟨link, rest⟩ := List.isChain_cons_cons.mp h
    refine List.isChain_cons_cons.mpr ⟨?_, rest⟩
    rwa [began]

theorem Spaced.past_well (h : Spaced rel (c :: past)) : ∀ d ∈ past, ¬ d.Misconfigured := by
  induction past generalizing c with
  | nil => exact fun d member => absurd member List.not_mem_nil
  | cons before past ih =>
    obtain ⟨⟨t, result, finished, well, -⟩, rest⟩ := List.isChain_cons_cons.mp h
    intro d member
    rcases List.mem_cons.mp member with rfl | earlier
    · rintro ⟨t', result', finished', ill⟩
      cases finished.symm.trans finished'
      exact well ill
    · exact ih rest d earlier

theorem Stage.of_creating (h : Stage table stopped (.creating s u) cycles) :
    ∃ c past, cycles = c :: past ∧ s = c.settings ∧ c.Creates table u := by
  cases h with
  | creating latest loop creates =>
    cases loop
    exact ⟨_, _, latest, rfl, creates⟩
  | fresh _ loop | retiring _ loop | resting _ _ _ loop | misconfigured _ _ loop | stopped _ loop => cases loop

theorem Stage.of_retiring (h : Stage table stopped (.retiring s u) cycles) :
    ∃ c past, cycles = c :: past ∧ s = c.settings ∧ c.Retires table u := by
  cases h with
  | retiring latest loop retires =>
    cases loop
    exact ⟨_, _, latest, rfl, retires⟩
  | fresh _ loop | creating _ loop | resting _ _ _ loop | misconfigured _ _ loop | stopped _ loop => cases loop

/-- The loop rests before its first cycle, and for one period after each. -/
theorem Stage.of_resting (h : Stage table stopped (.resting due) cycles) :
    cycles = [] ∧ due = 0 ∨ ∃ c past t result, cycles = c :: past ∧ c.result = some (t, result) ∧
      ¬ Upkeep.Misconfigured result ∧ due = t + c.settings.precreatePeriod.nanos := by
  cases h with
  | fresh first loop =>
    cases loop
    exact .inl ⟨first, rfl⟩
  | resting latest finished well loop =>
    cases loop
    exact .inr ⟨_, _, _, _, latest, finished, well, rfl⟩
  | creating _ loop | retiring _ loop | misconfigured _ _ loop | stopped _ loop => cases loop

theorem Spaced.wake (h : Spaced rel cycles) (stage : Stage table stopped (.resting due) cycles)
    (starts : rel due c.began) : Spaced rel (c :: cycles) := by
  rcases stage.of_resting with ⟨rfl, -⟩ | ⟨before, past, t, result, rfl, finished, well, rfl⟩
  · exact .singleton c
  · exact .cons_cons ⟨t, result, finished, well, starts⟩ h

end

namespace World

variable {table : String} {w : World} {c c' : Cycle} {past : List Cycle} {call : StoreCall} {due : Nat} {now : Instant}
  {l : PartitionLoop} {result : Except OutboxError Nat} {e : Event}

theorem advance_cases (now : Instant) (w : World) : w.advance now = w ∨ w.loop ≠ .ended ∧
    ((∃ s n, w.loop = .creating s (.ended (.ok n)) ∧ w.advance now = { w with
      loop := .retiring s (.retire s w.table now)
      cycles := w.cycles.modifyHead (.retire now) }) ∨
    ∃ s result,
      ((∃ e, result = .error e ∧ w.loop = .creating s (.ended result)) ∨ w.loop = .retiring s (.ended result)) ∧
      w.advance now = { w with
        loop := .afterCycle s w.time result
        cycles := w.cycles.modifyHead (.finish w.time result) }) := by
  have idle (cycles : List Cycle) : (cycles.modifyHead fun c => c) = cycles := congrFun List.modifyHead_id cycles
  obtain ⟨table, time, live, loop, cycles, cancelled, stopped⟩ := w
  cases loop with
  | resting | ended =>
    left
    simp only [advance, PartitionLoop.advance, Cycle.advance, idle]
  | creating s u =>
    cases u with
    | ended result =>
      cases result with
      | ok n => exact .inr ⟨by simp, .inl ⟨s, n, rfl, rfl⟩⟩
      | error e => exact .inr ⟨by simp, .inr ⟨s, _, .inl ⟨e, rfl, rfl⟩, rfl⟩⟩
    | creating | detaching | dropping =>
      left
      simp only [advance, PartitionLoop.advance, Cycle.advance, idle]
  | retiring s u =>
    cases u with
    | ended result => exact .inr ⟨by simp, .inr ⟨s, result, .inr rfl, rfl⟩⟩
    | creating | detaching | dropping =>
      left
      simp only [advance, PartitionLoop.advance, Cycle.advance, idle]

/-- What each step of the loop keeps. -/
structure Sound (table : String) (w : World) : Prop where
  home : w.table = table
  legal : w.live.current.fault? = none ∧ w.live.current.partitions.enabled
  settings : ∀ c ∈ w.cycles, c.settings.enabled ∧ c.settings.fault? = none
  proper : ∀ c ∈ w.cycles, c.Proper table
  spaced : Spaced (· ≤ ·) w.cycles
  stage : Stage table w.stopped w.loop w.cycles
  halted : w.stopped → w.loop = .ended ∧ w.cancelled.isSome

namespace Sound

theorem turn (h : w.Sound table) (going : w.loop ≠ .ended) (latest : w.cycles = c :: past) (proper : c'.Proper table)
    (began : c'.began = c.began) (settings : c'.settings = c.settings) (stage : Stage table w.stopped l (c' :: past)) :
    Sound table { w with loop := l, cycles := c' :: past } := by
  have valid := h.settings
  have sound := h.proper
  have spaced := h.spaced
  rw [latest] at valid sound spaced
  rw [List.forall_mem_cons] at valid sound
  refine ⟨h.home, h.legal, ?_, ?_, spaced.head began, stage, fun halted => absurd (h.halted halted).1 going⟩
  · refine List.forall_mem_cons.mpr ⟨?_, valid.2⟩
    rw [settings]
    exact valid.1
  · exact List.forall_mem_cons.mpr ⟨proper, sound.2⟩

theorem wake (h : w.Sound table) (rests : w.loop = .resting due) (finished : due ≤ w.time) (now : Instant) :
    (w.wake now).Sound table := by
  have stage := h.stage
  rw [rests] at stage
  obtain ⟨rfl, legal, settings, proper, spaced, -, halted⟩ := h
  have valid : w.live.current.partitions.fault? = none := by grind [Options.fault?]
  let c : Cycle := { began := w.time, settings := w.live.current.partitions, created := now }
  have begun : c.Creates w.table (.create c.settings w.table now) := ⟨rfl, rfl, .none⟩
  refine ⟨rfl, legal, ?_, ?_, ?_, ?_, ?_⟩
  · exact List.forall_mem_cons.mpr ⟨⟨legal.2, valid⟩, settings⟩
  · exact List.forall_mem_cons.mpr ⟨.of_unfinished begun.inOrder begun.unfinished, proper⟩
  · exact spaced.wake stage finished
  · exact .creating rfl rfl begun
  · intro stopped
    have ended := (halted stopped).1
    rw [rests] at ended
    cases ended

theorem answer (h : w.Sound table) (asks : w.loop.call? = some call) (a : Except PartitionError Unit) :
    (w.answer call a).Sound table := by
  obtain rfl := h.home
  have stage := h.stage
  have going := PartitionLoop.ne_ended_of_call asks
  cases loop : w.loop with
  | resting | ended =>
    rw [loop] at asks
    cases asks
  | creating s u =>
    rw [loop] at asks stage
    obtain ⟨c, past, latest, rfl, creates⟩ := stage.of_creating
    have further := creates.answer asks a
    rw [World.answer, loop, latest]
    exact h.turn going latest (.of_unfinished further.inOrder further.unfinished) rfl rfl (.creating rfl rfl further)
  | retiring s u =>
    rw [loop] at asks stage
    obtain ⟨c, past, latest, rfl, retires⟩ := stage.of_retiring
    have further := retires.answer asks a
    rw [World.answer, loop, latest]
    exact h.turn going latest (.of_unfinished further.inOrder further.unfinished) rfl rfl (.retiring rfl rfl further)

theorem finish (h : w.Sound table) (going : w.loop ≠ .ended) (latest : w.cycles = c :: past)
    (proper : (c.finish w.time result).Proper table) :
    Sound table { w with
      loop := .afterCycle c.settings w.time result
      cycles := c.finish w.time result :: past } := by
  refine h.turn going latest proper rfl rfl ?_
  by_cases ill : Upkeep.Misconfigured result
  · refine .misconfigured rfl (Cycle.misconfigured_finish.mpr ill) ?_
    obtain ⟨e, rfl, ill⟩ := ill
    exact if_pos ill
  · refine .resting rfl rfl ill ?_
    cases result with
    | ok n => rfl
    | error e => exact if_neg fun ill' => ill ⟨e, rfl, ill'⟩

theorem advance (h : w.Sound table) (now : Instant) : (w.advance now).Sound table := by
  obtain rfl := h.home
  have stage := h.stage
  have valid {past : List Cycle} {c : Cycle} (latest : w.cycles = c :: past) :
      c.settings.Bounded ∧ 1 ≤ c.settings.precreateCount.toNat := by
    obtain ⟨enabled, valid⟩ := h.settings c (latest ▸ List.mem_cons_self)
    exact ⟨PartitionSettings.bounded_of_valid enabled valid, PartitionSettings.count_pos_of_valid enabled valid⟩
  rcases w.advance_cases now with idle | ⟨going, ⟨s, n, created, goes⟩ | ⟨s, result, ended, goes⟩⟩
  · rwa [idle]
  · rw [created] at stage
    obtain ⟨c, past, latest, rfl, creates⟩ := stage.of_creating
    have further := creates.retire now
    rw [goes, latest]
    exact h.turn going latest (.of_unfinished further.inOrder further.unfinished) rfl rfl (.retiring rfl rfl further)
  · rcases ended with ⟨e, rfl, ended⟩ | ended
    · rw [ended] at stage
      obtain ⟨c, past, latest, rfl, creates⟩ := stage.of_creating
      obtain ⟨bounded, count⟩ := valid latest
      rw [goes, latest]
      exact h.finish going latest (creates.finish bounded count w.time)
    · rw [ended] at stage
      obtain ⟨c, past, latest, rfl, retires⟩ := stage.of_retiring
      obtain ⟨bounded, count⟩ := valid latest
      rw [goes, latest]
      exact h.finish going latest (retires.finish bounded count w.time)

theorem stop (h : w.Sound table) (cancelled : w.cancelled.isSome) : w.stop.Sound table := by
  have halts : Sound table { w with loop := .ended, stopped := true } :=
    ⟨h.home, h.legal, h.settings, h.proper, h.spaced, .stopped rfl rfl, fun _ => ⟨rfl, cancelled⟩⟩
  unfold World.stop
  split
  · exact h
  · exact halts

theorem step (h : w.Sound table) (e : Event) : (w.step e).Sound table := by
  cases e with
  | pass ns => exact ⟨h.home, h.legal, h.settings, h.proper, h.spaced, h.stage, h.halted⟩
  | cancel =>
    have halted (stopped : w.stopped) := (h.halted stopped).1
    exact ⟨h.home, h.legal, h.settings, h.proper, h.spaced, h.stage, fun stopped => ⟨halted stopped, rfl⟩⟩
  | publish o =>
    simp only [World.step]
    split
    · rename_i live accepted
      have admits := LiveOptions.admits_of_update accepted
      cases (LiveOptions.update_of_admits admits).symm.trans accepted
      exact ⟨h.home, ⟨admits.faultless, admits.partitions ▸ h.legal.2⟩, h.settings, h.proper, h.spaced, h.stage,
        h.halted⟩
    · exact h
  | wake now =>
    simp only [World.step]
    split
    · rename_i due rests
      split
      · exact h.wake rests ‹_› now
      · exact h
    · exact h
  | answer a =>
    simp only [World.step]
    split
    · rename_i call asks
      exact h.answer asks a
    · exact h
  | advance now => exact h.advance now
  | stop =>
    simp only [World.step]
    split
    · exact h.stop ‹_›
    · exact h

theorem run {live : LiveOptions} (legal : live.current.fault? = none) (enabled : live.current.partitions.enabled)
    (events : List Event) : (run table live events).Sound table := by
  have start : (start table live).Sound table :=
    ⟨rfl, ⟨legal, enabled⟩, fun _ member => absurd member List.not_mem_nil,
      fun _ member => absurd member List.not_mem_nil, .nil, .fresh rfl rfl, nofun⟩
  exact foldl_invariant (P := fun _ _ => True) (fun _ e sound _ => sound.step e) start (.of_forall fun _ _ _ => trivial)

end Sound

/-- Why cycles come and go, and why the loop ends. -/
structure Reasonable (table : String) (w : World) : Prop where
  proper : ∀ c ∈ w.cycles, c.Proper table
  /-- Also the call that has yet to be answered is in its place. -/
  asked : ∀ call, w.loop.call? = some call →
    ∃ c past, w.cycles = c :: past ∧ ∀ a, (c.answer call a).InOrder table
  spaced : Spaced (· ≤ ·) w.cycles
  ended : w.loop = .ended ↔ w.stopped ∨ ∃ c ∈ w.cycles, c.Misconfigured
  stopped : w.stopped → w.cancelled.isSome
  stops : w.cancelled.isSome → (w.step .stop).loop = .ended

namespace Sound

theorem asked (h : w.Sound table) (asks : w.loop.call? = some call) :
    ∃ c past, w.cycles = c :: past ∧ ∀ a, (c.answer call a).InOrder table := by
  cases latest : w.cycles with
  | nil =>
    have stage := h.stage
    rw [latest] at stage
    cases stage with
    | fresh _ loop | stopped _ loop =>
      rw [loop] at asks
      cases asks
    | creating none | retiring none | resting none | misconfigured none => cases none
  | cons c past =>
    refine ⟨c, past, rfl, fun a => ?_⟩
    have proper := (h.answer asks a).proper
    rw [World.answer, latest] at proper
    exact (proper _ List.mem_cons_self).inOrder

theorem ended_iff (h : w.Sound table) : w.loop = .ended ↔ w.stopped ∨ ∃ c ∈ w.cycles, c.Misconfigured := by
  constructor
  · intro ended
    cases h.stage with
    | misconfigured latest ill => exact .inr ⟨_, latest ▸ List.mem_cons_self, ill⟩
    | stopped token => exact .inl token
    | fresh _ loop | creating _ loop | retiring _ loop | resting _ _ _ loop => cases ended.symm.trans loop
  · rintro (stopped | ⟨d, member, ill⟩)
    · exact (h.halted stopped).1
    · have spaced := h.spaced
      -- only the last cycle can be one
      have last {c : Cycle} {past : List Cycle} (latest : w.cycles = c :: past) : d = c := by
        rw [latest] at member spaced
        rcases List.mem_cons.mp member with same | earlier
        · exact same
        · exact absurd ill (spaced.past_well d earlier)
      obtain ⟨t, result, finished, ill⟩ := ill
      cases h.stage with
      | fresh none => exact absurd (none ▸ member) List.not_mem_nil
      | creating latest _ creates =>
        rw [last latest] at finished
        cases creates.unfinished.symm.trans finished
      | retiring latest _ retires =>
        rw [last latest] at finished
        cases retires.unfinished.symm.trans finished
      | resting latest finished' well =>
        rw [last latest] at finished
        cases finished'.symm.trans finished
        exact absurd ill well
      | misconfigured _ _ loop | stopped _ loop => exact loop

theorem reasonable (h : w.Sound table) : w.Reasonable table where
  proper := h.proper
  asked _ := h.asked
  spaced := h.spaced
  ended := h.ended_iff
  stopped token := (h.halted token).2
  stops cancelled := by
    simp only [World.step, cancelled, if_true]
    unfold World.stop
    split
    · assumption
    · rfl

end Sound

/-! ### Where the settings of a cycle come from -/

/-- The cycle begins in the world, with the settings that are published there. -/
def Begins (w : World) (now : Instant) (c : Cycle) : Prop :=
  c.began = w.time ∧ c.settings = w.live.current.partitions ∧ c.created = now

theorem begins_step (w : World) (e : Event) (member : c ∈ (w.step e).cycles) :
    (∃ c' ∈ w.cycles, c.SameStart c') ∨ ∃ now, e = .wake now ∧ w.Begins now c := by
  have old {c : Cycle} (member : c ∈ w.cycles) : ∃ c' ∈ w.cycles, c.SameStart c' := ⟨c, member, .refl c⟩
  cases e with
  | pass | cancel => exact .inl (old member)
  | publish o =>
    simp only [World.step] at member
    split at member <;> exact .inl (old member)
  | wake now =>
    simp only [World.step] at member
    split at member
    · split at member
      · rcases List.mem_cons.mp member with rfl | earlier
        · exact .inr ⟨now, rfl, rfl, rfl, rfl⟩
        · exact .inl (old earlier)
      · exact .inl (old member)
    · exact .inl (old member)
  | answer a =>
    simp only [World.step] at member
    split at member
    · rename_i call asks
      have same (c : Cycle) : (c.answer call a).SameStart c := .refl c
      exact .inl (Cycle.mem_modifyHead same member)
    · exact .inl (old member)
  | advance now => exact .inl (Cycle.mem_modifyHead (fun c => c.advance_sameStart now w.time w.loop) member)
  | stop =>
    simp only [World.step, World.stop] at member
    split at member
    · split at member <;> exact .inl (old member)
    · exact .inl (old member)

theorem begins_run {live : LiveOptions} (events : List Event) :
    ∀ c ∈ (run table live events).cycles,
      ∃ before now after, events = before ++ .wake now :: after ∧ (run table live before).Begins now c := by
  induction events using List.reverseRecOn with
  | nil => exact fun c member => absurd member List.not_mem_nil
  | append_singleton events e ih =>
    intro c member
    -- a cycle is of an earlier event, or the last event has begun it
    rw [run, List.foldl_concat] at member
    rcases begins_step _ e member with ⟨c', earlier, began, settings, created⟩ | ⟨now, rfl, begins⟩
    · obtain ⟨before, now, after, rfl, begins⟩ := ih c' earlier
      refine ⟨before, now, after ++ [e], by rw [List.append_assoc, List.cons_append], ?_⟩
      rw [Begins, began, settings, created]
      exact begins
    · exact ⟨events, now, [], rfl, begins⟩

/-! ### Where no time is lost -/

/-- A run in which the loop is never kept waiting. -/
structure Punctual (w : World) : Prop where
  first : ∀ c ∈ w.cycles.getLast?, c.began = 0
  /-- Each cycle begins when one period has gone by since the one before it ended. -/
  spaced : Spaced (· = ·) w.cycles
  rests : ∀ due, w.loop = .resting due → w.time ≤ due
  cancelled : ∀ t, w.cancelled = some t → w.loop = .ended ∨ w.time = t

namespace Punctual

theorem turn (h : w.Punctual) (going : w.loop ≠ .ended) (l : PartitionLoop) {f : Cycle → Cycle}
    (same : ∀ c, (f c).began = c.began) (rests : ∀ due, l = .resting due → w.time ≤ due) :
    Punctual { w with loop := l, cycles := w.cycles.modifyHead f } := by
  obtain ⟨first, spaced, -, cancelled⟩ := h
  refine ⟨?_, ?_, rests, fun t at_t => .inr ((cancelled t at_t).resolve_left going)⟩
  · cases latest : w.cycles with
    | nil => exact fun c none => absurd none (Option.not_mem_none c)
    | cons c past =>
      rw [latest] at first
      cases past with
      | nil =>
        intro d same_d
        cases same_d
        exact (same c).trans (first c rfl)
      | cons => exact first
  · cases latest : w.cycles with
    | nil => exact .nil
    | cons c past =>
      rw [latest] at spaced
      exact spaced.head (same c)

theorem wake (h : w.Punctual) (stage : Stage table w.stopped w.loop w.cycles) (rests : w.loop = .resting due)
    (finished : due ≤ w.time) (now : Instant) : (w.wake now).Punctual := by
  have on_time : due = w.time := Nat.le_antisymm finished (h.rests due rests)
  rw [rests] at stage
  refine ⟨?_, h.spaced.wake stage on_time, nofun, ?_⟩
  · intro c oldest
    rcases stage.of_resting with ⟨none, rfl⟩ | ⟨before, past, _, _, latest, -⟩
    · rw [World.wake, none] at oldest
      cases oldest
      exact on_time.symm
    · rw [World.wake, latest, List.getLast?_cons_cons, ← latest] at oldest
      exact h.first c oldest
  · intro t at_t
    refine .inr ((h.cancelled t at_t).resolve_left fun ended => ?_)
    cases rests.symm.trans ended

theorem advance (h : w.Punctual) (now : Instant) : (w.advance now).Punctual := by
  rcases w.advance_cases now with idle | ⟨going, ⟨s, n, -, goes⟩ | ⟨s, result, -, goes⟩⟩
  · rwa [idle]
  · rw [goes]
    exact h.turn going _ (fun _ => rfl) nofun
  · rw [goes]
    refine h.turn going _ (fun _ => rfl) fun due rests => ?_
    cases result with
    | ok n =>
      cases rests
      exact Nat.le_add_right _ _
    | error e =>
      simp only [PartitionLoop.afterCycle] at rests
      split at rests
      · cases rests
      · cases rests
        exact Nat.le_add_right _ _

theorem step (h : w.Punctual) (stage : Stage table w.stopped w.loop w.cycles) (prompt : w.Prompt e) :
    (w.step e).Punctual := by
  cases e with
  | pass ns =>
    have idle : Idle (w.time + ns) w.cancelled w.loop := prompt
    refine ⟨h.first, h.spaced, ?_, ?_⟩
    · intro due (rests : w.loop = .resting due)
      rw [rests] at idle
      exact idle.2
    · intro t (at_t : w.cancelled = some t)
      cases loop : w.loop with
      | ended => exact .inl loop
      | creating | retiring | resting =>
        rw [loop] at idle
        cases at_t.symm.trans idle.1
  | publish o =>
    simp only [World.step]
    split
    · exact ⟨h.first, h.spaced, h.rests, h.cancelled⟩
    · exact h
  | cancel =>
    refine ⟨h.first, h.spaced, h.rests, fun t at_t => ?_⟩
    cases earlier : w.cancelled with
    | none =>
      simp only [World.step, earlier, Option.getD_none, Option.some.injEq] at at_t
      exact .inr at_t
    | some t' =>
      simp only [World.step, earlier, Option.getD_some, Option.some.injEq] at at_t
      exact at_t ▸ h.cancelled t' earlier
  | wake now =>
    simp only [World.step]
    split
    · rename_i due rests
      split
      · exact h.wake stage rests ‹_› now
      · exact h
    · exact h
  | answer a =>
    simp only [World.step]
    split
    · rename_i call asks
      refine h.turn (PartitionLoop.ne_ended_of_call asks) _ (fun _ => rfl) ?_
      cases loop : w.loop with
      | creating | retiring => exact nofun
      | resting | ended =>
        rw [loop] at asks
        cases asks
    · exact h
  | advance now => exact h.advance now
  | stop =>
    simp only [World.step, World.stop]
    split
    · split
      · exact h
      · exact ⟨h.first, h.spaced, nofun, fun _ _ => .inl rfl⟩
    · exact h

theorem run {live : LiveOptions} {events : List Event} (legal : live.current.fault? = none)
    (enabled : live.current.partitions.enabled) (prompt : Along World.step Prompt (start table live) events) :
    (run table live events).Punctual := by
  let Inv (w : World) := w.Sound table ∧ w.Punctual
  have start : Inv (start table live) := by
    refine ⟨.run legal enabled [], fun c none => absurd none (Option.not_mem_none c), .nil,
      fun due _ => Nat.zero_le due, fun t none => ?_⟩
    cases none
  have keeps (w : World) (e : Event) (inv : Inv w) (prompt : w.Prompt e) : Inv (w.step e) :=
    ⟨inv.1.step e, inv.2.step inv.1.stage prompt⟩
  exact (foldl_invariant keeps start prompt).2

end Punctual

/-! ### Cycles played in one go -/

/-- The loop gets from one world to another by answers to its calls and by going on. -/
def Leads (now : Instant) (w w' : World) : Prop :=
  ∃ events : List Event, (∀ e ∈ events, e = .advance now ∨ ∃ a, e = .answer a) ∧ events.foldl step w = w'

theorem Leads.trans {w₁ w₂ w₃ : World} (h : Leads now w₁ w₂) (h' : Leads now w₂ w₃) : Leads now w₁ w₃ := by
  obtain ⟨events, own, rfl⟩ := h
  obtain ⟨later, own', rfl⟩ := h'
  exact ⟨events ++ later, List.forall_mem_append.mpr ⟨own, own'⟩, List.foldl_append⟩

theorem leads_advance (now : Instant) (w : World) : Leads now w (w.advance now) :=
  ⟨[.advance now], List.forall_mem_singleton.mpr (.inl rfl), rfl⟩

/-- The answers to the calls of a run lead the loop through it. -/
theorem leads_trace (now : Instant) (wrap : Upkeep → PartitionLoop) (asks : ∀ u, (wrap u).call? = u.call?)
    (goes : ∀ u a, (wrap u).answer table a = wrap (u.next table a)) {u v : Upkeep} {calls : List Exchange}
    (trace : Trace table u calls v) (home : w.table = table) (loop : w.loop = wrap u) (latest : w.cycles = c :: past) :
    Leads now w { w with loop := wrap v, cycles := { c with calls := c.calls ++ calls } :: past } := by
  induction trace with
  | none =>
    rw [List.append_nil, ← loop, ← latest]
    exact ⟨[], fun _ member => absurd member List.not_mem_nil, rfl⟩
  | more trace asked a ih =>
    refine ih.trans ⟨[.answer a], List.forall_mem_singleton.mpr (.inr ⟨a, rfl⟩), ?_⟩
    simp only [List.foldl_cons, List.foldl_nil, step, asks, asked, answer, home, goes, List.modifyHead_cons,
      Cycle.answer, List.append_assoc]

/-- A cycle on a store that answers at once is one of the runs of the loop. -/
theorem cycle_played {σ : Type} (perform : σ → StoreCall → Except PartitionError Unit × σ) (store : σ)
    (rests : w.loop = .resting due) (finished : due ≤ w.time) (now : Instant) :
    let played := PartitionLoop.cycle w.table perform w.live.current.partitions now w.time store
    ∃ w' c, Leads now (w.step (.wake now)) w' ∧ w'.loop = played.1 ∧ w'.time = w.time ∧
      w'.cycles = c :: w.cycles ∧ Answered perform store c.calls played.2 := by
  intro played
  let s := w.live.current.partitions
  have wakes : w.step (.wake now) = w.wake now := by simp only [step, rests, if_pos finished]
  rw [wakes]
  obtain ⟨made, creating, answered⟩ := Upkeep.trace_run w.table perform (.create s w.table now) store
  have creates := leads_trace (w := w.wake now) now (.creating s) (fun _ => rfl) (fun _ _ => rfl) creating rfl rfl rfl
  have goes := creates.trans (leads_advance now _)
  cases created : ((Upkeep.create s w.table now).run w.table perform store).1 with
  | error e =>
    have ends : played =
        (.afterCycle s w.time (.error e), ((Upkeep.create s w.table now).run w.table perform store).2) := by
      simp only [played, PartitionLoop.cycle, s, created]
    rw [created] at goes
    rw [ends]
    exact ⟨_, _, goes, rfl, rfl, rfl, answered⟩
  | ok n =>
    let stored := ((Upkeep.create s w.table now).run w.table perform store).2
    have ends : played = (.afterCycle s w.time ((Upkeep.retire s w.table now).run w.table perform stored).1,
        ((Upkeep.retire s w.table now).run w.table perform stored).2) := by
      simp only [played, PartitionLoop.cycle, s, created, stored]
    obtain ⟨gone, retiring, answered'⟩ := Upkeep.trace_run w.table perform (.retire s w.table now) stored
    rw [created] at goes
    have retires := goes.trans (leads_trace now (.retiring s) (fun _ => rfl) (fun _ _ => rfl) retiring rfl rfl rfl)
    rw [ends]
    exact ⟨_, _, retires.trans (leads_advance now _), rfl, rfl, rfl, answered.trans answered'⟩

/-- The loop ends only if its token was cancelled or a cycle was a misconfiguration, which is that the store
called its table unpartitioned or that the calendar has not all of its ranges. -/
theorem ends_for_reason {features : Features} {p : Plan} {r : Registration} (built : p.build features = .ok r)
    (managed : r.managed) (table : String) (events : List Event) :
    (run table r.options events).Reasonable table ∧
      (∀ c ∈ (run table r.options events).cycles,
        ∃ before now after, events = before ++ .wake now :: after ∧ (run table r.options before).Begins now c) ∧
      (Along step Prompt (start table r.options) events → (run table r.options events).Punctual) := by
  have legal := (Plan.build_ok built).1
  have enabled := (Plan.build_managed built managed).1
  rw [← Plan.build_options built] at legal enabled
  exact ⟨(Sound.run legal enabled events).reasonable, begins_run events, Punctual.run legal enabled⟩

/-- Partitions of one day, one of them created ahead, looked after each millisecond. -/
def dayAhead : Options where
  partitions := { enabled := true, precreateCount := 1, retentionCount := 1, precreatePeriod := .ofMillis 1 }

def twoDaysAhead : Options where
  partitions := { enabled := true, precreateCount := 2, retentionCount := 1, precreatePeriod := .ofMillis 2 }

def ordersPlan : Plan where
  outbox := "orders"
  options := dayAhead
  hasRepository := true
  handler := some .item
  hasStore := true

def ordersRegistration : Registration where
  options := { outbox := "orders", current := dayAhead }
  managed := true

/-- A cycle that fails, one that goes well by other options, and one that finds the table unpartitioned. -/
def threeCycles : List Event :=
  let noon := Instant.ofSecond 1723896000
  [.wake noon, .publish twoDaysAhead, .answer (.error (.other "busy")), .advance noon, .pass 1000000,
    .wake noon, .answer (.ok ()), .pass 500, .answer (.ok ()), .advance noon,
    .answer (.error (.notFound "outbox_p20240815")), .answer (.ok ()), .advance noon, .pass 2000000,
    .wake noon, .answer (.error (.notPartitioned "a plain table")), .advance noon]

theorem ends_for_reason_unpartitioned :
    ordersPlan.build { status := true } = .ok ordersRegistration ∧ ordersRegistration.managed ∧
      Along step Prompt (start "outbox" ordersRegistration.options) threeCycles ∧
      let w := run "outbox" ordersRegistration.options threeCycles
      w.Reasonable "outbox" ∧ w.Punctual ∧
        w.loop = .ended ∧ ¬ w.stopped ∧ (∃ c ∈ w.cycles, c.Misconfigured) ∧
        w.cycles.map (·.began) = [3000500, 1000000, 0] ∧ w.cycles.map (·.calls.length) = [1, 4, 1] := by
  have built : ordersPlan.build { status := true } = .ok ordersRegistration := rfl
  have prompt : Along step Prompt (start "outbox" ordersRegistration.options) threeCycles := by decide
  obtain ⟨reasonable, -, punctual⟩ := ends_for_reason built rfl "outbox" threeCycles
  have ended : (run "outbox" ordersRegistration.options threeCycles).loop = .ended := rfl
  have running : ¬ (run "outbox" ordersRegistration.options threeCycles).stopped := by decide
  exact ⟨built, rfl, prompt, reasonable, punctual prompt, ended, running,
    (reasonable.ended.mp ended).resolve_left running, rfl, rfl⟩

end World

end PartitionRuns

end Outbox
