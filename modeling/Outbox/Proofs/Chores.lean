import Outbox.Proofs.Underway

/-!
Creations and retirements as runs on a catalogue where other runs may be at work. A run is as far as its
`Progress` says, and the calls of the others do not set it back (`Progress.stays`); its own take it
further and cannot fail where there is room for all ranges (`Plan`, `Progress.next`). So runs get done one
call at a time, whoever makes it (`Working.next`), and each drop that they count is of a partition that
has gone.
-/

namespace Outbox

inductive Chore where
  | creation
  | retirement
  deriving DecidableEq

namespace Chore

def ranges : Chore → PartitionSettings → String → Instant → Except OutboxError (List PartitionRange)
  | .creation => PartitionSettings.ranges
  | .retirement => PartitionSettings.expiredRanges

def start : Chore → PartitionSettings → String → Instant → Upkeep
  | .creation => Upkeep.create
  | .retirement => Upkeep.retire

def wanted : Chore → List PartitionRange → List PartitionRange
  | .creation, ranges => ranges
  | .retirement, _ => []

def expired : Chore → List PartitionRange → List String
  | .creation, _ => []
  | .retirement, ranges => ranges.map (·.name)

section

variable {chore : Chore} {s : PartitionSettings} {table : String} {now : Instant}
  {ranges : List PartitionRange} {r : PartitionRange} {name : String}

theorem mem_of_wanted (chore : Chore) (h : r ∈ chore.wanted ranges) : r ∈ ranges := by
  cases chore with
  | creation => exact h
  | retirement => cases h

theorem mem_of_expired (chore : Chore) (h : name ∈ chore.expired ranges) : name ∈ ranges.map (·.name) := by
  cases chore with
  | creation => cases h
  | retirement => exact h

theorem apart (chore : Chore) : ∀ r ∈ chore.wanted ranges, r.name ∉ chore.expired ranges := by
  cases chore with
  | creation => exact fun _ _ => List.not_mem_nil
  | retirement => exact fun _ member => absurd member List.not_mem_nil

theorem start_of_error {e : OutboxError} (failed : chore.ranges s table now = .error e) :
    chore.start s table now = .ended (.error e) := by
  cases chore with
  | creation | retirement =>
    simp only [ranges] at failed
    simp only [start, Upkeep.create, Upkeep.retire, failed]

end

end Chore

structure ChoreRun where
  chore : Chore
  work : Upkeep

namespace ChoreRun

def dropped : ChoreRun → Nat
  | ⟨.retirement, .detaching _ _ n⟩ | ⟨.retirement, .dropping _ _ n⟩ | ⟨.retirement, .ended (.ok n)⟩ => n
  | _ => 0

def next (table : String) (run : ChoreRun) (answer : Except PartitionError Unit) : ChoreRun :=
  { run with work := run.work.next table answer }

/-- How far a run is: it has created the first of its ranges, or the first of its partitions are gone. -/
inductive Progress (wanted : List PartitionRange) (expired : List String) (c : Catalogue) : ChoreRun → Prop where
  | creating {done : List PartitionRange} {range : PartitionRange} {rest : List PartitionRange}
      (whole : done ++ range :: rest = wanted) (taken : ∀ r ∈ done, c.Taken r.name) :
      Progress wanted expired c ⟨.creation, .creating range rest done.length⟩
  | created (taken : ∀ r ∈ wanted, c.Taken r.name) :
      Progress wanted expired c ⟨.creation, .ended (.ok wanted.length)⟩
  | detaching {done : List String} {name : String} {rest : List String} {n : Nat}
      (whole : done ++ name :: rest = expired) (gone : ∀ name ∈ done, ¬ c.Taken name) :
      Progress wanted expired c ⟨.retirement, .detaching name rest n⟩
  | dropping {done : List String} {name : String} {rest : List String} {n : Nat}
      (whole : done ++ name :: rest = expired) (gone : ∀ name ∈ done, ¬ c.Taken name) :
      Progress wanted expired c ⟨.retirement, .dropping name rest n⟩
  | retired {n : Nat} (gone : ∀ name ∈ expired, ¬ c.Taken name) :
      Progress wanted expired c ⟨.retirement, .ended (.ok n)⟩

end ChoreRun

namespace Catalogue

variable {start c c' : Catalogue} {wanted : List PartitionRange} {expired : List String} {call : StoreCall}
  {answer : Except PartitionError Unit} {name table : String} {r : PartitionRange}

/-! ### Room for all -/

/-- Whatever is wanted can be created, unless its name is taken, also after others were. -/
structure Plan (start : Catalogue) (wanted : List PartitionRange) (expired : List String) : Prop where
  partitioned : start.partitioned
  unique : (wanted.map (·.name)).Nodup
  apart : ∀ r ∈ wanted, r.name ∉ expired
  room : ∀ r ∈ wanted, ¬ start.Taken r.name →
    (∀ other ∈ start.attached.toList, r.overlaps other = false) ∧
      ∀ other ∈ wanted, ¬ start.Taken other.name → other.name ≠ r.name → r.overlaps other = false

theorem perform_create (partitioned : c.partitioned) : c.perform (.create r) = c.create r :=
  if_pos partitioned

theorem create_of_taken (taken : c.Taken r.name) : c.create r = (.ok (), c) := by
  unfold create
  rw [if_pos (Bool.or_eq_true_iff.mpr taken)]

theorem create_ok (apart : ∀ other ∈ c.attached.toList, r.overlaps other = false) :
    (c.create r).1 = .ok () := by
  by_cases taken : c.Taken r.name
  · rw [create_of_taken taken]
  · have clear : c.attached.toList.find? r.overlaps = none := List.find?_eq_none.mpr fun other member => by
      simp [apart other member]
    unfold create
    rw [if_neg (mt Bool.or_eq_true_iff.mp taken), clear]

theorem Underway.creates (h : Underway start wanted expired c) (plan : start.Plan wanted expired)
    (given : r ∈ wanted) : (c.perform (.create r)).1 = .ok () := by
  rw [perform_create (h.partitioned_eq.trans plan.partitioned)]
  by_cases taken : c.Taken r.name
  · rw [create_of_taken taken]
  · obtain ⟨before, others⟩ := plan.room r given ((h.fate r.name).free (plan.apart r given) taken)
    refine create_ok fun other member => ?_
    rcases h.attached member with old | ⟨wants, free⟩
    · exact before other old
    · refine others other wants free fun same => taken (.inl ?_)
      exact Keyed.contains_iff.mpr ⟨other, member, same⟩

theorem detach_answer (partitioned : c.partitioned) (name : String) : (c.perform (.detach name)).1 = .ok () ∨
    (c.perform (.detach name)).1 = .error (.notFound name) := by
  have detaches : c.perform (.detach name) = c.detach name := if_pos partitioned
  rw [detaches, detach]
  split
  · exact .inl rfl
  · exact .inr rfl

theorem drop_gone (c : Catalogue) (name : String) : ¬ (c.perform (.drop name)).2.Taken name ∧
    ((c.perform (.drop name)).1 = .ok () ∨ (c.perform (.drop name)).1 = .error (.notFound name)) := by
  show ¬ (c.drop name).2.Taken name ∧ ((c.drop name).1 = .ok () ∨ (c.drop name).1 = .error (.notFound name))
  unfold drop
  split
  · refine ⟨?_, .inl rfl⟩
    simp [taken_iff, Keyed.find?_erase]
  · rename_i free
    exact ⟨mt Bool.or_eq_true_iff.mpr free, .inr rfl⟩

end Catalogue

/-! ### One run -/

namespace ChoreRun

open Catalogue (Move Underway Plan)

variable {start c c' : Catalogue} {wanted : List PartitionRange} {expired : List String} {call : StoreCall}
  {answer : Except PartitionError Unit} {table : String} {run : ChoreRun}

namespace Progress

theorem creations {done rest : List PartitionRange} (whole : done ++ rest = wanted)
    (taken : ∀ r ∈ done, c.Taken r.name) :
    Progress wanted expired c ⟨.creation, .creations done.length rest⟩ := by
  cases rest with
  | nil =>
    rw [List.append_nil] at whole
    subst whole
    exact .created taken
  | cons range rest => exact .creating whole taken

theorem retirements {done rest : List String} (n : Nat) (whole : done ++ rest = expired)
    (gone : ∀ name ∈ done, ¬ c.Taken name) :
    Progress wanted expired c ⟨.retirement, .retirements n rest⟩ := by
  cases rest with
  | nil =>
    rw [List.append_nil] at whole
    subst whole
    exact .retired gone
  | cons name rest => exact .detaching whole gone

theorem creation_further {done rest : List PartitionRange} {range : PartitionRange}
    (whole : done ++ range :: rest = wanted) (taken : ∀ r ∈ done, c.Taken r.name) (now : c.Taken range.name) :
    Progress wanted expired c ⟨.creation, .creations (done.length + 1) rest⟩ := by
  have whole' : (done ++ [range]) ++ rest = wanted := by rwa [List.append_assoc]
  have further : Progress wanted expired c ⟨.creation, .creations (done ++ [range]).length rest⟩ := by
    refine creations whole' fun r member => ?_
    rcases List.mem_append.mp member with old | new
    · exact taken r old
    · exact List.mem_singleton.mp new ▸ now
  rwa [List.length_append] at further

theorem retirement_further {done rest : List String} {name : String} (n : Nat)
    (whole : done ++ name :: rest = expired) (gone : ∀ x ∈ done, ¬ c.Taken x) (went : ¬ c.Taken name) :
    Progress wanted expired c ⟨.retirement, .retirements n rest⟩ := by
  have whole' : (done ++ [name]) ++ rest = expired := by rwa [List.append_assoc]
  refine retirements n whole' fun x member => ?_
  rcases List.mem_append.mp member with old | new
  · exact gone x old
  · exact List.mem_singleton.mp new ▸ went

theorem within (h : run.Progress wanted expired c) : run.work.Within wanted expired := by
  cases h with
  | creating whole => exact fun r member => whole ▸ List.mem_append_right _ member
  | detaching whole | dropping whole => exact fun name member => whole ▸ List.mem_append_right _ member
  | created | retired => trivial

theorem stays (h : run.Progress wanted expired c) (apart : ∀ r ∈ wanted, r.name ∉ expired)
    (within : call.Within wanted expired) (moves : Move c call answer c') : run.Progress wanted expired c' := by
  have taken : ∀ r ∈ wanted, c.Taken r.name → c'.Taken r.name := fun r given =>
    moves.taken_stays apart within given
  have gone : ∀ name ∈ expired, ¬ c.Taken name → ¬ c'.Taken name := fun name expires =>
    moves.gone_stays apart within expires
  cases h with
  | creating whole made =>
    subst whole
    exact .creating rfl fun r member => taken r (List.mem_append_left _ member) (made r member)
  | created made => exact .created fun r member => taken r member (made r member)
  | detaching whole went =>
    subst whole
    exact .detaching rfl fun name member => gone name (List.mem_append_left _ member) (went name member)
  | dropping whole went =>
    subst whole
    exact .dropping rfl fun name member => gone name (List.mem_append_left _ member) (went name member)
  | retired went => exact .retired fun name member => gone name member (went name member)

end Progress

theorem dropped_retirements (n : Nat) (names : List String) :
    dropped ⟨.retirement, .retirements n names⟩ = n := by
  cases names <;> rfl

/-- A call of a run takes it further, and a drop that succeeds counts. -/
theorem Progress.next (h : run.Progress wanted expired c) (plan : start.Plan wanted expired)
    (underway : start.Underway wanted expired c) (asks : run.work.call? = some call) :
    (run.next table (c.perform call).1).Progress wanted expired (c.perform call).2 ∧
      (run.next table (c.perform call).1).dropped = run.dropped + call.drops (c.perform call).1 := by
  have moves := Catalogue.perform_moves c call
  have asked := h.within.asked asks
  have kept := h.stays plan.apart asked moves
  cases h with
  | created | retired => cases asks
  | @creating done range rest whole taken =>
    cases asks
    have answer := underway.creates plan (whole ▸ List.mem_append_right done List.mem_cons_self)
    have now := moves.create.2.2 answer
    rw [answer] at moves ⊢
    exact ⟨.creation_further whole (fun r old => moves.create_taken (taken r old)) now, rfl⟩
  | @detaching done name rest n whole gone =>
    cases asks
    have further : Progress wanted expired (c.perform (.detach name)).2 ⟨.retirement, .dropping name rest n⟩ := by
      cases kept with
      | detaching whole gone => exact .dropping whole gone
    have partitioned : c.partitioned := underway.partitioned_eq.trans plan.partitioned
    -- detached by another run already: the drop follows all the same
    rcases Catalogue.detach_answer partitioned name with answer | answer
    · rw [answer]
      exact ⟨further, rfl⟩
    · rw [answer]
      exact ⟨further, rfl⟩
  | @dropping done name rest n whole gone =>
    cases asks
    obtain ⟨went, answer⟩ := Catalogue.drop_gone c name
    have further (m : Nat) : Progress wanted expired (c.perform (.drop name)).2
        ⟨.retirement, .retirements m rest⟩ := by
      cases kept with
      | dropping whole gone => exact .retirement_further m whole gone went
    rcases answer with answer | answer
    · rw [answer]
      exact ⟨further (n + 1), dropped_retirements (n + 1) rest⟩
    · rw [answer]
      exact ⟨further n, dropped_retirements n rest⟩

theorem Progress.create {s : PartitionSettings} {now : Instant} (computed : s.ranges table now = .ok wanted) :
    Progress wanted expired c ⟨.creation, .create s table now⟩ := by
  unfold Upkeep.create
  rw [computed]
  exact .creations (List.nil_append wanted) fun _ member => absurd member List.not_mem_nil

theorem Progress.retire {s : PartitionSettings} {now : Instant} {old : List PartitionRange}
    (computed : s.expiredRanges table now = .ok old) (expires : old.map (·.name) = expired) :
    Progress wanted expired c ⟨.retirement, .retire s table now⟩ := by
  unfold Upkeep.retire
  rw [computed]
  exact .retirements 0 expires fun _ member => absurd member List.not_mem_nil

theorem Progress.begun {chore : Chore} {s : PartitionSettings} {now : Instant} {ranges : List PartitionRange}
    (computed : chore.ranges s table now = .ok ranges) :
    Progress (chore.wanted ranges) (chore.expired ranges) c ⟨chore, chore.start s table now⟩ := by
  cases chore with
  | creation => exact .create computed
  | retirement => exact .retire computed rfl

theorem dropped_start (chore : Chore) (s : PartitionSettings) (table : String) (now : Instant) :
    dropped ⟨chore, chore.start s table now⟩ = 0 := by
  cases chore with
  | creation => rfl
  | retirement =>
    show dropped ⟨.retirement, .retire s table now⟩ = 0
    unfold Upkeep.retire
    cases s.expiredRanges table now with
    | error => rfl
    | ok ranges => exact dropped_retirements 0 _

theorem Progress.ended_ok {chore : Chore} {result : Except OutboxError Nat}
    (h : Progress wanted expired c ⟨chore, .ended result⟩) : ∃ n, result = .ok n := by
  cases h <;> exact ⟨_, rfl⟩

theorem Progress.count_created {n : Nat} (h : Progress wanted expired c ⟨.creation, .ended (.ok n)⟩) :
    n = wanted.length := by
  cases h
  rfl

theorem Progress.settled {chore : Chore} {ranges : List PartitionRange} {result : Except OutboxError Nat}
    (h : Progress (chore.wanted ranges) (chore.expired ranges) c ⟨chore, .ended result⟩) :
    c.Settled (chore.wanted ranges) (chore.expired ranges) := by
  cases h with
  | created taken => exact ⟨taken, fun _ member => absurd member List.not_mem_nil⟩
  | retired gone => exact ⟨fun _ member => absurd member List.not_mem_nil, gone⟩

end ChoreRun

/-! ### Several runs at once -/

namespace Catalogue

variable {start c : Catalogue} {wanted : List PartitionRange} {expired : List String} {call : StoreCall}
  {table : String} {run : ChoreRun} {runs before after : List ChoreRun} {base : Nat}

/-- A catalogue that runs are at work on. `base` partitions had gone before they began. -/
structure Working (start : Catalogue) (wanted : List PartitionRange) (expired : List String) (base : Nat)
    (runs : List ChoreRun) (c : Catalogue) : Prop where
  underway : start.Underway wanted expired c
  progress : ∀ run ∈ runs, run.Progress wanted expired c
  counted : start.lost c = base + (runs.map ChoreRun.dropped).sum

namespace Working

/-- Whichever run makes its next call, all are as far as they were, and it is further. -/
theorem next (h : Working start wanted expired base (before ++ run :: after) c)
    (plan : start.Plan wanted expired) (asks : run.work.call? = some call) :
    Working start wanted expired base (before ++ run.next table (c.perform call).1 :: after)
      (c.perform call).2 := by
  obtain ⟨underway, progress, counted⟩ := h
  have own := progress run (List.mem_append_right _ List.mem_cons_self)
  have asked := own.within.asked asks
  have moves := perform_moves c call
  obtain ⟨further, drops⟩ : (run.next table (c.perform call).1).Progress wanted expired (c.perform call).2 ∧
      (run.next table (c.perform call).1).dropped = run.dropped + call.drops (c.perform call).1 :=
    own.next plan underway asks
  refine ⟨underway.move plan.apart asked moves, fun other member => ?_, ?_⟩
  · rcases List.mem_append.mp member with early | late
    · exact (progress other (List.mem_append_left _ early)).stays plan.apart asked moves
    · rcases List.mem_cons.mp late with rfl | late
      · exact further
      · have kept := progress other (List.mem_append_right _ (List.mem_cons_of_mem _ late))
        exact kept.stays plan.apart asked moves
  · have lost := underway.lost_move plan.apart asked moves
    simp only [List.map_append, List.map_cons, List.sum_append, List.sum_cons] at counted ⊢
    omega

theorem finish (h : Working start wanted expired base (before ++ run :: after) c)
    (plan : start.Plan wanted expired) :
    Working start wanted expired base
      (before ++ ⟨run.chore, .ended (run.work.run table perform c).1⟩ :: after)
      (run.work.run table perform c).2 :=
  Upkeep.run_invariant
    (P := fun u c => Working start wanted expired base (before ++ ⟨run.chore, u⟩ :: after) c)
    (fun _ _ _ asks working => working.next plan asks) h

end Working

/-! ### One after another -/

def carryOut (c : Catalogue) (chore : Chore) (s : PartitionSettings) (now : Instant) :
    Except OutboxError Nat × Catalogue :=
  (chore.start s c.table now).run c.table perform c

/-- Creates what is needed and then retires what is old. -/
def visit (s : PartitionSettings) (c : Catalogue) (now : Instant) : Catalogue :=
  ((c.carryOut .creation s now).2.carryOut .retirement s now).2

section Carrying

variable {chore : Chore} {s : PartitionSettings} {now : Instant} {ranges : List PartitionRange}

theorem carryOut_of_error {e : OutboxError} (failed : chore.ranges s c.table now = .error e) :
    c.carryOut chore s now = (.error e, c) := by
  rw [carryOut, Chore.start_of_error failed]
  rfl

theorem carryOut_underway (computed : chore.ranges s c.table now = .ok ranges) :
    c.Underway (chore.wanted ranges) (chore.expired ranges) (c.carryOut chore s now).2 := by
  have within := (ChoreRun.Progress.begun (c := c) computed).within
  refine Upkeep.runFor_keeps within (fun call asked c' underway => ?_) _ (.refl c _ _)
  exact underway.move chore.apart asked (perform_moves c' call)

theorem carryOut_table (chore : Chore) : (c.carryOut chore s now).2.table = c.table := by
  cases computed : chore.ranges s c.table now with
  | error e => rw [carryOut_of_error computed]
  | ok ranges => exact (carryOut_underway computed).table_eq

theorem carryOut_partitioned (chore : Chore) : (c.carryOut chore s now).2.partitioned = c.partitioned := by
  cases computed : chore.ranges s c.table now with
  | error e => rw [carryOut_of_error computed]
  | ok ranges => exact (carryOut_underway computed).partitioned_eq

/-- Where there is room a chore gets done, also if it was begun before. -/
theorem Underway.carryOut (h : start.Underway (chore.wanted ranges) (chore.expired ranges) c)
    (plan : start.Plan (chore.wanted ranges) (chore.expired ranges))
    (computed : chore.ranges s start.table now = .ok ranges) :
    Working start (chore.wanted ranges) (chore.expired ranges) (start.lost c)
      [⟨chore, .ended (c.carryOut chore s now).1⟩] (c.carryOut chore s now).2 := by
  rw [← h.table_eq] at computed
  have begun : Working start (chore.wanted ranges) (chore.expired ranges) (start.lost c)
      ([] ++ ⟨chore, chore.start s c.table now⟩ :: []) c := by
    refine ⟨h, fun run member => ?_, ?_⟩
    · cases List.mem_singleton.mp member
      exact .begun computed
    · simp only [List.nil_append, List.map_cons, List.map_nil, ChoreRun.dropped_start, List.sum_cons,
        List.sum_nil, Nat.add_zero]
  exact begun.finish plan

theorem Plan.retirement (partitioned : c.partitioned) (expired : List String) : c.Plan [] expired where
  partitioned := partitioned
  unique := .nil
  apart _ member := absurd member List.not_mem_nil
  room _ member := absurd member List.not_mem_nil

end Carrying

end Catalogue

end Outbox
