import Outbox.Loop.Partition

/-!
Runs of creations and retirements on any store. What each call keeps a whole run keeps
(`run_invariant`), and so does a run that is cut off (`runFor_keeps`); a creation that succeeds has made
all its ranges (`create_run`), and a retirement does nothing but detach and drop the expired ones
(`retire_run`).
-/

namespace Outbox

/-- Calls that create one of the wanted ranges, or that detach or drop one of the expired partitions. -/
def StoreCall.Within (wanted : List PartitionRange) (expired : List String) : StoreCall → Prop
  | .create range => range ∈ wanted
  | .detach name | .drop name => name ∈ expired

namespace Upkeep

variable {σ τ : Type} {table : String} {perform : σ → StoreCall → Except PartitionError Unit × σ}
  {u : Upkeep} {store : σ} {call : StoreCall} {wanted : List PartitionRange} {expired : List String}

theorem callsLeft_creations (n : Nat) (ranges : List PartitionRange) :
    (creations n ranges).callsLeft = ranges.length := by
  cases ranges <;> rfl

theorem callsLeft_retirements (n : Nat) (names : List String) :
    (retirements n names).callsLeft = 2 * names.length := by
  cases names <;> simp [retirements, callsLeft, Nat.mul_add]

theorem callsLeft_of_ended (ended : u.call? = none) : u.callsLeft = 0 := by
  cases u with
  | ended => rfl
  | _ => cases ended

theorem ended_of_callsLeft (none : u.callsLeft = 0) : ∃ result, u = .ended result := by
  cases u with
  | ended result => exact ⟨result, rfl⟩
  | _ => cases none

theorem callsLeft_next (asks : u.call? = some call) (answer : Except PartitionError Unit) :
    (u.next table answer).callsLeft < u.callsLeft := by
  cases u with
  | ended => cases asks
  | creating range rest n =>
    cases answer with
    | ok => exact Nat.lt_succ_of_le (Nat.le_of_eq (callsLeft_creations _ rest))
    | error => exact Nat.succ_pos _
  | detaching name rest n =>
    cases answer with
    | ok => exact Nat.lt_succ_self _
    | error e => cases e <;> first | exact Nat.succ_pos _ | exact Nat.lt_succ_self _
  | dropping name rest n =>
    have fewer (k : Nat) := Nat.lt_succ_of_le (Nat.le_of_eq (callsLeft_retirements k rest))
    cases answer with
    | ok => exact fewer _
    | error e => cases e <;> first | exact fewer _ | exact Nat.succ_pos _

theorem runFor_eq {m n : Nat} (enough : u.callsLeft ≤ m) (enough' : u.callsLeft ≤ n) :
    runFor table perform m u store = runFor table perform n u store := by
  induction m generalizing n u store with
  | zero =>
    cases u with
    | ended => cases n <;> rfl
    | _ => simp [callsLeft] at enough
  | succ m ih =>
    cases asks : u.call? with
    | none =>
      cases u with
      | ended => cases n <;> rfl
      | _ => cases asks
    | some call =>
      have fewer : (u.next table (perform store call).1).callsLeft < u.callsLeft := callsLeft_next asks _
      obtain ⟨n, rfl⟩ := Nat.exists_eq_succ_of_ne_zero (by omega : n ≠ 0)
      have rest : runFor table perform m (u.next table (perform store call).1) (perform store call).2 =
          runFor table perform n (u.next table (perform store call).1) (perform store call).2 :=
        ih (by omega) (by omega)
      cases u with
      | ended => cases asks
      | _ => simpa only [runFor, asks] using rest

theorem run_next (asks : u.call? = some call) : u.run table perform store =
    (u.next table (perform store call).1).run table perform (perform store call).2 := by
  have fewer : (u.next table (perform store call).1).callsLeft < u.callsLeft := callsLeft_next asks _
  have enough : u.run table perform store = runFor table perform (u.callsLeft + 1) u store :=
    runFor_eq (Nat.le_refl _) (Nat.le_succ _)
  rw [enough]
  cases u with
  | ended => cases asks
  | _ =>
    simp only [runFor, asks]
    exact runFor_eq (Nat.le_of_lt fewer) (Nat.le_refl _)

/-- What each call keeps a run keeps, along with how far it is. -/
theorem run_invariant {P : Upkeep → σ → Prop}
    (keeps : ∀ u store call, u.call? = some call → P u store →
      P (u.next table (perform store call).1) (perform store call).2) (start : P u store) :
    P (.ended (u.run table perform store).1) (u.run table perform store).2 := by
  induction left : u.callsLeft using Nat.strongRecOn generalizing u store with
  | ind n ih =>
    cases asks : u.call? with
    | none =>
      cases u with
      | ended => exact start
      | _ => cases asks
    | some call =>
      rw [run_next asks]
      exact ih _ (left ▸ callsLeft_next asks _) (keeps u store call asks start) rfl

/-! ### What runs call for -/

/-- All that a run has still to deal with is wanted or has expired. -/
def Within (wanted : List PartitionRange) (expired : List String) : Upkeep → Prop
  | .creating range rest _ => ∀ r ∈ range :: rest, r ∈ wanted
  | .detaching name rest _ | .dropping name rest _ => ∀ n ∈ name :: rest, n ∈ expired
  | .ended _ => True

theorem within_creations {ranges : List PartitionRange} (n : Nat) (given : ∀ r ∈ ranges, r ∈ wanted) :
    Within wanted expired (creations n ranges) := by
  cases ranges with
  | nil => trivial
  | cons range rest => exact given

theorem within_retirements {names : List String} (n : Nat) (given : ∀ name ∈ names, name ∈ expired) :
    Within wanted expired (retirements n names) := by
  cases names with
  | nil => trivial
  | cons name rest => exact given

namespace Within

theorem asked (h : Within wanted expired u) (asks : u.call? = some call) : call.Within wanted expired := by
  cases u with
  | ended => cases asks
  | _ =>
    cases asks
    exact h _ List.mem_cons_self

theorem next (h : Within wanted expired u) (answer : Except PartitionError Unit) :
    Within wanted expired (u.next table answer) := by
  cases u with
  | ended => trivial
  | creating range rest n =>
    cases answer with
    | ok => exact within_creations _ fun r member => h r (List.mem_cons_of_mem _ member)
    | error => trivial
  | detaching name rest n =>
    cases answer with
    | ok => exact h
    | error e => cases e <;> first | exact h | trivial
  | dropping name rest n =>
    have later (k : Nat) : Within wanted expired (retirements k rest) :=
      within_retirements k fun name member => h name (List.mem_cons_of_mem _ member)
    cases answer with
    | ok => exact later _
    | error e => cases e <;> first | exact later _ | trivial

end Within

/-- What the calls of a run keep holds at each moment of it. -/
theorem runFor_keeps {Inv : σ → Prop} (within : Within wanted expired u)
    (keeps : ∀ call : StoreCall, call.Within wanted expired → ∀ store, Inv store → Inv (perform store call).2)
    (n : Nat) (start : Inv store) : Inv (runFor table perform n u store).2 := by
  induction n generalizing u store with
  | zero => cases u <;> exact start
  | succ n ih =>
    cases asks : u.call? with
    | none =>
      cases u with
      | ended => exact start
      | _ => cases asks
    | some call =>
      have further : Inv (runFor table perform n (u.next table (perform store call).1)
          (perform store call).2).2 :=
        ih (within.next _) (keeps call (within.asked asks) store start)
      cases u with
      | ended => cases asks
      | _ => simpa only [runFor, asks] using further

/-! ### Creations -/

/-- Where a run of creations is: it has made the first of its ranges, or all if it succeeded. -/
def Creating (Made : PartitionRange → σ → Prop) (ranges : List PartitionRange) (store : σ) : Upkeep → Prop
  | .creating range rest n =>
    ∃ done, done ++ range :: rest = ranges ∧ n = done.length ∧ ∀ r ∈ done, Made r store
  | .ended (.ok n) => n = ranges.length ∧ ∀ r ∈ ranges, Made r store
  | .ended (.error _) => True
  | .detaching .. | .dropping .. => False

section Creations

variable {Inv : σ → Prop} {Made : PartitionRange → σ → Prop} {ranges : List PartitionRange}

theorem creating_creations {done rest : List PartitionRange} (whole : done ++ rest = ranges)
    (made : ∀ r ∈ done, Made r store) : Creating Made ranges store (creations done.length rest) := by
  cases rest with
  | nil =>
    rw [List.append_nil] at whole
    exact whole ▸ ⟨rfl, made⟩
  | cons range rest => exact ⟨done, whole, rfl, made⟩

theorem creations_run (table : String)
    (creates : ∀ r ∈ ranges, ∀ store, Inv store → Inv (perform store (.create r)).2 ∧
      ((perform store (.create r)).1 = .ok () → Made r (perform store (.create r)).2) ∧
      ∀ made ∈ ranges, Made made store → Made made (perform store (.create r)).2)
    (start : Inv store) :
    Inv ((creations 0 ranges).run table perform store).2 ∧
      ∀ n, ((creations 0 ranges).run table perform store).1 = .ok n →
        n = ranges.length ∧ ∀ r ∈ ranges, Made r ((creations 0 ranges).run table perform store).2 := by
  have keeps : ∀ u store call, u.call? = some call → Inv store ∧ Creating Made ranges store u →
      Inv (perform store call).2 ∧
        Creating Made ranges (perform store call).2 (u.next table (perform store call).1) := by
    rintro u store call asks ⟨inv, creating⟩
    cases u with
    | ended => cases asks
    | detaching | dropping => exact creating.elim
    | creating range rest n =>
      cases asks
      obtain ⟨done, whole, rfl, made⟩ := creating
      have given : range ∈ ranges := whole ▸ List.mem_append_right done List.mem_cons_self
      obtain ⟨kept, now, still⟩ := creates range given store inv
      refine ⟨kept, ?_⟩
      cases answer : (perform store (.create range)).1 with
      | error => trivial
      | ok =>
        have further : Creating Made ranges (perform store (.create range)).2
            (creations (done ++ [range]).length rest) := by
          refine creating_creations (by rwa [List.append_assoc]) fun r member => ?_
          rcases List.mem_append.mp member with old | new
          · exact still r (whole ▸ List.mem_append_left _ old) (made r old)
          · exact List.mem_singleton.mp new ▸ now answer
        rw [List.length_append] at further
        exact further
  have fresh : Creating Made ranges store (creations 0 ranges) :=
    creating_creations (List.nil_append ranges) fun _ member => absurd member List.not_mem_nil
  obtain ⟨inv, creating⟩ := run_invariant keeps ⟨start, fresh⟩
  refine ⟨inv, fun n succeeded => ?_⟩
  rw [succeeded] at creating
  exact creating

theorem create_run {s : PartitionSettings} {now : Instant} (Inv : σ → Prop)
    (Made : PartitionRange → σ → Prop)
    (creates : ∀ ranges, s.ranges table now = .ok ranges → ∀ r ∈ ranges, ∀ store, Inv store →
      Inv (perform store (.create r)).2 ∧
        ((perform store (.create r)).1 = .ok () → Made r (perform store (.create r)).2) ∧
        ∀ made ∈ ranges, Made made store → Made made (perform store (.create r)).2)
    (start : Inv store) :
    Inv ((create s table now).run table perform store).2 ∧
      ∀ n, ((create s table now).run table perform store).1 = .ok n →
        ∃ ranges, s.ranges table now = .ok ranges ∧ n = ranges.length ∧
          ∀ r ∈ ranges, Made r ((create s table now).run table perform store).2 := by
  unfold create
  cases computed : s.ranges table now with
  | error e => exact ⟨start, fun n succeeded => by cases succeeded⟩
  | ok ranges =>
    obtain ⟨inv, made⟩ := creations_run table (creates ranges computed) start
    refine ⟨inv, fun n succeeded => ?_⟩
    obtain ⟨count, all⟩ := made n succeeded
    exact ⟨ranges, rfl, count, all⟩

theorem create_runFor {s : PartitionSettings} {now : Instant} (Inv : σ → Prop)
    (creates : ∀ ranges, s.ranges table now = .ok ranges → ∀ r ∈ ranges, ∀ store, Inv store →
      Inv (perform store (.create r)).2) (n : Nat)
    (start : Inv store) : Inv (runFor table perform n (create s table now) store).2 := by
  unfold create
  cases computed : s.ranges table now with
  | error e => cases n <;> exact start
  | ok ranges =>
    have within : Within ranges [] (creations 0 ranges) := within_creations 0 fun _ member => member
    refine runFor_keeps within (fun call asked store inv => ?_) n start
    cases call with
    | create r => exact creates ranges computed r asked store inv
    | detach | drop => cases asked

theorem create_keeps {s : PartitionSettings} {now : Instant} (Inv : σ → Prop)
    (creates : ∀ ranges, s.ranges table now = .ok ranges → ∀ r ∈ ranges, ∀ store, Inv store →
      Inv (perform store (.create r)).2)
    (start : Inv store) : Inv ((create s table now).run table perform store).2 :=
  create_runFor Inv creates _ start

end Creations

/-! ### Retirements -/

theorem retire_runFor {s : PartitionSettings} {now : Instant} (Inv : σ → Prop)
    (retires : ∀ ranges, s.expiredRanges table now = .ok ranges → ∀ r ∈ ranges, ∀ store, Inv store →
      Inv (perform store (.detach r.name)).2 ∧ Inv (perform store (.drop r.name)).2) (n : Nat)
    (start : Inv store) : Inv (runFor table perform n (retire s table now) store).2 := by
  unfold retire
  cases computed : s.expiredRanges table now with
  | error e => cases n <;> exact start
  | ok ranges =>
    have within : Within [] (ranges.map (·.name)) (retirements 0 (ranges.map (·.name))) :=
      within_retirements 0 fun _ member => member
    refine runFor_keeps within (fun call asked store inv => ?_) n start
    cases call with
    | create => cases asked
    | detach name =>
      obtain ⟨r, given, rfl⟩ := List.mem_map.mp asked
      exact (retires ranges computed r given store inv).1
    | drop name =>
      obtain ⟨r, given, rfl⟩ := List.mem_map.mp asked
      exact (retires ranges computed r given store inv).2

theorem retire_run {s : PartitionSettings} {now : Instant} (Inv : σ → Prop)
    (retires : ∀ ranges, s.expiredRanges table now = .ok ranges → ∀ r ∈ ranges, ∀ store, Inv store →
      Inv (perform store (.detach r.name)).2 ∧ Inv (perform store (.drop r.name)).2)
    (start : Inv store) : Inv ((retire s table now).run table perform store).2 :=
  retire_runFor Inv retires _ start

/-! ### One store seen as another -/

/-- A run on a store that is watched is the run on the store itself. -/
theorem run_map {perform' : τ → StoreCall → Except PartitionError Unit × τ} {view : σ → τ}
    (same : ∀ store call, perform' (view store) call = (perform store call).map id view) (u : Upkeep)
    (store : σ) : u.run table perform' (view store) = (u.run table perform store).map id view := by
  have steps : ∀ n u store, runFor table perform' n u (view store) =
      (runFor table perform n u store).map id view := by
    intro n
    induction n with
    | zero =>
      intro u store
      cases u <;> rfl
    | succ n ih =>
      intro u store
      cases u with
      | ended => rfl
      | _ =>
        simp only [runFor, call?, same, Prod.map]
        exact ih _ _
  exact steps _ u store

end Upkeep

theorem PartitionLoop.cycle_map {σ τ : Type} {table : String}
    {perform : σ → StoreCall → Except PartitionError Unit × σ}
    {perform' : τ → StoreCall → Except PartitionError Unit × τ} {view : σ → τ}
    (same : ∀ store call, perform' (view store) call = (perform store call).map id view)
    (s : PartitionSettings) (now : Instant) (time : Nat) (store : σ) :
    cycle table perform' s now time (view store) = (cycle table perform s now time store).map id view := by
  simp only [cycle, Upkeep.run_map same, Prod.map, id_eq]
  split <;> rfl

end Outbox
