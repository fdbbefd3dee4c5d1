import Outbox.Proofs.Tiling
import Outbox.Proofs.UpkeepRuns

/-!
The calls of a run of creations or retirements with their answers. Whatever a store answers, a run makes
the calls it is to make in their order, up to the first that fails (`Trace.progress`), and it ends with a
misconfiguration where the table is not partitioned or the run could not begin (`Progress.outcome`).
-/

namespace Outbox

/-- A call on a store with its answer. -/
abbrev Exchange := StoreCall × Except PartitionError Unit

namespace Upkeep

variable {σ : Type} {table : String} {perform : σ → StoreCall → Except PartitionError Unit × σ} {store : σ}
  {u v : Upkeep} {call : StoreCall} {calls before : List Exchange} {ranges : List PartitionRange}
  {s : PartitionSettings} {now : Instant} {a : Except PartitionError Unit} {e : PartitionError}
  {result : Except OutboxError Nat}

/-- The calls that lead a run from `u` on. -/
inductive Trace (table : String) (u : Upkeep) : List Exchange → Upkeep → Prop
  | none : Trace table u [] u
  | more {calls : List Exchange} {v : Upkeep} {call : StoreCall} (h : Trace table u calls v)
      (asks : v.call? = some call) (a : Except PartitionError Unit) :
      Trace table u (calls ++ [(call, a)]) (v.next table a)

/-- The answers are those of a store on which the calls are made one after another. -/
inductive Answered (perform : σ → StoreCall → Except PartitionError Unit × σ) (store : σ) :
    List Exchange → σ → Prop
  | none : Answered perform store [] store
  | more {calls : List Exchange} {reached : σ} (h : Answered perform store calls reached) (call : StoreCall) :
      Answered perform store (calls ++ [(call, (perform reached call).1)]) (perform reached call).2

theorem Answered.trans {more : List Exchange} {reached last : σ} (h : Answered perform store calls reached)
    (h' : Answered perform reached more last) : Answered perform store (calls ++ more) last := by
  induction h' with
  | none => rwa [List.append_nil]
  | more _ call ih =>
    rw [← List.append_assoc]
    exact ih.more call

theorem trace_run (table : String) (perform : σ → StoreCall → Except PartitionError Unit × σ) (u : Upkeep)
    (store : σ) : ∃ calls, Trace table u calls (.ended (u.run table perform store).1) ∧
      Answered perform store calls (u.run table perform store).2 := by
  let P (v : Upkeep) (reached : σ) := ∃ calls, Trace table u calls v ∧ Answered perform store calls reached
  refine run_invariant (P := P) ?_ ⟨[], .none, .none⟩
  rintro v reached call asks ⟨calls, trace, answered⟩
  exact ⟨_, trace.more asks _, answered.more call⟩

/-! ### Answers -/

/-- An answer that a run goes on after: a success, or, where something is to be removed, that it is not
there. -/
def Fine : Exchange → Prop
  | (_, .ok _) => True
  | (.create _, .error _) => False
  | (.detach _, .error e) | (.drop _, .error e) => ∃ name, e = .notFound name

def Unpartitioned (calls : List Exchange) : Prop := ∃ x ∈ calls, ∃ detail, x.2 = .error (.notPartitioned detail)

/-- The run found something that trying again will not mend. -/
def Misconfigured (result : Except OutboxError Nat) : Prop := ∃ e, result = .error e ∧ e.isMisconfiguration

theorem unpartitioned_append {more : List Exchange} :
    Unpartitioned (calls ++ more) ↔ Unpartitioned calls ∨ Unpartitioned more := by
  simp only [Unpartitioned, List.mem_append, or_and_right, exists_or]

theorem not_unpartitioned (fine : ∀ x ∈ calls, Fine x) : ¬ Unpartitioned calls := by
  rintro ⟨⟨call, answer⟩, member, detail, rfl⟩
  have fine := fine _ member
  cases call with
  | create => exact fine
  | detach | drop =>
    obtain ⟨name, same⟩ := fine
    cases same

theorem unpartitioned_concat (fine : ∀ x ∈ before, Fine x) :
    Unpartitioned (before ++ [(call, .error e)]) ↔ ∃ detail, e = .notPartitioned detail := by
  rw [unpartitioned_append, or_iff_right (not_unpartitioned fine)]
  simp [Unpartitioned]

theorem misconfigured_explain {name : String} :
    Misconfigured (.error (explain table name e)) ↔ ∃ detail, e = .notPartitioned detail := by
  cases e <;> simp [Misconfigured, explain, OutboxError.isMisconfiguration]

/-! ### What is to be done -/

def removal (name : String) : List StoreCall := [.detach name, .drop name]

/-- The calls that a run makes if none fails. -/
def todo : Upkeep → List StoreCall
  | .creating range rest _ => (range :: rest).map .create
  | .detaching name rest _ => .detach name :: .drop name :: rest.flatMap removal
  | .dropping name rest _ => .drop name :: rest.flatMap removal
  | .ended _ => []

theorem todo_creations (n : Nat) (ranges : List PartitionRange) :
    (creations n ranges).todo = ranges.map .create := by
  cases ranges <;> rfl

theorem todo_retirements (n : Nat) (names : List String) :
    (retirements n names).todo = names.flatMap removal := by
  cases names <;> rfl

theorem creations_ne (n : Nat) (ranges : List PartitionRange) (e : OutboxError) :
    creations n ranges ≠ .ended (.error e) := by
  cases ranges <;> exact nofun

theorem retirements_ne (n : Nat) (names : List String) (e : OutboxError) :
    retirements n names ≠ .ended (.error e) := by
  cases names <;> exact nofun

theorem todo_of_call (asks : u.call? = some call) : ∃ rest, u.todo = call :: rest := by
  cases u <;> cases asks <;> exact ⟨_, rfl⟩

/-- A run goes on with the rest of its calls while all is well. -/
theorem next_fine (table : String) (asks : u.call? = some call) (fine : Fine (call, a)) :
    u.todo = call :: (u.next table a).todo ∧ ∀ e, u.next table a ≠ .ended (.error e) := by
  cases u with
  | ended => cases asks
  | creating range rest n =>
    cases asks
    cases a with
    | ok => exact ⟨congrArg _ (todo_creations (n + 1) rest).symm, creations_ne (n + 1) rest⟩
    | error e => exact fine.elim
  | detaching name rest n =>
    cases asks
    cases a with
    | ok => exact ⟨rfl, nofun⟩
    | error e =>
      obtain ⟨_, rfl⟩ := fine
      exact ⟨rfl, nofun⟩
  | dropping name rest n =>
    cases asks
    cases a with
    | ok => exact ⟨congrArg _ (todo_retirements (n + 1) rest).symm, retirements_ne (n + 1) rest⟩
    | error e =>
      obtain ⟨_, rfl⟩ := fine
      exact ⟨congrArg _ (todo_retirements n rest).symm, retirements_ne n rest⟩

theorem next_grave (asks : u.call? = some call) (grave : ¬ Fine (call, .error e)) :
    u.next table (.error e) = .ended (.error (explain table call.partition e)) := by
  cases u with
  | ended => cases asks
  | creating range rest n =>
    cases asks
    rfl
  | detaching name rest n | dropping name rest n =>
    cases asks
    cases e with
    | notFound name => exact absurd ⟨name, rfl⟩ grave
    | notPartitioned | other => rfl

/-! ### How far a run is -/

/-- A run has made the first of its calls and goes on with the others, or its last call has failed. -/
inductive Progress (table : String) (u : Upkeep) (calls : List Exchange) (v : Upkeep) : Prop
  | going (fine : ∀ x ∈ calls, Fine x) (plan : u.todo = calls.map (·.1) ++ v.todo) (first : calls = [] → v = u)
      (sound : calls ≠ [] → ∀ e, v ≠ .ended (.error e))
  | failed {before : List Exchange} {call : StoreCall} {e : PartitionError}
      (made : calls = before ++ [(call, .error e)]) (fine : ∀ x ∈ before, Fine x)
      (plan : calls.map (·.1) <+: u.todo)
      (work : v = .ended (.error (explain table call.partition e)))

theorem Trace.progress (h : Trace table u calls v) : Progress table u calls v := by
  induction h with
  | none =>
    exact .going (fun _ member => absurd member List.not_mem_nil) rfl (fun _ => rfl) fun some => absurd rfl some
  | @more calls v call _ asks a ih =>
    cases ih with
    | failed _ _ _ work =>
      -- what has failed asks for nothing more
      rw [work] at asks
      cases asks
    | going fine plan =>
      by_cases well : Fine (call, a)
      · obtain ⟨next, sound⟩ := next_fine table asks well
        refine .going ?_ ?_ (fun none => absurd none (List.append_ne_nil_of_right_ne_nil _ (List.cons_ne_nil _ _)))
          fun _ => sound
        · exact List.forall_mem_append.mpr ⟨fine, List.forall_mem_singleton.mpr well⟩
        · rw [plan, next, List.map_append, List.append_assoc]
          rfl
      · cases a with
        | ok => exact absurd trivial well
        | error e =>
          obtain ⟨rest, todo⟩ := todo_of_call asks
          refine .failed rfl fine ⟨rest, ?_⟩ (next_grave asks well)
          rw [plan, todo, List.map_append, List.append_assoc]
          rfl

namespace Progress

theorem planned (h : Progress table u calls v) : calls.map (·.1) <+: u.todo := by
  cases h with
  | going _ plan => exact plan ▸ List.prefix_append _ _
  | failed _ _ plan => exact plan

theorem all {n : Nat} (h : Progress table u calls (.ended (.ok n))) :
    calls.map (·.1) = u.todo ∧ ∀ x ∈ calls, Fine x := by
  cases h with
  | going fine plan => exact ⟨(plan.trans (List.append_nil _)).symm, fine⟩
  | failed _ _ _ work => cases work

/-- A misconfiguration was there from the start, or the store has answered that its table is not partitioned. -/
theorem outcome (h : Progress table u calls (.ended result)) :
    Misconfigured result ↔ Unpartitioned calls ∨ ∃ e, u = .ended (.error e) ∧ e.isMisconfiguration := by
  cases h with
  | going fine plan first sound =>
    rw [or_iff_right (not_unpartitioned fine)]
    constructor
    · rintro ⟨e, rfl, ill⟩
      have none : calls = [] := by
        by_contra some
        exact sound some e rfl
      exact ⟨e, (first none).symm, ill⟩
    · rintro ⟨e, rfl, ill⟩
      have none : calls = [] := List.map_eq_nil_iff.mp (List.append_eq_nil_iff.mp plan.symm).1
      cases first none
      exact ⟨e, rfl, ill⟩
  | failed made fine plan work =>
    cases work
    rw [misconfigured_explain, made, unpartitioned_concat fine, or_iff_left]
    rintro ⟨e, rfl, -⟩
    rw [made, todo, List.prefix_nil, List.map_eq_nil_iff] at plan
    exact List.append_ne_nil_of_right_ne_nil _ (List.cons_ne_nil _ _) plan

end Progress

/-! ### Creations and retirements -/

def creation (r : PartitionRange) : Exchange := (.create r, .ok ())

theorem eq_creations (fine : ∀ x ∈ calls, Fine x) (same : calls.map (·.1) = ranges.map .create) :
    calls = ranges.map creation := by
  have each : ∀ x ∈ calls, (x.1, .ok ()) = x := by
    rintro ⟨call, answer⟩ member
    have fine := fine _ member
    obtain ⟨r, -, rfl⟩ := List.mem_map.mp (same ▸ List.mem_map_of_mem member)
    cases answer with
    | ok => rfl
    | error => exact fine.elim
  calc calls = calls.map fun x => (x.1, .ok ()) := by rw [List.map_congr_left each, List.map_id']
    _ = (calls.map (·.1)).map fun call => (call, .ok ()) := by rw [List.map_map]; rfl
    _ = ranges.map creation := by rw [same, List.map_map]; rfl

theorem todo_create (s : PartitionSettings) (table : String) (now : Instant) :
    (create s table now).todo = ((s.ranges table now).toOption.getD []).map .create := by
  unfold create
  cases s.ranges table now with
  | ok ranges => exact todo_creations 0 ranges
  | error e => rfl

theorem todo_retire (s : PartitionSettings) (table : String) (now : Instant) :
    (retire s table now).todo = ((s.expiredRanges table now).toOption.getD []).flatMap (removal ·.name) := by
  unfold retire
  cases s.expiredRanges table now with
  | ok ranges => exact (todo_retirements 0 _).trans (List.flatMap_map _ _ _)
  | error e => rfl

theorem create_refused_iff (table : String) (now : Instant) (bounded : s.Bounded)
    (count : 1 ≤ s.precreateCount.toNat) :
    (∃ e, create s table now = .ended (.error e) ∧ e.isMisconfiguration) ↔
      ¬ s.HasBounds (s.rangeDay now) s.precreateCount.toNat := by
  rw [← PartitionSettings.rangesFrom_failed_iff table bounded count, ← PartitionSettings.ranges]
  unfold create
  cases computed : s.ranges table now with
  | error e =>
    refine iff_of_true ⟨e, rfl, ?_⟩ ⟨e, rfl⟩
    rw [PartitionSettings.rangesFrom_error computed]
    rfl
  | ok ranges => exact iff_of_false (fun ⟨e, failed, _⟩ => creations_ne 0 ranges e failed) nofun

theorem retire_refused_iff (table : String) (now : Instant) (bounded : s.Bounded)
    (count : 1 ≤ s.precreateCount.toNat) :
    (∃ e, retire s table now = .ended (.error e) ∧ e.isMisconfiguration) ↔
      ¬ s.HasBounds (s.rangeDay now - s.spanDays * s.precreateCount.toNat) s.precreateCount.toNat := by
  rw [← PartitionSettings.rangesFrom_failed_iff table bounded count]
  simp only [← PartitionSettings.expiredRanges_eq_error_iff]
  unfold retire
  cases computed : s.expiredRanges table now with
  | error e =>
    refine iff_of_true ⟨e, rfl, ?_⟩ ⟨e, rfl⟩
    rw [PartitionSettings.rangesFrom_error (PartitionSettings.expiredRanges_eq_error_iff.mp computed)]
    rfl
  | ok ranges => exact iff_of_false (fun ⟨e, failed, _⟩ => retirements_ne 0 _ e failed) nofun

end Upkeep

end Outbox
