import Outbox.Proofs.Chores

/-!
Chores that are interrupted. An attempt may fail at any of its calls and leave partitions created,
detached or dropped; whatever it did is part of what there is to do (`attempt_underway`), so the attempts
may stop wherever they like. The one in which no call fails does the rest, and ends where a single one
would have ended (`chore_resumes`).
-/

namespace Outbox

open Rehearsal (Store StoreFault)

namespace Catalogue

variable {start c : Catalogue} {wanted : List PartitionRange} {expired : List String} {name table : String}
  {r : PartitionRange} {chore : Chore} {s : PartitionSettings} {now : Instant} {ranges : List PartitionRange}

/-- An attempt at a chore on a store in which calls are made to fail. -/
def attempt (c : Catalogue) (chore : Chore) (s : PartitionSettings) (now : Instant)
    (faults : List StoreFault) : Except OutboxError Nat × Catalogue :=
  ((chore.start s c.table now).run c.table Store.perform { catalogue := c, faults }).map id Store.catalogue

theorem attempt_nil (c : Catalogue) (chore : Chore) (s : PartitionSettings) (now : Instant) :
    c.attempt chore s now [] = c.carryOut chore s now := by
  -- a plain catalogue does not know the calls that a store keeps, so both are views of one that logs them
  let logged (store : Catalogue × List StoreCall) (call : StoreCall) :
      Except PartitionError Unit × Catalogue × List StoreCall :=
    ((store.1.perform call).1, (store.1.perform call).2, call :: store.2)
  let view (store : Catalogue × List StoreCall) : Store := { catalogue := store.1, calls := store.2 }
  have stores : ∀ store call, (view store).perform call = (logged store call).map id view :=
    fun _ _ => rfl
  have catalogues : ∀ (store : Catalogue × List StoreCall) (call : StoreCall),
      store.1.perform call = (logged store call).map id Prod.fst := fun _ _ => rfl
  have seen : (chore.start s c.table now).run c.table Store.perform (view (c, [])) =
      ((chore.start s c.table now).run c.table logged (c, [])).map id view :=
    Upkeep.run_map stores _ (c, [])
  have plain : (chore.start s c.table now).run c.table perform c =
      ((chore.start s c.table now).run c.table logged (c, [])).map id Prod.fst :=
    Upkeep.run_map catalogues _ (c, [])
  unfold attempt carryOut
  rw [seen, plain]
  rfl

/-! ### What an attempt leaves -/

/-- What an attempt does is part of the chore, wherever it breaks off. -/
theorem Underway.attempt (h : start.Underway (chore.wanted ranges) (chore.expired ranges) c)
    (computed : chore.ranges s start.table now = .ok ranges) (faults : List StoreFault) :
    start.Underway (chore.wanted ranges) (chore.expired ranges) (c.attempt chore s now faults).2 := by
  rw [← h.table_eq] at computed
  have within := (ChoreRun.Progress.begun (c := c) computed).within
  have keeps : ∀ call : StoreCall, call.Within (chore.wanted ranges) (chore.expired ranges) →
      ∀ store : Store, start.Underway (chore.wanted ranges) (chore.expired ranges) store.catalogue →
        start.Underway (chore.wanted ranges) (chore.expired ranges) (store.perform call).2.catalogue :=
    fun call asked store underway => underway.move chore.apart asked (store_moves store call)
  exact Upkeep.runFor_keeps within keeps _ h

theorem Underway.attempts (h : start.Underway (chore.wanted ranges) (chore.expired ranges) c)
    (computed : chore.ranges s start.table now = .ok ranges) (attempts : List (List StoreFault)) :
    start.Underway (chore.wanted ranges) (chore.expired ranges)
      (attempts.foldl (fun c faults => (c.attempt chore s now faults).2) c) := by
  induction attempts generalizing c with
  | nil => exact h
  | cons faults rest ih => exact ih (h.attempt computed faults)

theorem attempt_of_error {e : OutboxError} (failed : chore.ranges s c.table now = .error e)
    (faults : List StoreFault) : (c.attempt chore s now faults).2 = c := by
  rw [Catalogue.attempt, Chore.start_of_error failed]
  rfl

theorem attempt_attached (c : Catalogue) (faults : List StoreFault)
    (member : r ∈ (c.attempt chore s now faults).2.attached.toList) :
    r ∈ c.attached.toList ∨ ∃ ranges, chore.ranges s c.table now = .ok ranges ∧ r ∈ ranges := by
  cases computed : chore.ranges s c.table now with
  | error e =>
    rw [attempt_of_error computed] at member
    exact .inl member
  | ok ranges =>
    rcases ((Underway.refl c _ _).attempt computed faults).attached member with old | ⟨given, -⟩
    · exact .inl old
    · exact .inr ⟨ranges, rfl, chore.mem_of_wanted given⟩

theorem attempt_elsewhere (c : Catalogue) (faults : List StoreFault)
    (other : ∀ ranges, chore.ranges s c.table now = .ok ranges → name ∉ ranges.map (·.name)) :
    (c.attempt chore s now faults).2.attached.find? name = c.attached.find? name ∧
      (c.attempt chore s now faults).2.detached.find? name = c.detached.find? name := by
  cases computed : chore.ranges s c.table now with
  | error e =>
    rw [attempt_of_error computed]
    exact ⟨rfl, rfl⟩
  | ok ranges =>
    have listed := other ranges computed
    have underway := (Underway.refl c _ _).attempt computed faults
    cases underway.fate name with
    | kept attached detached => exact ⟨attached, detached⟩
    | leaving expires => exact absurd (chore.mem_of_expired expires) listed
    | created given named => exact absurd (named ▸ List.mem_map_of_mem (chore.mem_of_wanted given)) listed

/-! ### Room for the rest -/

theorem Underway.attached_of_taken (h : start.Underway wanted expired c)
    (unique : (wanted.map (·.name)).Nodup) (given : r ∈ wanted) (lasts : r.name ∉ expired)
    (free : ¬ start.Taken r.name) (taken : c.Taken r.name) : r ∈ c.attached.toList := by
  cases h.fate r.name with
  | kept attached detached => exact absurd ((taken_congr attached detached).mp taken) free
  | leaving expires => exact absurd expires lasts
  | created given' named _ attached =>
    cases List.inj_on_of_nodup_map unique given given' named.symm
    exact Keyed.mem_of_find? attached

/-- Where a creation succeeds there is room for all of its ranges. -/
theorem Plan.of_created (partitioned : c.partitioned) (computed : s.ranges c.table now = .ok ranges) {n : Nat}
    (succeeded : (c.carryOut .creation s now).1 = .ok n) : c.Plan ranges [] := by
  -- what was attached before may overlap anything, but what is new had room beside all that is there
  let Inv (store : Catalogue) : Prop := c.Underway ranges [] store ∧
    ∀ r ∈ store.attached.toList, r ∉ c.attached.toList → ∀ other ∈ store.attached.toList, other ≠ r →
      r.overlaps other = false
  have apart : ∀ r ∈ ranges, r.name ∉ ([] : List String) := fun _ _ => List.not_mem_nil
  have creates : ∀ ranges', s.ranges c.table now = .ok ranges' → ∀ r ∈ ranges', ∀ store, Inv store →
      Inv (store.perform (.create r)).2 ∧
        ((store.perform (.create r)).1 = .ok () → (store.perform (.create r)).2.Taken r.name) ∧
        ∀ made ∈ ranges', store.Taken made.name → (store.perform (.create r)).2.Taken made.name := by
    rintro ranges' computed' r given store ⟨underway, fits⟩
    cases computed.symm.trans computed'
    have moves := perform_moves store (.create r)
    have asked : StoreCall.Within ranges [] (.create r) := given
    refine ⟨⟨underway.move apart asked moves, ?_⟩, moves.create.2.2, fun _ _ => moves.create_taken⟩
    generalize (store.perform (.create r)).1 = answer, (store.perform (.create r)).2 = store' at moves
    cases moves with
    | failed | kept => exact fits
    | created free clear =>
      intro x member new other member' distinct
      rcases (mem_insert_of_free free).mp member with rfl | old <;>
        rcases (mem_insert_of_free free).mp member' with rfl | old'
      · exact absurd rfl distinct
      · exact clear other old'
      · exact (PartitionRange.overlaps_comm x other).trans (clear x old)
      · exact fits x old new other old' distinct
  have start : Inv c := ⟨.refl c _ _, fun r member new => absurd member new⟩
  obtain ⟨⟨underway, fits⟩, made⟩ := Upkeep.create_run Inv (fun r store => store.Taken r.name) creates start
  obtain ⟨ranges', computed', -, all⟩ := made n succeeded
  cases computed.symm.trans computed'
  have unique := PartitionSettings.ranges_unique computed
  refine ⟨partitioned, unique, apart, fun r given free => ?_⟩
  have new : r ∉ c.attached.toList := fun member => free (.inl (Keyed.contains_iff.mpr ⟨r, member, rfl⟩))
  have there := underway.attached_of_taken unique given List.not_mem_nil free (all r given)
  refine ⟨fun other member => ?_, fun other wants free' distinct => ?_⟩
  · refine fits r there new other (underway.stays member List.not_mem_nil) ?_
    rintro rfl
    exact new member
  · have there' := underway.attached_of_taken unique wants List.not_mem_nil free' (all other wants)
    exact fits r there new other there' fun same => distinct (congrArg _ same)

theorem Plan.of_success (partitioned : c.partitioned) (computed : chore.ranges s c.table now = .ok ranges)
    {n : Nat} (succeeded : (c.carryOut chore s now).1 = .ok n) :
    c.Plan (chore.wanted ranges) (chore.expired ranges) := by
  cases chore with
  | creation => exact .of_created partitioned computed succeeded
  | retirement => exact .retirement partitioned _

/-! ### The last attempt -/

/-- However a chore was interrupted, the attempt in which nothing fails succeeds if a single one from the
start would have, and ends where that one ends. All that has gone by then is what the single one would
have dropped. No attempt adds or takes away anything but the ranges of the chore. -/
theorem chore_resumes (chore : Chore) (s : PartitionSettings) (now : Instant) (partitioned : c.partitioned)
    (attempts : List (List StoreFault)) :
    let left := attempts.foldl (fun c faults => (c.attempt chore s now faults).2) c
    let single := c.attempt chore s now []
    let last := left.attempt chore s now []
    (∀ n, single.1 = .ok n → ∃ m, last.1 = .ok m ∧ last.2 = single.2 ∧
      (chore = .creation → m = n) ∧ (chore = .retirement → c.lost last.2 = n)) ∧
    ∀ (c' : Catalogue) (faults : List StoreFault),
      let after := (c'.attempt chore s now faults).2
      (∀ r ∈ after.attached.toList,
        r ∈ c'.attached.toList ∨ ∃ ranges, chore.ranges s c'.table now = .ok ranges ∧ r ∈ ranges) ∧
      ∀ name, (∀ ranges, chore.ranges s c'.table now = .ok ranges → name ∉ ranges.map (·.name)) →
        after.attached.find? name = c'.attached.find? name ∧
          after.detached.find? name = c'.detached.find? name := by
  intro left single last
  refine ⟨fun n succeeded => ?_, fun c' faults => ⟨fun r member => attempt_attached c' faults member,
    fun name other => attempt_elsewhere c' faults other⟩⟩
  simp only [single, last, attempt_nil] at succeeded ⊢
  cases computed : chore.ranges s c.table now with
  | error e =>
    rw [carryOut_of_error computed] at succeeded
    cases succeeded
  | ok ranges =>
    have plan := Plan.of_success partitioned computed succeeded
    have begun := Underway.refl c (chore.wanted ranges) (chore.expired ranges)
    have whole := begun.carryOut plan computed
    have rest := (begun.attempts computed attempts).carryOut plan computed
    have done := whole.progress _ List.mem_cons_self
    have done' := rest.progress _ List.mem_cons_self
    obtain ⟨m, result⟩ := done'.ended_ok
    have same := rest.underway.eq_of_settled whole.underway plan.unique done'.settled done.settled
    refine ⟨m, result, same, ?_, ?_⟩
    · rintro rfl
      rw [result] at done'
      rw [succeeded] at done
      exact done'.count_created.trans done.count_created.symm
    · rintro rfl
      have counted := whole.counted
      rw [lost_self, succeeded] at counted
      rw [same]
      simpa [ChoreRun.dropped] using counted

def threeDays : PartitionSettings := { enabled := true, precreateCount := 3, retentionCount := 1 }

/-- Six days are attached, of which two have expired on the fourth. -/
def crowded : Catalogue :=
  let first : Catalogue := { table := "outbox" }
  let half := (first.carryOut .creation threeDays (.ofSecond (9 * 86400))).2
  (half.carryOut .creation threeDays (.ofSecond (12 * 86400))).2

/-- The first attempt leaves a partition detached, the second drops it and fails at the next. -/
def interrupted : List (List StoreFault) :=
  [[⟨"drop", "outbox_p19700111", .other "busy"⟩], [⟨"detach", "outbox_p19700110", .notPartitioned "plain"⟩]]

theorem chore_resumes_twice :
    let now : Instant := .ofSecond (12 * 86400)
    let tried := interrupted.foldl (fun c faults => (c.attempt .retirement threeDays now faults).2) crowded
    crowded.partitioned ∧ (crowded.attempt .retirement threeDays now []).1 = .ok 2 ∧
      (crowded.attempt .retirement threeDays now interrupted[0]).1 =
        .error (.partition "outbox_p19700111" "busy") ∧
      tried.attached.size = 5 ∧
      ∃ m, (tried.attempt .retirement threeDays now []).1 = .ok m ∧
        (tried.attempt .retirement threeDays now []).2 = (crowded.attempt .retirement threeDays now []).2 ∧
        crowded.lost (tried.attempt .retirement threeDays now []).2 = 2 := by
  intro now tried
  have partitioned : crowded.partitioned := by decide
  have succeeded : (crowded.attempt .retirement threeDays now []).1 = .ok 2 := by
    decide +kernel
  obtain ⟨m, result, same, -, lost⟩ :=
    (chore_resumes .retirement threeDays now partitioned interrupted).1 2 succeeded
  exact ⟨partitioned, succeeded, by decide +kernel, by decide +kernel, m, result, same, lost rfl⟩

end Catalogue

end Outbox
