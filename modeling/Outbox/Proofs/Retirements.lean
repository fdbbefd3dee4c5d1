import Mathlib.Data.List.Forall2
import Outbox.Proofs.Transcripts
import Outbox.Proofs.UpkeepTraces
import Outbox.Rehearsal.Database
import Outbox.Sql.Partition

/-!
What a retirement makes of the errors of a database. It goes on after an error that tells of something
missing, whatever that is, and ends with any other one before it sends another statement
(`retirement_ends_at`).
-/

namespace Outbox

namespace Sql

def Says (text part : String) : Prop := part.toList <:+: text.toList

theorem mentions_iff {text part : String} : mentions text part ↔ Says text part := by
  unfold mentions Says
  induction text.toList with
  | nil => simp [mentions.go, List.isEmpty_iff]
  | cons c cs ih => simp [mentions.go, List.infix_cons_iff, ih]

instance (text part : String) : Decidable (Says text part) := decidable_of_iff _ mentions_iff

/-- The server tells of something missing: by the words of its message or by its code, unless the words say that
a table has no partitions. An error without a code is one with an empty code. -/
def TellsMissing : DatabaseError → Prop
  | .server code message => ¬ Says message "is not partitioned" ∧
      (Says message "is not a partition of" ∨ Says message "does not exist" ∨ code = "42P01")
  | _ => False

theorem classify_notFound_iff (table partition : String) {e : DatabaseError} :
    (∃ name, classify table partition e = .notFound name) ↔ TellsMissing e := by
  cases e with
  | server code message =>
    simp only [classify, classifyServer, TellsMissing, Bool.or_eq_true, mentions_iff]
    split_ifs with plain missing unknown other
    · simp [plain]
    · exact iff_of_true ⟨_, rfl⟩ ⟨plain, or_assoc.mp (.inl missing)⟩
    · exact iff_of_true ⟨_, rfl⟩ ⟨plain, .inr (.inr unknown)⟩
    all_goals
      have named : ¬ (Says message "is not a partition of" ∨ Says message "does not exist" ∨ code = "42P01") :=
        fun h => (or_assoc.mpr h).elim missing unknown
      simp [named]
  | _ => simp [classify, TellsMissing]

variable {σ : Type} {db : Database σ} {table : String} {state : σ} {calls : List Outbox.Exchange}
  {last : σ × List Exchange}

/-- How a statement and its answer in a transcript look to the one who called for it. -/
def Reported (table : String) (seen : Outbox.Exchange) (x : Exchange) : Prop :=
  x.command = .run (.ofStoreCall seen.1) ∧
    seen.2 = (x.answer.map fun _ => ()).mapError (classify table seen.1.partition)

theorem Reported.fine_iff {seen : Outbox.Exchange} {x : Exchange} {e : DatabaseError}
    (h : Reported table seen x) (failed : x.answer = .error e) (removes : ∀ range, seen.1 ≠ .create range) :
    Upkeep.Fine seen ↔ TellsMissing e := by
  obtain ⟨call, a⟩ := seen
  have answer : a = (x.answer.map fun _ => ()).mapError (classify table call.partition) := h.2
  rw [failed] at answer
  subst answer
  rw [← classify_notFound_iff table call.partition]
  cases call with
  | create range => exact absurd rfl (removes range)
  | detach name | drop name => rfl

theorem answered_recorded (h : Upkeep.Answered (perform (recorded db) table) (state, []) calls last) :
    List.Forall₂ (Reported table) calls last.2 := by
  induction h with
  | none => exact .nil
  | more _ call ih => exact List.rel_append ih (.cons ⟨rfl, rfl⟩ .nil)

end Sql

namespace Upkeep

variable {table : String} {u v : Upkeep} {before after : List Exchange} {x : Exchange}

/-- A run has not failed with a call whose answer was fine. -/
theorem Trace.sound_of_fine (h : Trace table u (before ++ [x]) v) (fine : Fine x) (e : OutboxError) :
    v ≠ .ended (.error e) := by
  generalize made : before ++ [x] = calls at h
  cases h with
  | none => exact absurd made (List.append_ne_nil_of_right_ne_nil _ (List.cons_ne_nil _ _))
  | more _ asks a =>
    obtain ⟨-, same⟩ := List.append_inj' made rfl
    cases same
    exact (next_fine table asks fine).2 e

/-- A call whose answer was not fine is the last one of a run. -/
theorem Trace.ends_at (h : Trace table u (before ++ x :: after) v) (grave : ¬ Fine x) :
    after = [] ∧ ∃ e, x.2 = .error e ∧ v = .ended (.error (explain table x.1.partition e)) := by
  cases h.progress with
  | going fine => exact absurd (fine x (List.mem_append_right _ List.mem_cons_self)) grave
  | @failed earlier call e made fine _ work =>
    rcases after.eq_nil_or_concat' with rfl | ⟨middle, last, rfl⟩
    · obtain ⟨-, same⟩ := List.append_inj' made rfl
      cases same
      exact ⟨rfl, e, rfl, work⟩
    · -- then the grave answer is one of those before the last, which are fine
      rw [← List.cons_append, ← List.append_assoc] at made
      obtain ⟨rfl, -⟩ := List.append_inj' made rfl
      exact absurd (fine x (List.mem_append_right _ List.mem_cons_self)) grave

end Upkeep

namespace Sql

/-- What was called for before a statement in a transcript, the call for it, and what was called for after it. -/
theorem reported_split {table : String} {calls : List Outbox.Exchange} {before after : List Exchange} {x : Exchange}
    (h : List.Forall₂ (Reported table) calls (before ++ x :: after)) :
    ∃ earlier seen later, calls = earlier ++ seen :: later ∧ Reported table seen x ∧
      List.Forall₂ (Reported table) later after := by
  obtain ⟨seen, later, report, rest, split⟩ :=
    List.forall₂_cons_right_iff.mp (List.forall₂_drop_append _ _ _ h)
  exact ⟨calls.take before.length, seen, later, by rw [← split, List.take_append_drop], report, rest⟩

theorem call_of_retire {s : PartitionSettings} {table : String} {now : Instant} {call : StoreCall}
    (planned : call ∈ (Upkeep.retire s table now).todo) :
    ∃ name ∈ ((s.expiredRanges table now).toOption.getD []).map (·.name), call = .detach name ∨ call = .drop name := by
  rw [Upkeep.todo_retire, List.mem_flatMap] at planned
  obtain ⟨r, expired, removed⟩ := planned
  exact ⟨r.name, List.mem_map_of_mem expired, by simpa [Upkeep.removal] using removed⟩

variable {σ : Type}

/-- Each statement that a retirement sends detaches or drops an expired partition. If the database answers it
with an error, that is the end of the retirement, and the error its result, unless the error tells of
something missing; with one that does the retirement never ends. -/
theorem retirement_ends_at (db : Database σ) (s : PartitionSettings) (table : String) (now : Instant) (state : σ) :
    let run := (Upkeep.retire s table now).run table (perform (recorded db) table) (state, [])
    ∀ (before after : List Exchange) (x : Exchange), run.2.2 = before ++ x :: after →
      ∃ name ∈ ((s.expiredRanges table now).toOption.getD []).map (·.name),
        (x.command = .run (.detachPartition name) ∨ x.command = .run (.dropPartition name)) ∧
        ∀ e, x.answer = .error e →
          (¬ TellsMissing e →
            after = [] ∧ run.1 = .error (Upkeep.explain table name (classify table name e))) ∧
          (TellsMissing e → ∀ cause, run.1 = .error cause → after ≠ []) := by
  intro run before after x sent
  obtain ⟨calls, trace, answered⟩ :=
    Upkeep.trace_run table (perform (recorded db) table) (Upkeep.retire s table now) (state, [])
  have reports : List.Forall₂ (Reported table) calls (before ++ x :: after) := sent ▸ answered_recorded answered
  obtain ⟨earlier, seen, later, rfl, report, rest⟩ := reported_split reports
  have planned : seen.1 ∈ (Upkeep.retire s table now).todo :=
    trace.progress.planned.subset (List.mem_map_of_mem (List.mem_append_right _ List.mem_cons_self))
  obtain ⟨name, expired, removes⟩ := call_of_retire planned
  have partition : seen.1.partition = name := by rcases removes with call | call <;> rw [call] <;> rfl
  have noCreation : ∀ range, seen.1 ≠ .create range := by
    rcases removes with call | call <;> rw [call] <;> exact fun _ => nofun
  refine ⟨name, expired, ?_, fun e failed => ⟨fun grave => ?_, fun missing cause ended none => ?_⟩⟩
  · rw [report.1]
    exact removes.imp (fun call => by rw [call]; rfl) fun call => by rw [call]; rfl
  · have fine := mt (report.fine_iff failed noCreation).mp grave
    obtain ⟨none, e', answer, result⟩ := trace.ends_at fine
    rw [none] at rest
    have answer' := report.2
    rw [failed, answer, partition] at answer'
    cases answer'
    rw [partition] at result
    exact ⟨List.forall₂_nil_left_iff.mp rest, Upkeep.ended.inj result⟩
  · subst none
    rw [List.forall₂_nil_right_iff.mp rest] at trace
    exact trace.sound_of_fine ((report.fine_iff failed noCreation).mpr missing) cause (congrArg _ ended)

def threeDays : PartitionSettings := { enabled := true, precreateCount := 3, retentionCount := 1 }

/-- A retirement on 1970-01-11 on a database that answers from a script. -/
def scriptedRetirement (answers : List Rehearsal.ScriptedAnswer) :
    Except OutboxError Nat × Rehearsal.ScriptedDatabase × List Exchange :=
  (Upkeep.retire threeDays "outbox" (.ofSecond 864000)).run "outbox"
    (perform (recorded Rehearsal.ScriptedDatabase.perform) "outbox")
    ({ features := {}, replies := answers.map fun answer => { answer } }, [])

theorem retirement_ends_at_full_disk :
    let e := DatabaseError.server "53100" "disk full"
    let run := scriptedRetirement [.affected 0, .error "53100" "disk full"]
    run.2.2 = [⟨.run (.detachPartition "outbox_p19700109"), .ok (.affected 0)⟩] ++
        ⟨.run (.dropPartition "outbox_p19700109"), .error e⟩ :: [] ∧
      ¬ TellsMissing e ∧ run.1 = .error (.partition "outbox_p19700109" "disk full") := by
  intro e run
  have sent : run.2.2 = [⟨.run (.detachPartition "outbox_p19700109"), .ok (.affected 0)⟩] ++
      ⟨.run (.dropPartition "outbox_p19700109"), .error e⟩ :: [] := rfl
  have grave : ¬ TellsMissing e := by
    simp only [e, TellsMissing]
    decide
  obtain ⟨name, -, command, ends⟩ := retirement_ends_at Rehearsal.ScriptedDatabase.perform threeDays "outbox"
    (.ofSecond 864000) _ _ _ _ sent
  rcases command with command | command
  · cases command
  · cases command
    exact ⟨sent, grave, ((ends e rfl).1 grave).2⟩

/-- The table itself is missing, and nothing is said of the partition; still the retirement goes on to drop the
partition and the others, and succeeds. -/
theorem missing_table_passed_over :
    let message := "relation \"outbox\" does not exist"
    let run := scriptedRetirement [.error "42P01" message]
    threeDays.fault? = none ∧ ¬ Says message "outbox_p19700109" ∧
      run.2.2.head? = some ⟨.run (.detachPartition "outbox_p19700109"), .error (.server "42P01" message)⟩ ∧
      run.2.2[1]? = some ⟨.run (.dropPartition "outbox_p19700109"), .ok (.affected 0)⟩ ∧
      run.2.2.length = 4 ∧ run.1 = .ok 2 := by
  refine ⟨by decide, by decide, rfl, rfl, rfl, rfl⟩

end Sql

end Outbox
