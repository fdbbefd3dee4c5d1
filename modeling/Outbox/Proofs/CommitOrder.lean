import Outbox.Proofs.Ownership

/-!
What ticks in order commit. Where no row is put off and rows come in behind all that came before, every
save that succeeds takes the first rows off the queue (`InLine.step`). So all that was ever committed,
in the order of the commits, are the first of the rows that there ever were (`committed_in_order`).
-/

namespace Outbox

variable {features : Features} {partitioned : Bool}

def Row.Undelayed (features : Features) (row : Row) : Prop :=
  features.status → row.fields.retryAfter = none

instance (features : Features) (row : Row) : Decidable (row.Undelayed features) :=
  inferInstanceAs (Decidable (_ → _))

/-- Time makes no difference to a row that is not put off. -/
theorem Row.Undelayed.isEligible {row : Row} (h : row.Undelayed features) (now now' : Instant) :
    row.isEligible features now partitioned = row.isEligible features now' partitioned := by
  unfold Row.isEligible Row.status?
  cases tracked : features.status with
  | false => rfl
  | true => simp [StatusFields.isDue, h tracked]

namespace Table

variable {t : Table} {now : Instant} {rows : List Row}

theorem eligible_undelayed (undelayed : ∀ r ∈ t.rows.toList, r.Undelayed features) (now now' : Instant) :
    t.eligible features now partitioned = t.eligible features now' partitioned := by
  refine eq_of_precedes eligible_pairwise eligible_pairwise fun r => ?_
  rw [mem_eligible, mem_eligible]
  refine and_congr_right fun found => ?_
  rw [(undelayed r (Keyed.mem_of_find? found)).isEligible now now']

theorem eligible_insert (new : ∀ r ∈ rows, t.rows.find? r.id = none) (unique : (rows.map (·.id)).Nodup)
    (sorted : rows.Pairwise (Row.precedes features))
    (after : ∀ a ∈ t.eligible features now partitioned, ∀ r ∈ rows, a.precedes features r) :
    (t.insert rows).eligible features now partitioned =
      t.eligible features now partitioned ++ rows.filter (·.isEligible features now partitioned) := by
  have whole : (t.eligible features now partitioned ++
      rows.filter (·.isEligible features now partitioned)).Pairwise (Row.precedes features) :=
    List.pairwise_append.mpr ⟨eligible_pairwise, sorted.filter _, fun a old r added =>
      after a old r (List.mem_of_mem_filter added)⟩
  refine eq_of_precedes eligible_pairwise whole fun r => ?_
  rw [List.mem_append, List.mem_filter]
  constructor
  · intro offered
    obtain ⟨found, eligible⟩ := mem_eligible.mp offered
    by_cases added : r ∈ rows
    · exact .inr ⟨added, eligible⟩
    · refine .inl (mem_eligible.mpr ⟨?_, eligible⟩)
      rw [← found]
      refine (Keyed.find?_foldl_insert_of_ne fun other member same => added ?_).symm
      have found' := Keyed.find?_foldl_insert_of_mem (s := t.rows) unique member
      rw [same] at found'
      exact Option.some.inj (found'.symm.trans found) ▸ member
  · rintro (old | ⟨added, eligible⟩)
    · exact mem_eligible_insert new old
    · exact mem_eligible.mpr ⟨Keyed.find?_foldl_insert_of_mem unique added, eligible⟩

end Table

/-! ### A commit of the first rows -/

namespace Session

variable {s : Session} {t : Table} {txn : TransactionId} {done rest : List Row} {now : Instant}

theorem find?_commit_finishing (id : ItemId) :
    (s.commit txn (.finishing s.job done) t).rows.find? id =
      if id ∈ done.map (·.id) then
        (t.rows.find? id).bind (Table.leftover s.job.features s.job.mode.partitioned)
      else t.rows.find? id := by
  have ids : (Decision.finishing s.job done).processed.map (·.id) = done.map (·.id) := by
    simp [Decision.finishing, Function.comp_def, Row.id_modifyStatus]
  split
  · rename_i finished
    exact Table.find?_write_done (ids ▸ finished) fun _ member => absurd member List.not_mem_nil
  · rename_i other
    exact Table.find?_write_other (ids ▸ other) fun _ member => absurd member List.not_mem_nil

theorem eligible_commit (inOrder : s.job.InOrder features partitioned)
    (tracked : partitioned → features.status)
    (whole : t.eligible features now partitioned = done ++ rest) :
    (s.commit txn (.finishing s.job done) t).eligible features now partitioned = rest := by
  have unique : ((done ++ rest).map (·.id)).Nodup := whole ▸ Table.eligible_nodup
  have sorted : (done ++ rest).Pairwise (Row.precedes features) := whole ▸ Table.eligible_pairwise
  rw [List.map_append] at unique
  refine eq_of_precedes Table.eligible_pairwise (List.pairwise_append.mp sorted).2.1 fun r => ?_
  rw [Table.mem_eligible, find?_commit_finishing]
  split
  · rename_i finished
    refine iff_of_false (fun ⟨found, eligible⟩ => ?_) fun left => ?_
    · -- what is left of a done row is not on offer
      obtain ⟨before, -, left⟩ := Option.bind_eq_some_iff.mp found
      unfold Table.leftover at left
      split at left
      · rename_i stays
        have stays : partitioned = true := inOrder.partitions ▸ stays
        cases left
        simp [Row.isEligible, Row.status?, Row.modifyStatus, inOrder.itemType, tracked stays, stays,
          StatusFields.markCompleted] at eligible
      · cases left
    · exact (List.nodup_append.mp unique).2.2 r.id finished r.id (List.mem_map_of_mem left) rfl
  · rename_i other
    rw [← Table.mem_eligible, whole, List.mem_append]
    exact or_iff_right fun finished => other (List.mem_map_of_mem finished)

theorem undelayed_commit (undelayed : ∀ r ∈ t.rows.toList, r.Undelayed features) :
    ∀ r ∈ (s.commit txn (.finishing s.job done) t).rows.toList, r.Undelayed features := by
  intro r member tracked
  have found := Keyed.find?_of_mem member
  rw [find?_commit_finishing] at found
  split at found
  · obtain ⟨before, there, left⟩ := Option.bind_eq_some_iff.mp found
    have due := undelayed before (Keyed.mem_of_find? there) tracked
    unfold Table.leftover Row.modifyStatus at left
    split at left
    · split at left <;> cases left <;> exact due
    · cases left
  · exact undelayed r (Keyed.mem_of_find? found) tracked

end Session

namespace Ticks

/-- Rows come in behind all that came before and are not put off, and ticks are in order. -/
def Queued (features : Features) (partitioned : Bool) (s : State) : Event → Prop
  | .insert rows => rows.Pairwise (fun a b => a.precedes features b ∧ a.id ≠ b.id) ∧
      ∀ r ∈ rows, r.Undelayed features ∧ s.table.rows.find? r.id = none ∧
        ∀ b ∈ s.inserted, b.precedes features r
  | .begin job _ => job.InOrder features partitioned
  | .clock _ | .act .. => True

instance (features : Features) (partitioned : Bool) (s : State) :
    (e : Event) → Decidable (Queued features partitioned s e)
  | .insert _ => inferInstanceAs (Decidable (_ ∧ _))
  | .begin .. => inferInstanceAs (Decidable (Job.InOrder ..))
  | .clock _ | .act .. => .isTrue trivial

def Event.rows : Event → List Row
  | .insert rows => rows
  | _ => []

/-- The rows that the step of a tick takes out of the queue, in the order of its batch. -/
def written (s : State) : Event → List ItemId
  | .act i a =>
    match s.courses[i]? with
    | some c =>
      match c.saved, (c.act s.now s.table a).1.saved with
      | none, some d => d.processed.map (·.id)
      | _, _ => []
    | none => []
  | _ => []

def committed (s : State) : List Event → List ItemId
  | [] => []
  | e :: rest => written s e ++ committed (step s e) rest

/-- The rows of a tick at work are the first on offer, and it decided on the first of these. -/
structure InLine (features : Features) (partitioned : Bool) (others : List Lock) (s : State) : Prop where
  held : Held features partitioned others s
  first : First features partitioned s
  leads : ∀ c ∈ s.courses, c.session.tick.Leads c.session.job c.batch
  undelayed : ∀ r ∈ s.table.rows.toList, r.Undelayed features
  known : ∀ r ∈ s.table.eligible features s.now partitioned, r ∈ s.inserted

variable {others : List Lock} {s : State} {e : Event} {i : Nat} {c : Course} {a : Act} {now : Instant}

theorem written_act (at_i : s.courses[i]? = some c) : written s (.act i a) =
    match c.saved, (c.act s.now s.table a).1.saved with
    | none, some d => d.processed.map (·.id)
    | _, _ => [] := by
  simp only [written, at_i]

/-- What one step does to the rows on offer: the first may be written, and others may come behind. -/
def Advances (features : Features) (partitioned : Bool) (s : State) (e : Event) : Prop :=
  ∀ now, ∃ done, written s e = done.map (·.id) ∧
    done ++ (step s e).table.eligible features now partitioned =
      s.table.eligible features now partitioned ++ e.rows.filter (·.isEligible features now partitioned)

namespace InLine

theorem insert (h : InLine features partitioned others s) {rows : List Row}
    (queued : Queued features partitioned s (.insert rows)) :
    InLine features partitioned others (step s (.insert rows)) ∧
      Advances features partitioned s (.insert rows) := by
  obtain ⟨sorted, queued⟩ := queued
  have new : ∀ r ∈ rows, s.table.rows.find? r.id = none := fun r member => (queued r member).2.1
  have unique : (rows.map (·.id)).Nodup := List.pairwise_map.mpr (sorted.imp And.right)
  have after : ∀ a ∈ s.table.eligible features s.now partitioned, ∀ r ∈ rows, a.precedes features r :=
    fun a offered r member => (queued r member).2.2 a (h.known a offered)
  have grown := Table.eligible_insert new unique (sorted.imp And.left) after
  have undelayed : ∀ r ∈ (s.table.insert rows).rows.toList, r.Undelayed features := by
    intro r member
    have absent : ∀ r ∈ rows, ∀ b ∈ s.table.rows.toList, b.id ≠ r.id := fun r member =>
      Keyed.find?_eq_none_iff.mp (new r member)
    rcases List.mem_append.mp ((Keyed.foldl_insert_perm unique absent).mem_iff.mp member) with added | old
    · exact (queued r added).1
    · exact h.undelayed r old
  have stays : ∀ r ∈ s.table.eligible features s.now partitioned,
      r ∈ (s.table.insert rows).eligible features s.now partitioned :=
    fun r offered => Table.mem_eligible_insert new offered
  refine ⟨⟨h.held.grow (step_sound h.held.sound _) rfl stays, h.first.grow rfl stays ?_, h.leads, undelayed, ?_⟩,
    fun now => ⟨[], rfl, ?_⟩⟩
  · intro r offered late c member working b inBatch
    change r ∈ (s.table.insert rows).eligible features s.now partitioned at offered
    rw [grown] at offered
    have added := List.mem_of_mem_filter ((List.mem_append.mp offered).resolve_left late)
    exact after b (h.held.held c member working b inBatch) r added
  · intro r offered
    change r ∈ (s.table.insert rows).eligible features s.now partitioned at offered
    rw [grown] at offered
    rcases List.mem_append.mp offered with old | added
    · exact List.mem_append_left _ (h.known r old)
    · exact List.mem_append_right _ (List.mem_of_mem_filter added)
  · rw [List.nil_append]
    refine Table.eligible_insert new unique (sorted.imp And.left) ?_
    rwa [Table.eligible_undelayed h.undelayed now s.now]

theorem clock (h : InLine features partitioned others s) (now : Instant) :
    InLine features partitioned others (step s (.clock now)) := by
  have same : s.table.eligible features s.now partitioned = s.table.eligible features now partitioned :=
    Table.eligible_undelayed h.undelayed s.now now
  refine ⟨h.held.grow (step_sound h.held.sound _) rfl fun r offered => ?_, h.first.grow rfl ?_ ?_, h.leads,
    h.undelayed, ?_⟩
  · exact same ▸ offered
  · exact fun r offered => same ▸ offered
  · exact fun r offered late => absurd (same ▸ offered) late
  · exact fun r offered => h.known r (same ▸ offered)

theorem begin (h : InLine features partitioned others s) {job : Job} (cancelled : Bool)
    (inOrder : job.InOrder features partitioned) :
    InLine features partitioned others (step s (.begin job cancelled)) := by
  refine ⟨h.held.begin cancelled inOrder, h.first.begin job cancelled, ?_, h.undelayed, h.known⟩
  intro c member
  rcases List.mem_append.mp member with old | new
  · exact h.leads c old
  · rw [List.mem_singleton.mp new]
    cases cancelled <;> trivial

theorem act (h : InLine features partitioned others s) (tracked : partitioned → features.status) (i : Nat)
    (a : Act) : InLine features partitioned others (step s (.act i a)) ∧
      Advances features partitioned s (.act i a) := by
  have held := h.held.act i a
  have first := h.first.act h.held i a
  cases at_i : s.courses[i]? with
  | none =>
    have same : step s (.act i a) = s := by simp only [step, at_i]
    refine ⟨same.symm ▸ h, fun now => ⟨[], ?_, ?_⟩⟩
    · simp only [written, at_i, List.map_nil]
    · simp [same, Event.rows]
  | some c =>
    obtain ⟨member, course⟩ := h.held.mem at_i
    have inOrder := h.held.jobs c member
    have moves := h.held.sound.moves at_i a
    have effect := Course.follow_effect course moves
    have leads : (c.follow a (c.session.act s.now s.table a).1).session.tick.Leads
        (c.follow a (c.session.act s.now s.table a).1).session.job
        (c.follow a (c.session.act s.now s.table a).1).batch :=
      Course.follow_leads course inOrder.lock (h.leads c member) moves
    simp only [Advances, step_act at_i, written_act at_i, Course.act] at held first ⊢
    generalize c.follow a (c.session.act s.now s.table a).1 = c',
      (c.session.act s.now s.table a).2.1 = t' at effect leads held first ⊢
    cases effect with
    | quiet rows saved | fetched rows saved =>
      refine ⟨⟨held, first, State.forall_place h.leads leads, ?_, ?_⟩, fun now => ⟨[], ?_, ?_⟩⟩
      · exact rows.symm ▸ h.undelayed
      · exact Table.eligible_congr rows ▸ h.known
      · rw [saved]
        cases c.saved <;> rfl
      · exact (Table.eligible_congr rows).trans (List.append_nil _).symm
    | @committed n d txn saving saved =>
      have working : c.session.tick.isWorking := saving ▸ rfl
      have decided := h.leads c member
      rw [saving] at decided
      obtain ⟨done, ahead, rfl⟩ := decided
      obtain ⟨rest, whole⟩ := ahead.trans (h.first c member working)
      have left : (c.session.commit txn (.finishing c.session.job done) s.table).eligible features s.now
          partitioned = rest := Session.eligible_commit inOrder tracked whole.symm
      have undelayed : ∀ r ∈ (c.session.commit txn (.finishing c.session.job done) s.table).rows.toList,
          r.Undelayed features := Session.undelayed_commit h.undelayed
      refine ⟨⟨held, first, State.forall_place h.leads leads, undelayed, ?_⟩, fun now => ⟨done, ?_, ?_⟩⟩
      · intro r offered
        change r ∈ (c.session.commit txn (.finishing c.session.job done) s.table).eligible features s.now
          partitioned at offered
        rw [left] at offered
        exact h.known r (whole ▸ List.mem_append_right done offered)
      · rw [course.unsaved saving, saved]
        simp [Decision.finishing, Function.comp_def, Row.id_modifyStatus]
      · change done ++ (c.session.commit txn (.finishing c.session.job done) s.table).eligible features now
          partitioned = s.table.eligible features now partitioned ++ []
        rw [Table.eligible_undelayed undelayed now s.now, Table.eligible_undelayed h.undelayed now s.now, left,
          whole, List.append_nil]

theorem step (h : InLine features partitioned others s) (tracked : partitioned → features.status)
    (queued : Queued features partitioned s e) :
    InLine features partitioned others (Ticks.step s e) ∧ Advances features partitioned s e := by
  have quiet : e.rows = [] → written s e = [] → (Ticks.step s e).table = s.table →
      Advances features partitioned s e := by
    intro rows written same now
    exact ⟨[], written, by simp [rows, same]⟩
  cases e with
  | insert rows => exact h.insert queued
  | clock now => exact ⟨h.clock now, quiet rfl rfl rfl⟩
  | begin job cancelled => exact ⟨h.begin cancelled queued, quiet rfl rfl rfl⟩
  | act i a => exact h.act tracked i a

theorem run (h : InLine features partitioned others s) (tracked : partitioned → features.status)
    {events : List Event} (queued : Along Ticks.step (Queued features partitioned) s events) (now : Instant) :
    ∃ done, committed s events = done.map (·.id) ∧
      done ++ (Ticks.run s events).table.eligible features now partitioned =
        s.table.eligible features now partitioned ++
          (events.flatMap Event.rows).filter (·.isEligible features now partitioned) := by
  induction events generalizing s with
  | nil => exact ⟨[], rfl, by simp [Ticks.run]⟩
  | cons e rest ih =>
    obtain ⟨next, advances⟩ := h.step tracked queued.1
    obtain ⟨first, written, one⟩ := advances now
    obtain ⟨done, committed, others⟩ := ih next queued.2
    refine ⟨first ++ done, ?_, ?_⟩
    · rw [Ticks.committed, written, committed, List.map_append]
    · calc first ++ done ++ (Ticks.run s (e :: rest)).table.eligible features now partitioned
          = first ++ ((Ticks.step s e).table.eligible features now partitioned ++ _) := by
            rw [List.append_assoc]
            exact congrArg (first ++ ·) others
        _ = _ := by rw [← List.append_assoc, one, List.flatMap_cons, List.filter_append, List.append_assoc]

end InLine

theorem inserted_step (s : State) (e : Event) : (step s e).inserted = s.inserted ++ e.rows := by
  cases e with
  | insert rows => rfl
  | clock | begin => exact (List.append_nil _).symm
  | act i a =>
    simp only [step]
    split <;> exact (List.append_nil _).symm

/-- The rows that come in stand in fetch order, behind all that came before. -/
theorem queued_pairwise {events : List Event} (queued : Along step (Queued features partitioned) s events) :
    (∀ b ∈ s.inserted, ∀ r ∈ events.flatMap Event.rows, b.precedes features r) ∧
      (events.flatMap Event.rows).Pairwise (Row.precedes features) := by
  induction events generalizing s with
  | nil => exact ⟨fun _ _ _ member => absurd member List.not_mem_nil, .nil⟩
  | cons e rest ih =>
    obtain ⟨after, sorted⟩ := ih queued.2
    rw [inserted_step] at after
    have here : (∀ b ∈ s.inserted, ∀ r ∈ e.rows, b.precedes features r) ∧
        e.rows.Pairwise (Row.precedes features) := by
      cases e with
      | insert rows =>
        obtain ⟨sorted, behind⟩ := queued.1
        exact ⟨fun b old r new => (behind r new).2.2 b old, sorted.imp And.left⟩
      | _ => exact ⟨fun _ _ _ member => absurd member List.not_mem_nil, .nil⟩
    rw [List.flatMap_cons]
    refine ⟨fun b old r member => ?_, List.pairwise_append.mpr ⟨here.2, sorted, fun b new r member => ?_⟩⟩
    · rcases List.mem_append.mp member with first | later
      · exact here.1 b old r first
      · exact after b (List.mem_append_left _ old) r later
    · exact after b (List.mem_append_right _ new) r member

theorem committed_in_order {t : Table} {events : List Event} (begun : t.Begun)
    (tracked : partitioned → features.status) (undelayed : ∀ r ∈ t.rows.toList, r.Undelayed features)
    (queued : Along step (Queued features partitioned) { now, table := t, inserted := t.rows.toList } events) :
    let s : State := { now, table := t, inserted := t.rows.toList }
    let whole := t.eligible features now partitioned ++
      (events.flatMap Event.rows).filter (·.isEligible features now partitioned)
    whole.Pairwise (Row.precedes features) ∧ ∃ done, committed s events = done.map (·.id) ∧
      done ++ (run s events).table.eligible features now partitioned = whole := by
  intro s whole
  have known : ∀ r ∈ t.eligible features now partitioned, r ∈ t.rows.toList := fun r offered =>
    Keyed.mem_of_find? (Table.mem_eligible.mp offered).1
  have idle : ∀ c, c ∉ s.courses := fun _ => List.not_mem_nil
  have start : InLine features partitioned t.locks.toList s :=
    ⟨(Held.start begun now).grow ⟨.before begun, fun c member => absurd member (idle c)⟩ rfl fun _ => id,
      fun c member => absurd member (idle c), fun c member => absurd member (idle c), undelayed, known⟩
  obtain ⟨after, sorted⟩ := queued_pairwise queued
  refine ⟨List.pairwise_append.mpr ⟨Table.eligible_pairwise, sorted.filter _, fun b old r member => ?_⟩, ?_⟩
  · exact after b (known b old) r (List.mem_of_mem_filter member)
  · exact start.run tracked queued now

def sorter (worker : WorkerType) : Job where
  worker
  features := { status := true }
  options := { workerType := worker, itemsLimit := 2, partitions := { enabled := true } }

def letters : Table where
  rows := .ofList [letter, postcard]

/-- The first tick fails at its second row; the next one takes it up, with a row that came in. -/
def rounds : List Event :=
  [.begin (sorter .strictOrdering) false, .act 0 (.fetch none), .act 0 (.answer (.verdict (some .ok))),
    .act 0 (.answer (.verdict (some .retry))), .act 0 (.save none),
    .insert [{ id := .ofNat 3, payload := "card" }], .begin (sorter .batchStrictOrdering) false,
    .act 1 (.fetch none), .act 1 (.answer (.outcome (some .fullyProcessed))), .act 1 (.save none)]

theorem committed_in_order_rounds :
    let s : State := { now := .epoch, table := letters, inserted := letters.rows.toList }
    Along step (Queued { status := true } true) s rounds ∧
      committed s rounds = [.ofNat 1, .ofNat 2, .ofNat 3] ∧
      ∃ done, committed s rounds = done.map (·.id) ∧
        done ++ (run s rounds).table.eligible { status := true } .epoch true =
          [letter, postcard, { id := .ofNat 3, payload := "card" }] := by
  intro s
  have queued : Along step (Queued { status := true } true) s rounds := by decide
  have begun : letters.Begun := fun _ member => absurd member List.not_mem_nil
  have undelayed : ∀ r ∈ letters.rows.toList, r.Undelayed { status := true } := by decide
  exact ⟨queued, by decide, (committed_in_order begun (fun _ => rfl) undelayed queued).2⟩

end Ticks

end Outbox
