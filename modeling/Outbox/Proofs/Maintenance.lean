import Outbox.Proofs.Catalogue
import Outbox.Proofs.UpkeepRuns

/-!
What maintenance takes away. The store is watched: with each partition that a call detaches or drops,
the range is noted that it had (`Watch`). A partition goes only when a later one has started that is
there to stay, so whatever the settings were, nothing is taken away that could hold an id of the present
(`removals_past`).
-/

namespace Outbox

open Rehearsal (StoreFault Store)

structure Watch where
  store : Store
  /-- The ranges of partitions that were detached. -/
  former : Keyed PartitionRange.name := ∅
  /-- The partitions detached or dropped since the round began, with the ranges they had. -/
  removed : List (String × Option PartitionRange) := []

namespace Watch

def range? (w : Watch) (name : String) : Option PartitionRange :=
  (w.store.catalogue.attached.find? name).or (w.former.find? name)

def note (w : Watch) (call : StoreCall) (answer : Except PartitionError Unit) (store : Store) : Watch :=
  match call, answer with
  | .detach name, .ok _ | .drop name, .ok _ =>
    { store, former := (w.range? name).elim w.former w.former.insert,
      removed := (name, w.range? name) :: w.removed }
  | _, _ => { w with store }

def perform (w : Watch) (call : StoreCall) : Except PartitionError Unit × Watch :=
  let (answer, store) := w.store.perform call
  (answer, w.note call answer store)

end Watch

/-- A round of the loop: its settings, its instant and the calls that fail in it. -/
structure Round where
  settings : PartitionSettings
  now : Instant
  faults : List StoreFault := []
  deriving DecidableEq

namespace Watch

def cycle (w : Watch) (r : Round) : Watch :=
  let store := r.faults.foldl (fun store fault => store.inject fault) w.store
  (PartitionLoop.cycle store.catalogue.table perform r.settings r.now 0 { w with store, removed := [] }).2

def removals (w : Watch) : List Round → List (Round × String × Option PartitionRange)
  | [] => []
  | r :: rest => (w.cycle r).removed.map (r, ·) ++ removals (w.cycle r) rest

theorem note_store (w : Watch) (call : StoreCall) (answer : Except PartitionError Unit) (store : Store) :
    (w.note call answer store).store = store := by
  unfold note
  split <;> rfl

/-- Watching the store changes nothing about a round. -/
theorem cycle_store (w : Watch) (r : Round) :
    (w.cycle r).store =
      let store := r.faults.foldl (fun store fault => store.inject fault) w.store
      (PartitionLoop.cycle store.catalogue.table Store.perform r.settings r.now 0 store).2 := by
  have same : ∀ (w : Watch) (call : StoreCall),
      w.store.perform call = (w.perform call).map id Watch.store := fun w call => by
    simp only [perform, Prod.map, note_store, id_eq]
  exact (congrArg Prod.snd (PartitionLoop.cycle_map same r.settings r.now 0 _)).symm

theorem note_taken {w : Watch} {call : StoreCall} {name : String} {r : PartitionRange} {store : Store}
    (takes : call = .detach name ∨ call = .drop name) (found : w.range? name = some r) :
    w.note call (.ok ()) store =
      { store, former := w.former.insert r, removed := (name, some r) :: w.removed } := by
  rcases takes with rfl | rfl <;> simp only [note, found, Option.elim_some]

/-- An attached partition starts between two days. -/
def Reaches (table : String) (low high : Int) (w : Watch) : Prop :=
  ∃ r ∈ w.store.catalogue.attached.toList, ∃ first stop, r.Spans table first stop ∧ low ≤ first ∧ first ≤ high

/-- A detached partition is over by `last`, and a later one that has started by then is attached. -/
def Passed (table : String) (last : Int) (w : Watch) (name : String) : Prop :=
  ∃ r first stop, w.former.find? name = some r ∧ r.Spans table first stop ∧ stop ≤ last ∧
    w.Reaches table (first + 1) last

structure Sound (table : String) (last : Int) (w : Watch) : Prop where
  table_eq : w.store.catalogue.table = table
  tidy : w.store.catalogue.Tidy table
  passed : ∀ name ∈ w.store.catalogue.detached.toList, w.Passed table last name

def Over (table : String) (last : Int) (range : Option PartitionRange) : Prop :=
  ∃ r first stop, range = some r ∧ r.Spans table first stop ∧ stop ≤ last

/-- While partitions that start before day `low` are taken away: one that starts later is attached, and
nothing went that is not over by `last`. -/
structure Taking (table : String) (low last : Int) (w : Watch) : Prop where
  sound : w.Sound table last
  current : w.Reaches table low last
  removed : ∀ gone ∈ w.removed, Over table last gone.2

variable {table : String} {low high last last' first stop : Int} {w w' : Watch} {call : StoreCall}
  {r : PartitionRange}

theorem Reaches.congr (h : w.Reaches table low high) (same : w'.store.catalogue = w.store.catalogue) :
    w'.Reaches table low high := by
  unfold Reaches
  rwa [same]

/-! ### Creating -/

namespace Sound

theorem congr (h : w.Sound table last) (same : w'.store.catalogue = w.store.catalogue)
    (former : w'.former = w.former) : w'.Sound table last where
  table_eq := same ▸ h.table_eq
  tidy := same ▸ h.tidy
  passed name member := by
    rw [same] at member
    obtain ⟨r, first, stop, known, spans, ended, later⟩ := h.passed name member
    exact ⟨r, first, stop, former ▸ known, spans, ended, later.congr same⟩

theorem mono (h : w.Sound table last) (later : last ≤ last') : w.Sound table last' where
  table_eq := h.table_eq
  tidy := h.tidy
  passed name member := by
    obtain ⟨r, first, stop, known, spans, ended, next, attached, day, end_, spans', after, started⟩ :=
      h.passed name member
    exact ⟨r, first, stop, known, spans, by omega, next, attached, day, end_, spans', after, by omega⟩

theorem create (h : w.Sound table last) (spans : r.Spans table first stop) :
    (w.perform (.create r)).2.Sound table last := by
  have moves := Catalogue.store_moves w.store (.create r)
  obtain ⟨grows, same, -⟩ := moves.create
  have days : ∀ x, StoreCall.create r = .create x → ∃ first stop, x.Spans table first stop := by
    intro x asked
    cases asked
    exact ⟨first, stop, spans⟩
  refine ⟨moves.table_eq.trans h.table_eq, h.tidy.move moves days, fun name member => ?_⟩
  change name ∈ (w.store.perform (.create r)).2.catalogue.detached.toList at member
  rw [same] at member
  obtain ⟨x, day, end_, known, spans, ended, next, attached, later⟩ := h.passed name member
  exact ⟨x, day, end_, known, spans, ended, next, grows next attached, later⟩

end Sound

namespace Taking

/-- What is attached or detached under the name of an earlier day is over. -/
theorem range_over (h : w.Taking table low last) (taken : w.store.catalogue.Taken (dayName table first))
    (early : first < low) :
    ∃ r stop, w.range? (dayName table first) = some r ∧ r.Spans table first stop ∧ stop ≤ last := by
  cases found : w.store.catalogue.attached.find? (dayName table first) with
  | some r =>
    have member := Keyed.mem_of_find? found
    obtain ⟨day, stop, spans⟩ := h.sound.tidy.spans r member
    obtain rfl : first = day := (spans.name_iff.mp (Keyed.key_of_find? found)).symm
    refine ⟨r, stop, by rw [range?, found, Option.some_or], spans, ?_⟩
    obtain ⟨next, attached, first', stop', spans', after, started⟩ := h.current
    -- the two do not overlap, so the earlier one ends where the later one starts, at the latest
    have apart : ¬ (first < stop' ∧ first' < stop) := fun overlap => by
      obtain rfl := h.sound.tidy.apart r member next attached ((spans.overlaps_iff spans').mpr overlap)
      have := spans.name_iff.mp spans'.name
      omega
    have := spans'.lasts
    omega
  | none =>
    have detached : dayName table first ∈ w.store.catalogue.detached.toList := by
      rcases taken with attached | detached
      · rw [Keyed.contains, found] at attached
        cases attached
      · obtain ⟨name, member, rfl⟩ := Keyed.contains_iff.mp detached
        exact member
    obtain ⟨r, day, stop, former, spans, ended, -⟩ := h.sound.passed _ detached
    obtain rfl : first = day := (spans.name_iff.mp (Keyed.key_of_find? former)).symm
    exact ⟨r, stop, by rw [range?, found, Option.none_or, former], spans, ended⟩

/-- A partition of an earlier day can go: the one that has started stays. -/
theorem take (h : w.Taking table low last) {w' : Watch} {stop : Int} (spans : r.Spans table first stop)
    (ended : stop ≤ last) (early : first < low)
    (table_eq : w'.store.catalogue.table = w.store.catalogue.table)
    (attached : w'.store.catalogue.attached = w.store.catalogue.attached.erase r.name)
    (detached : ∀ n ∈ w'.store.catalogue.detached.toList, n ∈ w.store.catalogue.detached.toList ∨ n = r.name)
    (former : w'.former = w.former.insert r) (removed : w'.removed = (r.name, some r) :: w.removed) :
    w'.Taking table low last := by
  have attached_iff : ∀ x, x ∈ w'.store.catalogue.attached.toList ↔
      x ∈ w.store.catalogue.attached.toList ∧ x.name ≠ r.name := fun x => by
    rw [attached, Keyed.mem_erase]
  have current : ∀ bound, bound ≤ low → w'.Reaches table bound last := by
    intro bound before
    obtain ⟨next, member, day, stop', spans', after, started⟩ := h.current
    refine ⟨next, (attached_iff next).mpr ⟨member, fun same => ?_⟩, day, stop', spans', by omega, started⟩
    have := spans'.name_iff.mp (same.trans spans.name)
    omega
  have tidy : w'.store.catalogue.Tidy table :=
    ⟨fun x kept => h.sound.tidy.spans x ((attached_iff x).mp kept).1, fun x kept y kept' =>
      h.sound.tidy.apart x ((attached_iff x).mp kept).1 y ((attached_iff y).mp kept').1⟩
  have passed : ∀ n ∈ w'.store.catalogue.detached.toList, w'.Passed table last n := by
    intro n member
    by_cases same : n = r.name
    · exact ⟨r, first, stop, by rw [former, same, Keyed.find?_insert_self], spans, ended, current _ early⟩
    · obtain ⟨x, day, end_, known, spans', ended', next, attached', day', end', later, after, started⟩ :=
        h.sound.passed n ((detached n member).resolve_right same)
      refine ⟨x, day, end_, ?_, spans', ended', ?_⟩
      · rw [former, Keyed.find?_insert_of_ne (Ne.symm same), known]
      · by_cases gone : next.name = r.name
        · have := later.name_iff.mp (gone.trans spans.name)
          exact current _ (by omega)
        · exact ⟨next, (attached_iff next).mpr ⟨attached', gone⟩, day', end', later, after, started⟩
  refine ⟨⟨table_eq.trans h.sound.table_eq, tidy, passed⟩, current low (Int.le_refl low), fun x taken => ?_⟩
  rw [removed] at taken
  rcases List.mem_cons.mp taken with rfl | before
  · exact ⟨r, first, stop, rfl, spans, ended⟩
  · exact h.removed x before

theorem perform (h : w.Taking table low last) (asked : call = .detach (dayName table first) ∨
    call = .drop (dayName table first)) (early : first < low) : (w.perform call).2.Taking table low last := by
  have moves := Catalogue.store_moves w.store call
  unfold Watch.perform
  simp only
  generalize (w.store.perform call).1 = answer, (w.store.perform call).2 = store at moves ⊢
  cases answer with
  | error e =>
    have unnoted : w.note call (.error e) store = { w with store } := by
      rcases asked with rfl | rfl <;> rfl
    have same := moves.eq_of_error
    rw [unnoted]
    exact ⟨h.sound.congr same rfl, h.current.congr same, h.removed⟩
  | ok =>
    obtain ⟨taken, attached, detached⟩ := moves.takes asked
    obtain ⟨r, stop, known, spans, ended⟩ := h.range_over taken early
    rw [note_taken asked known]
    rw [← spans.name] at attached detached
    exact h.take spans ended early moves.table_eq attached detached rfl (spans.name ▸ rfl)

end Taking

/-! ### A round -/

/-- Where the range of the present has been created, or its name is taken, something has started that is
attached. -/
theorem Sound.reaches (h : w.Sound table last) (later : last ≤ high) (started : first ≤ high)
    (taken : w.store.catalogue.Taken (dayName table first)) : w.Reaches table first high := by
  rcases taken with attached | detached
  · obtain ⟨r, member, name⟩ := Keyed.contains_iff.mp attached
    obtain ⟨day, stop, spans⟩ := h.tidy.spans r member
    obtain rfl := spans.name_iff.mp name
    exact ⟨r, member, day, stop, spans, Int.le_refl day, started⟩
  · -- the name is that of a detached partition: then one that started later is attached
    obtain ⟨name, member, rfl⟩ := Keyed.contains_iff.mp detached
    obtain ⟨r, day, stop, known, spans, ended, next, attached, first', stop', spans', after, before⟩ :=
      h.passed _ member
    have := spans.name_iff.mp (Keyed.key_of_find? known)
    exact ⟨next, attached, first', stop', spans', by omega, by omega⟩

theorem foldl_inject_catalogue (faults : List StoreFault) (store : Store) :
    (faults.foldl (fun store fault => store.inject fault) store).catalogue = store.catalogue := by
  induction faults generalizing store with
  | nil => rfl
  | cons fault rest ih => exact ih (store.inject fault)

variable {round : Round} {s : PartitionSettings} {now : Instant}

theorem Sound.create_run (h : w.Sound table last) (clean : w.removed = []) (fits : s.Fits now) :
    let after := (Upkeep.create s table now).run table perform w
    (after.2.Sound table last ∧ after.2.removed = []) ∧ ∀ n, after.1 = .ok n →
      0 < s.precreateCount.toNat → after.2.store.catalogue.Taken (dayName table (s.rangeDay now)) := by
  intro after
  have creates : ∀ ranges, s.ranges table now = .ok ranges → ∀ r ∈ ranges, ∀ v : Watch,
      v.Sound table last ∧ v.removed = [] →
        ((v.perform (.create r)).2.Sound table last ∧ (v.perform (.create r)).2.removed = []) ∧
        ((v.perform (.create r)).1 = .ok () → (v.perform (.create r)).2.store.catalogue.Taken r.name) ∧
        ∀ other ∈ ranges, v.store.catalogue.Taken other.name →
          (v.perform (.create r)).2.store.catalogue.Taken other.name := by
    rintro ranges computed r given v ⟨sound, clean⟩
    obtain ⟨i, at_i⟩ := List.getElem?_of_mem given
    have spans := (PartitionSettings.ranges_span fits computed).2 i r at_i
    have moves := Catalogue.store_moves v.store (.create r)
    exact ⟨⟨sound.create spans, clean⟩, moves.create.2.2, fun other _ => moves.create_taken⟩
  obtain ⟨inv, made⟩ := Upkeep.create_run (fun v : Watch => v.Sound table last ∧ v.removed = [])
    (fun r v => v.store.catalogue.Taken r.name) creates ⟨h, clean⟩
  refine ⟨inv, fun n succeeded some => ?_⟩
  obtain ⟨ranges, computed, -, all⟩ := made n succeeded
  obtain ⟨length, each⟩ := PartitionSettings.ranges_span fits computed
  cases ranges with
  | nil => exact absurd length.symm (Nat.ne_of_gt some)
  | cons first rest =>
    have spans := each 0 first rfl
    have taken := all first List.mem_cons_self
    rw [spans.name] at taken
    simpa using taken

theorem Taking.retire_run (h : w.Taking table (s.rangeDay now) last) :
    ((Upkeep.retire s table now).run table Watch.perform w).2.Taking table (s.rangeDay now) last := by
  refine Upkeep.retire_run (fun v : Watch => v.Taking table (s.rangeDay now) last) ?_ h
  intro ranges computed r given v taking
  obtain ⟨-, day, name, early⟩ := PartitionSettings.expiredRanges_name computed given
  exact name ▸ ⟨taking.perform (.inl rfl) early, taking.perform (.inr rfl) early⟩

theorem retire_none (none : s.precreateCount.toNat = 0) :
    ((Upkeep.retire s table now).run table perform w).2 = w := by
  refine Upkeep.retire_run (fun v : Watch => v = w) ?_ rfl
  intro ranges computed r given
  obtain ⟨some, -⟩ := PartitionSettings.expiredRanges_name computed given
  exact absurd none (Nat.ne_of_gt some)

/-- A round keeps the store sound, and what it takes away was over when the round began. -/
theorem Sound.cycle (h : w.Sound table last) (later : last ≤ round.now.day)
    (fits : round.settings.Fits round.now) :
    (w.cycle round).Sound table round.now.day ∧
      ∀ gone ∈ (w.cycle round).removed, Over table round.now.day gone.2 := by
  obtain ⟨s, now, faults⟩ := round
  unfold Watch.cycle
  simp only
  have same := foldl_inject_catalogue faults w.store
  generalize faults.foldl (fun store fault => store.inject fault) w.store = store at same ⊢
  have fresh : Watch.Sound table last { w with store, removed := [] } := h.congr same rfl
  rw [show store.catalogue.table = table from fresh.table_eq]
  obtain ⟨⟨sound, clean⟩, taken⟩ := fresh.create_run rfl fits
  unfold PartitionLoop.cycle
  generalize (Upkeep.create s table now).run table Watch.perform { w with store, removed := [] } = after
    at sound clean taken ⊢
  obtain ⟨created, v⟩ := after
  have nothing : ∀ gone ∈ v.removed, Over table now.day gone.2 := by
    rw [clean]
    exact fun _ member => absurd member List.not_mem_nil
  cases created with
  | error e => exact ⟨sound.mono later, nothing⟩
  | ok n =>
    rcases Nat.eq_zero_or_pos s.precreateCount.toNat with none | some
    · -- nothing is created ahead, so nothing has expired either
      exact (retire_none none).symm ▸ ⟨sound.mono later, nothing⟩
    · have reaches := sound.reaches later (s.rangeDay_le now) (taken n rfl some)
      have taking := Taking.retire_run ⟨sound.mono later, reaches, nothing⟩
      exact ⟨taking.sound, taking.removed⟩

theorem Sound.removals (h : w.Sound table last) {rounds : List Round}
    (forward : rounds.Pairwise fun a b => a.now ≤ b.now) (later : ∀ r ∈ rounds, last ≤ r.now.day)
    (fits : ∀ r ∈ rounds, r.settings.Fits r.now) :
    ∀ gone ∈ w.removals rounds, Over table gone.1.now.day gone.2.2 := by
  induction rounds generalizing w last with
  | nil => exact fun _ member => absurd member List.not_mem_nil
  | cons round rest ih =>
    obtain ⟨first, forward⟩ := List.pairwise_cons.mp forward
    obtain ⟨sound, ended⟩ := h.cycle (later round List.mem_cons_self) (fits round List.mem_cons_self)
    have after := ih sound forward (fun r member => Instant.day_mono (first r member))
      fun r member => fits r (List.mem_cons_of_mem _ member)
    intro gone member
    rcases List.mem_append.mp member with now | rest
    · obtain ⟨r, taken, rfl⟩ := List.mem_map.mp now
      exact ended r taken
    · exact after gone rest

/-- Whatever the settings of the rounds were and whichever calls failed, a partition that a round detaches
or drops holds no id of the time of the round or later, by the id's own millisecond or by when it is minted. In
the second after a leap second the two are not the same. -/
theorem removals_past {rounds : List Round} (forward : rounds.Pairwise fun a b => a.now ≤ b.now)
    (fits : ∀ r ∈ rounds, r.settings.Fits r.now) {round : Round} {name : String}
    {range : Option PartitionRange}
    (taken : (round, name, range) ∈ removals { store := { catalogue := { table } } } rounds) :
    ∃ r, range = some r ∧ (∀ id : ItemId, round.now.millis ≤ id.millis → ¬ r.Contains id) ∧
      ∀ (t : Instant) (random : Nat), round.now ≤ t → t.millis < 2 ^ 48 → ¬ r.Contains (.mint t random) := by
  have start : Watch.Sound table Instant.first.day { store := { catalogue := { table } } } :=
    ⟨rfl, .empty table, fun _ member => absurd member List.not_mem_nil⟩
  obtain ⟨r, first, stop, known, spans, ended⟩ :=
    start.removals forward (fun r _ => r.now.first_day_le) fits (round, name, range) taken
  have ended : stop ≤ round.now.day := ended
  have passed (id : ItemId) (present : round.now.day * 86400000 ≤ id.millis) : ¬ r.Contains id := by
    rw [spans.contains_iff]
    omega
  refine ⟨r, known, fun id present => passed id (round.now.day_le_millis.trans present), ?_⟩
  intro t random later before
  have day : round.now.day ≤ t.day := Instant.day_mono later
  have begun := t.day_le_millis
  have since := spans.since
  have lasts := spans.lasts
  apply passed
  rw [ItemId.millis_mint (by omega) before]
  omega

/-- On day 14 ranges are twice as wide as on day 10. The partition of day 10 is detached but not dropped,
and dropped a day later. -/
def reloaded : List Round :=
  let daily : PartitionSettings := { enabled := true, precreateCount := 2, retentionCount := 1 }
  let wider := { daily with daysPerPartition := 2, precreateCount := 3 }
  [{ settings := daily, now := ⟨864000, 0, by decide, by decide⟩ },
    { settings := wider, now := ⟨1209600, 0, by decide, by decide⟩,
      faults := [⟨"drop", "outbox_p19700111", .other "busy"⟩] },
    { settings := wider, now := ⟨1296000, 0, by decide, by decide⟩ }]

theorem removals_past_reloaded :
    let r : PartitionRange := ⟨"outbox_p19700111", .ofParts 864000000 0, .ofParts 950400000 0⟩
    (∀ round ∈ reloaded, round.settings.fault? = none ∧ round.settings.Fits round.now) ∧
      (removals { store := { catalogue := { table := "outbox" } } } reloaded).map (·.2) =
        [(r.name, some r), (r.name, some r)] ∧
      ∀ id : ItemId, 1296000000 ≤ id.millis → ¬ r.Contains id := by
  intro r
  have forward : reloaded.Pairwise fun a b => a.now ≤ b.now := by decide
  have valid : ∀ round ∈ reloaded, round.settings.fault? = none ∧ round.settings.Fits round.now := by
    decide
  refine ⟨valid, by decide +kernel, ?_⟩
  have taken : (reloaded[2], r.name, some r) ∈
      removals { store := { catalogue := { table := "outbox" } } } reloaded := by decide +kernel
  obtain ⟨range, same, past, -⟩ := removals_past forward (fun round member => (valid round member).2) taken
  cases same
  intro id present
  exact past id (Int.ofNat_le.mpr present)

end Watch

end Outbox
