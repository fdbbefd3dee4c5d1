import Mathlib.Data.Set.Card
import Outbox.Proofs.Chores

/-!
What is kept of the past where the store is visited once in each range. A visit takes away the ranges of
its window that are not kept, and each of them was in the window of the visit before or is its own oldest
one, so nothing gets past the end of the window (`Tended.visit`) and only the newest ranges are left
(`retention_kept`). Where as many are kept as are created ahead the window holds nothing to take away, and
at the calendar's beginning there is no whole window (`retention_exceeded`).
-/

namespace Outbox

/-- A range of days that is over when `day` begins. -/
def PartitionRange.EndsBy (table : String) (day : Int) (r : PartitionRange) : Prop :=
  ∃ first stop, r.OfDays table first stop ∧ first < stop ∧ stop ≤ day

/-- One of the ranges right before the current one, as many as are to be kept. -/
def PartitionSettings.Newest (s : PartitionSettings) (table : String) (now : Instant) (name : String) : Prop :=
  ∃ i < s.retentionCount.toNat, name = dayName table (s.rangeDay now - s.spanDays * (i + 1))

namespace Catalogue

/-- Attached after some of the visits to a store that was empty at first. -/
def Seen (s : PartitionSettings) (table : String) (visits : List Instant) (p : PartitionRange) : Prop :=
  ∃ past, past <+: visits ∧ p ∈ (past.foldl (visit s) { table }).attached.toList

variable {c : Catalogue} {s : PartitionSettings} {now : Instant} {table : String} {next : Int}
  {p : PartitionRange} {old : List PartitionRange}

/-! ### One visit -/

theorem create_keeps (member : p ∈ c.attached.toList) : p ∈ (c.carryOut .creation s now).2.attached.toList := by
  cases computed : Chore.creation.ranges s c.table now with
  | error e => rwa [carryOut_of_error computed]
  | ok ranges => exact (carryOut_underway computed).stays member List.not_mem_nil

theorem created_ahead (member : p ∈ (c.carryOut .creation s now).2.attached.toList) :
    p ∈ c.attached.toList ∨ ∃ j, s.rangeIndex now ≤ j ∧
      p.OfDays c.table (s.spanDays * j) (s.spanDays * (j + 1)) := by
  cases computed : Chore.creation.ranges s c.table now with
  | error e => exact .inl (by rwa [carryOut_of_error computed] at member)
  | ok ranges =>
    refine ((carryOut_underway computed).attached member).imp_right fun ⟨given, _⟩ => ?_
    exact PartitionSettings.ranges_index computed given

theorem create_detached : (c.carryOut .creation s now).2.detached = c.detached := by
  cases computed : Chore.creation.ranges s c.table now with
  | error e => rw [carryOut_of_error computed]
  | ok ranges =>
    refine Keyed.ext_find? fun name => ?_
    cases (carryOut_underway computed).fate name with
    | kept _ detached => exact detached
    | leaving expires => cases expires
    | created _ _ free _ detached => exact detached.trans (find?_of_not_taken free).2.symm

theorem retire_attached (member : p ∈ (c.carryOut .retirement s now).2.attached.toList) :
    p ∈ c.attached.toList := by
  cases computed : Chore.retirement.ranges s c.table now with
  | error e => rwa [carryOut_of_error computed] at member
  | ok old =>
    refine ((carryOut_underway computed).attached member).resolve_right fun given => ?_
    cases given.1

theorem retire_takes (partitioned : c.partitioned) (computed : s.expiredRanges c.table now = .ok old) :
    (∃ n, (c.carryOut .retirement s now).1 = .ok n) ∧
      (∀ p, p ∈ (c.carryOut .retirement s now).2.attached.toList ↔
        p ∈ c.attached.toList ∧ p.name ∉ old.map (·.name)) ∧
      (c.detached = ∅ → (c.carryOut .retirement s now).2.detached = ∅) := by
  have computed : Chore.retirement.ranges s c.table now = .ok old := computed
  have plan : c.Plan (Chore.retirement.wanted old) (Chore.retirement.expired old) := .retirement partitioned _
  have working := (Underway.refl c _ _).carryOut plan computed
  have done := working.progress _ List.mem_cons_self
  have gone := done.settled.gone
  refine ⟨done.ended_ok, fun p => ⟨fun member => ?_, fun ⟨member, lasts⟩ => ?_⟩, fun empty => ?_⟩
  · refine ⟨retire_attached member, fun expires => ?_⟩
    exact gone p.name expires (.inl (Keyed.contains_iff.mpr ⟨p, member, rfl⟩))
  · exact working.underway.stays member lasts
  · refine Keyed.ext_find? fun name => ?_
    cases working.underway.fate name with
    | kept _ detached => exact detached.trans (congrArg (·.find? name) empty)
    | leaving expires => exact (find?_of_not_taken (gone name expires)).2
    | created given => cases given

theorem retire_keeps (partitioned : c.partitioned) (member : p ∈ c.attached.toList)
    (lasts : ∀ old, s.expiredRanges c.table now = .ok old → p.name ∉ old.map (·.name)) :
    p ∈ (c.carryOut .retirement s now).2.attached.toList := by
  cases computed : s.expiredRanges c.table now with
  | error e =>
    have failed : Chore.retirement.ranges s c.table now = .error e := computed
    rwa [carryOut_of_error failed]
  | ok old => exact ((retire_takes partitioned computed).2.1 p).mpr ⟨member, lasts old computed⟩

/-! ### One visit after another -/

/-- Nothing detached is left and, where something is taken away, nothing attached is older than the window
before the range of index `next`. -/
structure Tended (s : PartitionSettings) (table : String) (next : Int) (c : Catalogue) : Prop where
  table_eq : c.table = table
  partitioned : c.partitioned
  detached : c.detached = ∅
  recent : s.retentionCount.toNat < s.precreateCount.toNat → ∀ p ∈ c.attached.toList, ∃ j : Int,
    p.name = dayName table (s.spanDays * j) ∧ Instant.first.day ≤ s.spanDays * j ∧
      next ≤ j + s.precreateCount.toNat

namespace Tended

theorem fresh (s : PartitionSettings) (table : String) (next : Int) : Tended s table next { table } :=
  ⟨rfl, rfl, rfl, fun _ _ member => absurd member List.not_mem_nil⟩

theorem create (h : Tended s table (s.rangeIndex now) c) :
    Tended s table (s.rangeIndex now) (c.carryOut .creation s now).2 where
  table_eq := (carryOut_table _).trans h.table_eq
  partitioned := (carryOut_partitioned _).trans h.partitioned
  detached := create_detached.trans h.detached
  recent fewer p member := by
    rcases created_ahead member with old | ⟨j, ahead, days⟩
    · exact h.recent fewer p old
    · rw [h.table_eq] at days
      exact ⟨j, days.name, days.first_day_le, by omega⟩

/-- What would get past the end of the window is taken away. -/
theorem retire (h : Tended s table (s.rangeIndex now) c) (bounded : s.Bounded) :
    Tended s table (s.rangeIndex now + 1) (c.carryOut .retirement s now).2 where
  table_eq := (carryOut_table _).trans h.table_eq
  partitioned := (carryOut_partitioned _).trans h.partitioned
  detached := by
    cases computed : s.expiredRanges c.table now with
    | error e =>
      have failed : Chore.retirement.ranges s c.table now = .error e := computed
      rw [carryOut_of_error failed, h.detached]
    | ok old => exact (retire_takes h.partitioned computed).2.2 h.detached
  recent fewer p member := by
    obtain ⟨j, name, since, window⟩ := h.recent fewer p (retire_attached member)
    refine ⟨j, name, since, ?_⟩
    -- only the last range of the window could get past its end, and a retirement gets as far as that one
    by_contra last
    have oldest : s.rangeDay now - s.spanDays * s.precreateCount.toNat = s.spanDays * j := by
      rw [s.rangeDay_eq_index, ← mul_sub]
      congr 1
      omega
    obtain ⟨old, computed⟩ : ∃ old, s.expiredRanges c.table now = .ok old :=
      PartitionSettings.expiredRanges_some bounded (oldest ▸ since)
    refine (((retire_takes h.partitioned computed).2.1 p).mp member).2 ?_
    rw [PartitionSettings.mem_expiredRanges computed]
    refine ⟨s.precreateCount.toNat - 1, by omega, by omega, ?_⟩
    rw [name, h.table_eq, ← oldest]
    congr 3
    omega

theorem visit (h : Tended s table (s.rangeIndex now) c) (bounded : s.Bounded) :
    Tended s table (s.rangeIndex now + 1) (c.visit s now) := h.create.retire bounded

theorem run {earlier : List Instant} (bounded : s.Bounded)
    (consecutive : (earlier ++ [now]).IsChain fun a b => s.rangeIndex b = s.rangeIndex a + 1) :
    Tended s table (s.rangeIndex now) (earlier.foldl (Catalogue.visit s) { table }) := by
  induction earlier using List.reverseRecOn generalizing now with
  | nil => exact fresh s table _
  | append_singleton past t ih =>
    rw [List.append_assoc, List.singleton_append, List.isChain_append_cons_cons] at consecutive
    obtain ⟨before, follows, -⟩ := consecutive
    rw [List.foldl_append, follows]
    exact (ih before).visit bounded

end Tended

/-! ### What is kept -/

theorem index_lt {earlier : List Instant} {t : Instant}
    (consecutive : (earlier ++ [now]).IsChain fun a b => s.rangeIndex b = s.rangeIndex a + 1)
    (member : t ∈ earlier) : s.rangeIndex t < s.rangeIndex now := by
  have ascending : ((earlier ++ [now]).map s.rangeIndex).IsChain (· < ·) := by
    rw [List.isChain_map]
    exact consecutive.imp fun a b follows => by omega
  rw [List.isChain_iff_pairwise, List.map_append, List.pairwise_append] at ascending
  exact ascending.2.2 _ (List.mem_map_of_mem member) _ List.mem_cons_self

/-- The newest ranges before a later one have not expired yet. -/
theorem newest_not_expired {later : Instant} {name : String} (forward : s.rangeIndex now ≤ s.rangeIndex later)
    (newest : s.precreateCount.toNat ≤ s.retentionCount.toNat ∨ s.Newest table later name)
    (computed : s.expiredRanges table now = .ok old) : name ∉ old.map (·.name) := by
  rw [PartitionSettings.mem_expiredRanges computed]
  rintro ⟨i, kept, below, expires⟩
  rcases newest with few | ⟨k, new, name⟩
  · omega
  · have same := dayName_inj.mp (name.symm.trans expires)
    rw [s.rangeDay_eq_index, s.rangeDay_eq_index, ← mul_sub, ← mul_sub] at same
    have := Int.eq_of_mul_eq_mul_left (Int.natCast_pos.mpr s.spanDays_pos).ne' same
    omega

theorem visit_same (s : PartitionSettings) (c : Catalogue) (now : Instant) :
    (c.visit s now).table = c.table ∧ (c.visit s now).partitioned = c.partitioned :=
  ⟨(carryOut_table _).trans (carryOut_table _), (carryOut_partitioned _).trans (carryOut_partitioned _)⟩

theorem visits_same (s : PartitionSettings) (c : Catalogue) (times : List Instant) :
    (times.foldl (visit s) c).table = c.table ∧ (times.foldl (visit s) c).partitioned = c.partitioned := by
  induction times generalizing c with
  | nil => exact ⟨rfl, rfl⟩
  | cons t rest ih =>
    obtain ⟨table, partitioned⟩ := visit_same s c t
    exact ⟨(ih _).1.trans table, (ih _).2.trans partitioned⟩

theorem visit_keeps (partitioned : c.partitioned) (member : p ∈ c.attached.toList)
    (lasts : ∀ old, s.expiredRanges c.table now = .ok old → p.name ∉ old.map (·.name)) :
    p ∈ (c.visit s now).attached.toList := by
  refine retire_keeps ((carryOut_partitioned _).trans partitioned) (create_keeps member) ?_
  rwa [carryOut_table]

theorem visits_keep {times : List Instant} (partitioned : c.partitioned) (member : p ∈ c.attached.toList)
    (lasts : ∀ t ∈ times, ∀ old, s.expiredRanges c.table t = .ok old → p.name ∉ old.map (·.name)) :
    p ∈ (times.foldl (visit s) c).attached.toList := by
  induction times generalizing c with
  | nil => exact member
  | cons t rest ih =>
    obtain ⟨table, same⟩ := visit_same s c t
    refine ih (same.trans partitioned) (visit_keeps partitioned member (lasts t List.mem_cons_self)) ?_
    rw [table]
    exact fun t' later => lasts t' (List.mem_cons_of_mem _ later)

/-- What was attached before a range that is over has been visited is among the newest once the window has
been cleared. -/
theorem Tended.newest (h : Tended s table (s.rangeIndex now) c) (member : p ∈ c.attached.toList)
    (ended : p.EndsBy table (s.rangeDay now)) (computed : s.expiredRanges table now = .ok old)
    (lasts : p.name ∉ old.map (·.name)) (fewer : s.retentionCount.toNat < s.precreateCount.toNat) :
    s.Newest table now p.name := by
  obtain ⟨j, name, -, window⟩ := h.recent fewer p member
  obtain ⟨first, stop, days, forward, passed⟩ := ended
  obtain rfl := dayName_inj.mp (days.name.symm.trans name)
  have earlier : j < s.rangeIndex now := by
    by_contra later
    have := PartitionSettings.rangeDay_le_iff.mpr (not_lt.mp later)
    omega
  obtain ⟨i, place⟩ : ∃ i : Nat, (i + 1 : Int) = s.rangeIndex now - j :=
    ⟨(s.rangeIndex now - j - 1).toNat, by omega⟩
  have start : s.rangeDay now - s.spanDays * (i + 1) = s.spanDays * j := by
    rw [s.rangeDay_eq_index, place]
    ring
  refine ⟨i, ?_, by rw [start, name]⟩
  by_contra kept
  refine lasts ((PartitionSettings.mem_expiredRanges computed).mpr ⟨i, by omega, by omega, ?_⟩)
  rw [start, name]

/-- Of so many names at most as many partitions are attached. -/
theorem ncard_le_of_names {Q : PartitionRange → Prop} {k : Nat} {name : Nat → String}
    (named : ∀ p, p ∈ c.attached.toList → Q p → ∃ i < k, p.name = name i) :
    {p | p ∈ c.attached.toList ∧ Q p}.ncard ≤ k := by
  let names : Finset String := (Finset.range k).image name
  have among : ∀ p ∈ {p | p ∈ c.attached.toList ∧ Q p}, p.name ∈ (names : Set String) := by
    rintro p ⟨member, holds⟩
    obtain ⟨i, below, same⟩ := named p member holds
    exact Finset.mem_image.mpr ⟨i, Finset.mem_range.mpr below, same.symm⟩
  have distinct : Set.InjOn PartitionRange.name {p | p ∈ c.attached.toList ∧ Q p} :=
    fun p there q there' same => Keyed.eq_of_key there.1 there'.1 same
  calc {p | p ∈ c.attached.toList ∧ Q p}.ncard
    _ ≤ (names : Set String).ncard := Set.ncard_le_ncard_of_injOn _ among distinct
    _ = names.card := Set.ncard_coe_finset names
    _ ≤ (Finset.range k).card := Finset.card_image_le
    _ = k := Finset.card_range k

section Retained

variable {earlier : List Instant}
  (consecutive : (earlier ++ [now]).IsChain fun a b => s.rangeIndex b = s.rangeIndex a + 1)

include consecutive

/-- What is kept since some earlier visit was not taken away by any. -/
theorem newest_kept (seen : Seen s table earlier p)
    (newest : s.precreateCount.toNat ≤ s.retentionCount.toNat ∨ s.Newest table now p.name) :
    p ∈ ((earlier.foldl (visit s) { table }).visit s now).attached.toList := by
  obtain ⟨past, ⟨rest, rfl⟩, member⟩ := seen
  obtain ⟨table_eq, partitioned⟩ := visits_same s { table } past
  have all : p ∈ ((rest ++ [now]).foldl (visit s) (past.foldl (visit s) { table })).attached.toList := by
    refine visits_keep partitioned member fun t visited old computed => ?_
    rw [table_eq] at computed
    refine newest_not_expired ?_ newest computed
    rcases List.mem_append.mp visited with later | last
    · exact le_of_lt (index_lt consecutive (List.mem_append_right past later))
    · rw [List.mem_singleton.mp last]
  rw [List.foldl_append] at all
  rwa [List.foldl_append]

theorem retained {n : Nat} (bounded : s.Bounded)
    (succeeded : (((earlier.foldl (visit s) { table }).carryOut .creation s now).2.carryOut
      .retirement s now).1 = .ok n) (ended : p.EndsBy table (s.rangeDay now))
    (member : p ∈ ((earlier.foldl (visit s) { table }).visit s now).attached.toList) :
    Seen s table earlier p ∧
      (s.retentionCount.toNat < s.precreateCount.toNat → s.Newest table now p.name) := by
  have tended : Tended s table (s.rangeIndex now) (earlier.foldl (visit s) { table }) :=
    .run bounded consecutive
  have created := tended.create
  cases computed : s.expiredRanges table now with
  | error e =>
    have failed : Chore.retirement.ranges s table now = .error e := computed
    rw [← created.table_eq] at failed
    rw [carryOut_of_error failed] at succeeded
    cases succeeded
  | ok old =>
    obtain ⟨-, takes, -⟩ := retire_takes created.partitioned (created.table_eq.symm ▸ computed)
    obtain ⟨there, lasts⟩ := (takes p).mp member
    refine ⟨⟨earlier, List.prefix_rfl, ?_⟩, created.newest there ended computed lasts⟩
    refine (created_ahead there).resolve_right fun ⟨j, ahead, days⟩ => ?_
    -- what has just been created is not over
    obtain ⟨first, stop, days', forward, passed⟩ := ended
    rw [tended.table_eq] at days
    have := dayName_inj.mp (days.name.symm.trans days'.name)
    have := PartitionSettings.rangeDay_le_iff.mpr ahead
    omega

end Retained

/-- A retirement succeeds where its whole window lies in the calendar. If fewer ranges are kept than are
created ahead, then of what is over the newest ranges are left, as many as are to be kept at most, and all
older ones are gone. Otherwise nothing is taken away. -/
theorem retention_kept {s : PartitionSettings} {table : String} {earlier : List Instant} {now : Instant}
    (enabled : s.enabled) (valid : s.fault? = none)
    (consecutive : (earlier ++ [now]).IsChain fun a b => s.rangeIndex b = s.rangeIndex a + 1) :
    let retired := ((earlier.foldl (visit s) { table }).carryOut .creation s now).2.carryOut .retirement s now
    (Instant.first.day ≤ s.rangeDay now - s.spanDays * s.precreateCount.toNat → ∃ n, retired.1 = .ok n) ∧
    ∀ n, retired.1 = .ok n →
      retired.2.detached = ∅ ∧
      (s.retentionCount < s.precreateCount →
        (∀ p : PartitionRange, p.EndsBy table (s.rangeDay now) →
          (p ∈ retired.2.attached.toList ↔ Seen s table earlier p ∧ s.Newest table now p.name)) ∧
        {p | p ∈ retired.2.attached.toList ∧ p.EndsBy table (s.rangeDay now)}.ncard ≤
          s.retentionCount.toNat) ∧
      (s.precreateCount ≤ s.retentionCount → ∀ p : PartitionRange, p.EndsBy table (s.rangeDay now) →
        (p ∈ retired.2.attached.toList ↔ Seen s table earlier p)) := by
  intro retired
  have bounded := PartitionSettings.bounded_of_valid enabled valid
  have tended : Tended s table (s.rangeIndex now) (earlier.foldl (visit s) { table }) :=
    .run bounded consecutive
  have created := tended.create
  refine ⟨fun since => ?_, fun n succeeded => ⟨(tended.visit bounded).detached, fun fewer => ?_, fun all p ended => ?_⟩⟩
  · obtain ⟨old, computed⟩ : ∃ old, s.expiredRanges table now = .ok old :=
      PartitionSettings.expiredRanges_some bounded since
    exact (retire_takes created.partitioned (created.table_eq.symm ▸ computed)).1
  · have left : ∀ p : PartitionRange, p.EndsBy table (s.rangeDay now) →
        (p ∈ retired.2.attached.toList ↔ Seen s table earlier p ∧ s.Newest table now p.name) := by
      intro p ended
      constructor
      · intro member
        obtain ⟨seen, newest⟩ := retained consecutive bounded succeeded ended member
        exact ⟨seen, newest fewer⟩
      · rintro ⟨seen, newest⟩
        exact newest_kept consecutive seen (.inr newest)
    exact ⟨left, ncard_le_of_names fun p member ended => ((left p ended).mp member).2⟩
  · constructor
    · intro member
      exact (retained consecutive bounded succeeded ended member).1
    · intro seen
      exact newest_kept consecutive seen (.inl all)

def twoAhead : PartitionSettings := { enabled := true, precreateCount := 2, retentionCount := 1 }

def pastDays : List Instant :=
  [.ofSecond (10 * 86400), .ofSecond (11 * 86400 + 40000), .ofSecond (12 * 86400 + 86399)]

def lastDay : Instant := .ofSecond (13 * 86400)

theorem retention_kept_daily :
    let retired := ((pastDays.foldl (visit twoAhead) { table := "outbox" }).carryOut
      .creation twoAhead lastDay).2.carryOut .retirement twoAhead lastDay
    twoAhead.enabled ∧ twoAhead.fault? = none ∧ twoAhead.retentionCount < twoAhead.precreateCount ∧
      (pastDays ++ [lastDay]).IsChain (fun a b => twoAhead.rangeIndex b = twoAhead.rangeIndex a + 1) ∧
      retired.1 = .ok 1 ∧ retired.2.detached = ∅ ∧
      {p | p ∈ retired.2.attached.toList ∧ p.EndsBy "outbox" 13}.ncard ≤ 1 := by
  intro retired
  have consecutive : (pastDays ++ [lastDay]).IsChain
      (fun a b => twoAhead.rangeIndex b = twoAhead.rangeIndex a + 1) := by decide
  have succeeded : retired.1 = .ok 1 := by decide +kernel
  obtain ⟨empty, kept, -⟩ := (retention_kept (by decide) (by decide) consecutive).2 1 succeeded
  exact ⟨by decide, by decide, by decide, consecutive, succeeded, empty, (kept (by decide)).2⟩

/-- More than is to be kept of the past is left by one visit on each of three days. -/
def Excess (s : PartitionSettings) (first second third : Instant) : Prop :=
  let left := ([first, second, third].foldl (visit s) { table := "outbox" }).attached.toList
  s.enabled ∧ s.fault? = none ∧ s.retentionCount = 1 ∧
    [first, second, third].IsChain (fun a b => s.rangeIndex b = s.rangeIndex a + 1) ∧
    ∃ p ∈ left, ∃ q ∈ left, p ≠ q ∧ p.EndsBy "outbox" third.day ∧ q.EndsBy "outbox" third.day

/-- Where one range is kept and one created ahead nothing is taken away, and on the calendar's first days
there is no window to take anything from. -/
theorem retention_exceeded :
    Excess { enabled := true, precreateCount := 1, retentionCount := 1 }
      (.ofSecond (10 * 86400)) (.ofSecond (11 * 86400)) (.ofSecond (12 * 86400)) ∧
    Excess { enabled := true, precreateCount := 3, retentionCount := 1 } Instant.first
      ⟨firstSecond + 86400, 0, by decide, by decide⟩ ⟨firstSecond + 2 * 86400, 0, by decide, by decide⟩ := by
  have ends {day : Int} {low high : Instant} (start : Instant.ofDay? day = some low)
      (finish : Instant.ofDay? (day + 1) = some high) {last : Int} (ended : day + 1 ≤ last) :
      (PartitionRange.between "outbox" low high).EndsBy "outbox" last :=
    ⟨day, day + 1, ⟨low, high, start, finish, rfl⟩, by omega, ended⟩
  constructor
  · refine ⟨by decide, by decide, by decide, by decide, _, ?_, _, ?_, ?_, @ends 10 _ _ rfl rfl _ (by decide),
      @ends 11 _ _ rfl rfl _ (by decide)⟩
    all_goals decide +kernel
  · refine ⟨by decide, by decide, by decide, by decide, _, ?_, _, ?_, ?_,
      @ends (-96465292) _ _ rfl rfl _ (by decide), @ends (-96465291) _ _ rfl rfl _ (by decide)⟩
    all_goals decide +kernel

end Catalogue

end Outbox
