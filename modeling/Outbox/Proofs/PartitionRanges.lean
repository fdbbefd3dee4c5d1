import Mathlib.Data.List.Nodup
import Mathlib.Tactic.Ring
import Outbox.Partition.Catalogue
import Outbox.Proofs.Instants
import Outbox.Proofs.PartitionNames

/-!
Ranges of days as ranges of ids. A range that `Spans` some days has the name of the first one and holds
the ids of just these days (`Spans.contains_iff`). The ranges of a table are such, one after another
(`ranges_span`), and the expired ones bear the names of days before them (`expiredRanges_name`).
-/

namespace Outbox

theorem eq_map_range {α : Type} {l : List α} {n : Nat} {f : Nat → α} (length : l.length = n)
    (each : ∀ (i : Nat) (a : α), l[i]? = some a → a = f i) : l = (List.range n).map f := by
  apply List.ext_getElem
  · rw [List.length_map, List.length_range, length]
  · intro i below _
    rw [List.getElem_map, List.getElem_range]
    exact each i _ (List.getElem?_eq_getElem below)

namespace ItemId

variable {ms : Nat} {id : ItemId}

theorem toNat_ofParts (small : ms < 1 <<< 48) : (ofParts ms 0).toNat = ms * 2 ^ 80 := by
  simp only [ofParts, Nat.shiftLeft_eq, Nat.zero_mod, Nat.add_zero]
  omega

theorem millis_ofParts (small : ms < 1 <<< 48) : (ofParts ms 0).millis = ms := by
  rw [millis, toNat_ofParts small, Nat.shiftRight_eq_div_pow, Nat.mul_div_cancel _ (by decide)]

theorem ofParts_le_iff (small : ms < 1 <<< 48) : ofParts ms 0 ≤ id ↔ ms ≤ id.millis := by
  show (ofParts ms 0).toNat ≤ id.toNat ↔ _
  rw [toNat_ofParts small, millis, Nat.shiftRight_eq_div_pow, Nat.le_div_iff_mul_le (by decide)]

theorem lt_ofParts_iff (small : ms < 1 <<< 48) : id < ofParts ms 0 ↔ id.millis < ms := by
  rw [← not_iff_not, Nat.not_lt, ← ofParts_le_iff small]
  exact Nat.not_lt

theorem millis_mint {t : Instant} {random : Nat} (since : 0 ≤ t.millis) (before : t.millis < 2 ^ 48) :
    ((mint t random).millis : Int) = t.millis := by
  simp only [mint, ofParts, millis, Nat.shiftLeft_eq, Nat.shiftRight_eq_div_pow]
  omega

theorem day_timestamp (id : ItemId) : id.timestamp.day = id.millis / 86400000 := by
  simp only [timestamp, Instant.day]
  omega

end ItemId

namespace PartitionRange

def Contains (r : PartitionRange) (id : ItemId) : Prop := r.low ≤ id ∧ id < r.high

instance (r : PartitionRange) (id : ItemId) : Decidable (r.Contains id) :=
  inferInstanceAs (Decidable (_ ∧ _))

/-- The range of the days from `first` on and before `stop`, all of them among those that ids tell
apart. -/
structure Spans (table : String) (first stop : Int) (r : PartitionRange) : Prop where
  name : r.name = dayName table first
  low : r.low = .ofParts (first * 86400000).toNat 0
  high : r.high = .ofParts (stop * 86400000).toNat 0
  since : 0 ≤ first
  lasts : first < stop
  before : stop * 86400000 < 2 ^ 48

variable {table : String} {first stop first' stop' : Int} {r r' : PartitionRange} {id : ItemId}

namespace Spans

theorem contains_iff (h : r.Spans table first stop) :
    r.Contains id ↔ first * 86400000 ≤ id.millis ∧ id.millis < stop * 86400000 := by
  obtain ⟨-, low, high, since, lasts, before⟩ := h
  unfold Contains
  rw [low, high, ItemId.ofParts_le_iff (by omega), ItemId.lt_ofParts_iff (by omega)]
  omega

theorem overlaps_iff (h : r.Spans table first stop) (h' : r'.Spans table first' stop') :
    r.overlaps r' ↔ first < stop' ∧ first' < stop := by
  obtain ⟨-, low, high, since, lasts, before⟩ := h
  obtain ⟨-, low', high', since', lasts', before'⟩ := h'
  unfold overlaps
  rw [Bool.and_eq_true, decide_eq_true_eq, decide_eq_true_eq, low, high, low', high',
    ItemId.lt_ofParts_iff (by omega), ItemId.lt_ofParts_iff (by omega), ItemId.millis_ofParts (by omega),
    ItemId.millis_ofParts (by omega)]
  omega

/-- Ranges of one grid do not overlap unless they are the same. -/
theorem name_eq_of_overlaps {span : Nat} {j k : Int} (positive : 0 < span)
    (h : r.Spans table (span * j) (span * (j + 1))) (h' : r'.Spans table (span * k) (span * (k + 1)))
    (overlap : r.overlaps r') : r.name = r'.name := by
  obtain ⟨before, after⟩ := (h.overlaps_iff h').mp overlap
  have pos : (0 : Int) < span := Int.natCast_pos.mpr positive
  have := (Int.mul_lt_mul_left pos).mp before
  have := (Int.mul_lt_mul_left pos).mp after
  obtain rfl : j = k := by omega
  exact h.name.trans h'.name.symm

theorem contains_of_millis (h : r.Spans table first stop) (low : r.low.millis ≤ id.millis)
    (high : id.millis < r.high.millis) : r.Contains id := by
  have := h.since
  have := h.lasts
  have := h.before
  rw [h.low, ItemId.millis_ofParts (by omega)] at low
  rw [h.high, ItemId.millis_ofParts (by omega)] at high
  rw [h.contains_iff]
  omega

theorem name_iff (h : r.Spans table first stop) : r.name = dayName table first' ↔ first = first' := by
  rw [h.name, dayName_inj]

end Spans

/-- The range between the starts of two days. -/
def OfDays (table : String) (first stop : Int) (r : PartitionRange) : Prop :=
  ∃ low high, Instant.ofDay? first = some low ∧ Instant.ofDay? stop = some high ∧
    r = .between table low high

theorem OfDays.name (h : r.OfDays table first stop) : r.name = dayName table first := by
  obtain ⟨low, high, start, -, rfl⟩ := h
  rw [between, partitionName_eq, (Instant.ofDay?_eq_some start).1, Int.mul_ediv_cancel _ (by decide)]

theorem OfDays.first_day_le (h : r.OfDays table first stop) : Instant.first.day ≤ first := by
  obtain ⟨low, -, start, -⟩ := h
  have := low.first_day_le
  have := (Instant.ofDay?_eq_some start).1
  simp only [Instant.day] at *
  omega

/-- A range of a given number of days is known by its name. -/
theorem OfDays.eq_of_name {span : Int} (h : r.OfDays table first (first + span))
    (h' : r'.OfDays table first' (first' + span)) (same : r.name = r'.name) : r = r' := by
  obtain rfl := dayName_inj.mp (h.name.symm.trans (same.trans h'.name))
  obtain ⟨low, high, start, finish, rfl⟩ := h
  obtain ⟨low', high', start', finish', rfl⟩ := h'
  cases start.symm.trans start'
  cases finish.symm.trans finish'
  rfl

theorem OfDays.spans (h : r.OfDays table first stop) (since : 0 ≤ first) (lasts : first < stop)
    (before : stop * 86400000 < 2 ^ 48) : r.Spans table first stop := by
  have name := h.name
  obtain ⟨low, high, start, finish, rfl⟩ := h
  have edge {day : Int} {t : Instant} (h : Instant.ofDay? day = some t) :
      ItemId.rangeStart t = .ofParts (day * 86400000).toNat 0 := by
    obtain ⟨second, nano⟩ := Instant.ofDay?_eq_some h
    have millis : t.millis = day * 86400000 := by
      simp only [Instant.millis, second, nano]
      omega
    rw [ItemId.rangeStart, ItemId.mint, millis]
  exact ⟨name, edge start, edge finish, since, lasts, before⟩

end PartitionRange

namespace PartitionSettings

variable {s : PartitionSettings} {table : String} {day : Int} {n i : Nat} {now : Instant}
  {ranges : List PartitionRange} {r : PartitionRange}

theorem spanDays_pos (s : PartitionSettings) : 0 < s.spanDays :=
  Nat.lt_of_lt_of_le Nat.one_pos (Nat.le_max_right _ _)

theorem rangeDay_le (s : PartitionSettings) (now : Instant) : s.rangeDay now ≤ now.day := by
  have := Int.emod_nonneg (now.second / 86400) (Int.ofNat_ne_zero.mpr s.spanDays_pos.ne')
  simp only [rangeDay, Instant.day]
  omega

theorem rangeDay_eq (s : PartitionSettings) (now : Instant) :
    s.rangeDay now = s.spanDays * (now.day / s.spanDays) := by
  have := Int.mul_ediv_add_emod now.day s.spanDays
  simp only [rangeDay, Instant.day] at this ⊢
  omega

/-- The place of the range that contains `now`, counted from the one that starts with 1970. -/
def rangeIndex (s : PartitionSettings) (now : Instant) : Int := now.day / s.spanDays

theorem rangeDay_eq_index (s : PartitionSettings) (now : Instant) :
    s.rangeDay now = s.spanDays * s.rangeIndex now := s.rangeDay_eq now

theorem rangeDay_congr {s' : PartitionSettings} (same : s.spanDays = s'.spanDays) :
    s.rangeDay now = s'.rangeDay now := by
  simp only [rangeDay, same]

theorem rangeIndex_mono (s : PartitionSettings) {now later : Instant} (h : now ≤ later) :
    s.rangeIndex now ≤ s.rangeIndex later :=
  Int.ediv_le_ediv (Int.natCast_pos.mpr s.spanDays_pos) (Instant.day_mono h)

theorem rangeDay_mono (s : PartitionSettings) {now later : Instant} (h : now ≤ later) :
    s.rangeDay now ≤ s.rangeDay later := by
  rw [rangeDay_eq_index, rangeDay_eq_index]
  exact Int.mul_le_mul_of_nonneg_left (s.rangeIndex_mono h) (Int.natCast_nonneg _)

theorem consecutive_ofDays (h : s.consecutive table day n = some ranges) :
    ranges.length = n ∧ ∀ (i : Nat) (r : PartitionRange), ranges[i]? = some r →
      r.OfDays table (day + s.spanDays * i) (day + s.spanDays * (i + 1)) := by
  induction n generalizing day ranges with
  | zero =>
    cases h
    exact ⟨rfl, fun i r at_i => by cases at_i⟩
  | succ n ih =>
    simp only [consecutive, Option.bind_eq_bind, Option.bind_eq_some_iff] at h
    obtain ⟨low, start, high, finish, rest, later, whole⟩ := h
    cases whole
    obtain ⟨length, each⟩ := ih later
    refine ⟨congrArg (· + 1) length, fun i r at_i => ?_⟩
    cases i with
    | zero =>
      cases at_i
      exact ⟨low, high, by simpa using start, by simpa using finish, rfl⟩
    | succ i =>
      have there := each i r at_i
      push_cast
      convert there using 1 <;> ring

theorem consecutive_names (h : s.consecutive table day n = some ranges) :
    ranges.map (·.name) = (List.range n).map fun i : Nat => dayName table (day + s.spanDays * i) := by
  obtain ⟨length, each⟩ := consecutive_ofDays h
  apply eq_map_range
  · rw [List.length_map, length]
  · intro i name at_i
    rw [List.getElem?_map, Option.map_eq_some_iff] at at_i
    obtain ⟨r, there, rfl⟩ := at_i
    exact (each i r there).name

theorem consecutive_some (since : Instant.first.day ≤ day) (before : day + s.spanDays * n ≤ Instant.last.day) :
    ∃ ranges, s.consecutive table day n = some ranges := by
  induction n generalizing day with
  | zero => exact ⟨[], rfl⟩
  | succ n ih =>
    have span : (0 : Int) < s.spanDays := Int.natCast_pos.mpr s.spanDays_pos
    have ahead : (0 : Int) ≤ s.spanDays * n := Int.mul_nonneg span.le (Int.natCast_nonneg n)
    rw [Nat.cast_succ, mul_add, mul_one] at before
    obtain ⟨low, start⟩ := Instant.exists_ofDay? since (by omega)
    obtain ⟨high, finish⟩ : ∃ t, Instant.ofDay? (day + s.spanDays) = some t :=
      Instant.exists_ofDay? (by omega) (by omega)
    obtain ⟨rest, later⟩ : ∃ rest, s.consecutive table (day + s.spanDays) n = some rest :=
      ih (by omega) (by omega)
    refine ⟨.between table low high :: rest, ?_⟩
    simp only [consecutive, start, finish, later, Option.bind_eq_bind, Option.bind_some]

theorem rangesFrom_ok (h : s.rangesFrom table day = .ok ranges) :
    s.consecutive table day s.precreateCount.toNat = some ranges := by
  unfold rangesFrom at h
  by_cases beyond : maxDaysPerPartition < s.daysPerPartition.toNat ∨ maxPartitionCount < s.precreateCount.toNat
  · simp only [beyond, if_true] at h
    cases h
  · simp only [beyond, if_false] at h
    split at h
    · rename_i found
      cases h
      exact (Option.bind_eq_some_iff.mp found).choose_spec.2
    · cases h

/-- Settings within the limits that computed ranges have. -/
structure Bounded (s : PartitionSettings) : Prop where
  days : s.daysPerPartition.toNat ≤ maxDaysPerPartition
  count : s.precreateCount.toNat ≤ maxPartitionCount

theorem bounded_of_valid (enabled : s.enabled) (valid : s.fault? = none) : s.Bounded := by
  constructor <;> grind [fault?]

theorem count_pos_of_valid (enabled : s.enabled) (valid : s.fault? = none) : 1 ≤ s.precreateCount.toNat := by
  have some : s.precreateCount ≠ 0 := by grind [fault?]
  exact Nat.one_le_iff_ne_zero.mpr fun zero => some (UInt32.toNat_inj.mp zero)

theorem rangesFrom_some (bounded : s.Bounded) (since : Instant.first.day ≤ day)
    (before : day + s.spanDays * s.precreateCount.toNat ≤ Instant.last.day) :
    ∃ ranges, s.rangesFrom table day = .ok ranges := by
  obtain ⟨days, count⟩ := bounded
  obtain ⟨ranges, found⟩ := consecutive_some since before
  have ahead : (0 : Int) ≤ s.spanDays * s.precreateCount.toNat :=
    Int.mul_nonneg (Int.natCast_nonneg _) (Int.natCast_nonneg _)
  obtain ⟨start, first⟩ : ∃ t, Instant.ofDay? day = some t := Instant.exists_ofDay? since (by omega)
  refine ⟨ranges, ?_⟩
  unfold rangesFrom
  rw [if_neg (by omega), first, Option.bind_some, found]

theorem ranges_ofDays_index (h : s.ranges table now = .ok ranges) (at_i : ranges[i]? = some r) :
    r.OfDays table (s.spanDays * (s.rangeIndex now + i)) (s.spanDays * (s.rangeIndex now + i + 1)) := by
  have days := (consecutive_ofDays (rangesFrom_ok h)).2 i r at_i
  rw [rangeDay_eq_index, ← mul_add, ← mul_add, ← add_assoc] at days
  exact days

theorem ranges_index (h : s.ranges table now = .ok ranges) (member : r ∈ ranges) :
    ∃ j, s.rangeIndex now ≤ j ∧ r.OfDays table (s.spanDays * j) (s.spanDays * (j + 1)) := by
  obtain ⟨i, at_i⟩ := List.getElem?_of_mem member
  exact ⟨s.rangeIndex now + i, by omega, ranges_ofDays_index h at_i⟩

theorem rangeDay_le_iff {j : Int} : s.rangeDay now ≤ s.spanDays * j ↔ s.rangeIndex now ≤ j := by
  rw [rangeDay_eq_index]
  exact Int.mul_le_mul_left (Int.natCast_pos.mpr s.spanDays_pos)

theorem ranges_ofDays (h : s.ranges table now = .ok ranges) (member : r ∈ ranges) :
    ∃ first, s.rangeDay now ≤ first ∧ r.OfDays table first (first + s.spanDays) := by
  obtain ⟨j, ahead, days⟩ := ranges_index h member
  rw [mul_add, mul_one] at days
  exact ⟨_, rangeDay_le_iff.mpr ahead, days⟩

theorem ranges_unique (h : s.ranges table now = .ok ranges) : (ranges.map (·.name)).Nodup := by
  rw [consecutive_names (rangesFrom_ok h)]
  refine List.Nodup.map (fun i j same => ?_) List.nodup_range
  have spaced := dayName_inj.mp same
  have equal : (i : Int) = j := Int.eq_of_mul_eq_mul_left
    (Int.natCast_pos.mpr s.spanDays_pos).ne' (by omega : (s.spanDays * i : Int) = s.spanDays * j)
  exact Int.ofNat_inj.mp equal

/-- All ranges needed at `now` lie among the days that ids tell apart. -/
structure Fits (s : PartitionSettings) (now : Instant) : Prop where
  since : 0 ≤ s.rangeDay now
  before : (s.rangeDay now + s.spanDays * s.precreateCount.toNat) * 86400000 < 2 ^ 48

instance (s : PartitionSettings) (now : Instant) : Decidable (s.Fits now) :=
  decidable_of_iff (0 ≤ s.rangeDay now ∧
    (s.rangeDay now + s.spanDays * s.precreateCount.toNat) * 86400000 < 2 ^ 48)
    ⟨fun ⟨since, before⟩ => ⟨since, before⟩, fun fits => ⟨fits.since, fits.before⟩⟩

theorem ranges_span (fits : s.Fits now) (h : s.ranges table now = .ok ranges) :
    ranges.length = s.precreateCount.toNat ∧ ∀ (i : Nat) (r : PartitionRange), ranges[i]? = some r →
      r.Spans table (s.rangeDay now + s.spanDays * i) (s.rangeDay now + s.spanDays * (i + 1)) := by
  obtain ⟨length, each⟩ := consecutive_ofDays (rangesFrom_ok h)
  refine ⟨length, fun i r at_i => ?_⟩
  obtain ⟨below, -⟩ := List.getElem?_eq_some_iff.mp at_i
  obtain ⟨since, before⟩ := fits
  have pos : (0 : Int) < s.spanDays := Int.natCast_pos.mpr s.spanDays_pos
  have early : (s.spanDays * (i + 1) : Int) ≤ s.spanDays * s.precreateCount.toNat :=
    Int.mul_le_mul_of_nonneg_left (by omega) pos.le
  have late : (0 : Int) ≤ s.spanDays * i := Int.mul_nonneg pos.le (Int.natCast_nonneg i)
  refine (each i r at_i).spans ?_ ?_ ?_
  · omega
  · rw [mul_add]
    omega
  · omega

theorem ranges_span_index (fits : s.Fits now) (h : s.ranges table now = .ok ranges) (at_i : ranges[i]? = some r) :
    r.Spans table (s.spanDays * (s.rangeIndex now + i)) (s.spanDays * (s.rangeIndex now + i + 1)) := by
  have spans := (ranges_span fits h).2 i r at_i
  rw [s.rangeDay_eq_index, ← mul_add, ← mul_add, ← add_assoc] at spans
  exact spans

theorem ranges_grid (fits : s.Fits now) (h : s.ranges table now = .ok ranges) (member : r ∈ ranges) :
    ∃ j : Int, r.Spans table (s.spanDays * j) (s.spanDays * (j + 1)) := by
  obtain ⟨i, at_i⟩ := List.getElem?_of_mem member
  exact ⟨_, ranges_span_index fits h at_i⟩

theorem ranges_some (bounded : s.Bounded) (fits : s.Fits now) :
    ∃ ranges, s.ranges table now = .ok ranges := by
  obtain ⟨since, before⟩ := fits
  refine rangesFrom_some bounded ?_ ?_
  · exact le_trans (by decide) since
  · have : Instant.last.day = 95026236 := by decide
    omega

theorem expiredRanges_eq_ok_iff : s.expiredRanges table now = .ok ranges ↔
    ∃ window, s.rangesFrom table (s.rangeDay now - s.spanDays * s.precreateCount.toNat) = .ok window ∧
      ranges = window.reverse.drop s.retentionCount.toNat := by
  unfold expiredRanges
  cases s.rangesFrom table (s.rangeDay now - s.spanDays * s.precreateCount.toNat) with
  | error e => simp [Except.map]
  | ok window => simp [Except.map, eq_comm]

theorem expiredRanges_eq_error_iff {e : OutboxError} : s.expiredRanges table now = .error e ↔
    s.rangesFrom table (s.rangeDay now - s.spanDays * s.precreateCount.toNat) = .error e := by
  unfold expiredRanges
  cases s.rangesFrom table (s.rangeDay now - s.spanDays * s.precreateCount.toNat) with
  | error e => simp [Except.map]
  | ok window => simp [Except.map]

theorem expiredRanges_some (bounded : s.Bounded)
    (since : Instant.first.day ≤ s.rangeDay now - s.spanDays * s.precreateCount.toNat) :
    ∃ ranges, s.expiredRanges table now = .ok ranges := by
  have before := s.rangeDay_le now
  have inCalendar := now.day_le_last_day
  obtain ⟨all, found⟩ : ∃ all, s.rangesFrom table
      (s.rangeDay now - s.spanDays * s.precreateCount.toNat) = .ok all :=
    rangesFrom_some bounded since (by omega)
  exact ⟨_, expiredRanges_eq_ok_iff.mpr ⟨all, found, rfl⟩⟩

/-- The expired ranges are those in the window before the range of `now` that are not kept. -/
theorem mem_expiredRanges (h : s.expiredRanges table now = .ok ranges) {name : String} :
    name ∈ ranges.map (·.name) ↔ ∃ i : Nat, s.retentionCount.toNat ≤ i ∧ i < s.precreateCount.toNat ∧
      name = dayName table (s.rangeDay now - s.spanDays * (i + 1)) := by
  obtain ⟨all, found, rfl⟩ := expiredRanges_eq_ok_iff.mp h
  have names := consecutive_names (rangesFrom_ok found)
  have length : all.length = s.precreateCount.toNat := (consecutive_ofDays (rangesFrom_ok found)).1
  -- counted from the end of the window, range `i` starts `i + 1` ranges before `now`
  have fromEnd : ∀ i, i < s.precreateCount.toNat → (all.map (·.name)).reverse[i]? =
      some (dayName table (s.rangeDay now - s.spanDays * (i + 1))) := by
    intro i below
    rw [List.getElem?_reverse (by rwa [List.length_map, length]), names, List.getElem?_map,
      List.length_map, List.length_range, List.getElem?_range (by omega), Option.map_some]
    congr 2
    have back : ((s.precreateCount.toNat - 1 - i : Nat) : Int) = s.precreateCount.toNat - 1 - i := by omega
    rw [back]
    ring
  rw [List.map_drop, List.map_reverse]
  constructor
  · intro member
    obtain ⟨j, at_j⟩ := List.getElem?_of_mem member
    rw [List.getElem?_drop] at at_j
    obtain ⟨below, -⟩ := List.getElem?_eq_some_iff.mp at_j
    rw [List.length_reverse, List.length_map, length] at below
    rw [fromEnd _ below] at at_j
    exact ⟨_, Nat.le_add_right _ j, below, (Option.some.inj at_j).symm⟩
  · rintro ⟨i, kept, below, rfl⟩
    refine List.mem_of_getElem? (i := i - s.retentionCount.toNat) ?_
    rw [List.getElem?_drop, Nat.add_sub_cancel' kept, fromEnd i below]

theorem expiredRanges_name (h : s.expiredRanges table now = .ok ranges) (member : r ∈ ranges) :
    0 < s.precreateCount.toNat ∧ ∃ day, r.name = dayName table day ∧ day < s.rangeDay now := by
  obtain ⟨i, -, below, name⟩ := (mem_expiredRanges h).mp (List.mem_map_of_mem member)
  have back : (0 : Int) < s.spanDays * (i + 1) := Int.mul_pos (Int.natCast_pos.mpr s.spanDays_pos) (by omega)
  exact ⟨by omega, _, name, by omega⟩

theorem ranges_not_expired {wanted expired : List PartitionRange} (h : s.ranges table now = .ok wanted)
    (h' : s.expiredRanges table now = .ok expired) : ∀ r ∈ wanted, r.name ∉ expired.map (·.name) := by
  intro r given listed
  obtain ⟨first, ahead, days⟩ := ranges_ofDays h given
  obtain ⟨x, expires, same⟩ := List.mem_map.mp listed
  obtain ⟨-, day, name, early⟩ := expiredRanges_name h' expires
  have := dayName_inj.mp (days.name.symm.trans (same.symm.trans name))
  omega

end PartitionSettings

end Outbox
