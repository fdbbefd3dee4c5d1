import Outbox.Proofs.Tiling

/-!
What the name of a partition says. It is the date of the midnight at which the partition's range starts, and
dates of the whole calendar are told apart, so among partitions of one table the name stands for the start
(`names_tell_starts`).
-/

namespace Outbox

namespace Instant

def IsMidnight (t : Instant) : Prop := t.second % 86400 = 0 ∧ t.nano = 0

instance (t : Instant) : Decidable t.IsMidnight := inferInstanceAs (Decidable (_ ∧ _))

theorem isMidnight_of_ofDay? {day : Int} {t : Instant} (h : ofDay? day = some t) : t.IsMidnight := by
  obtain ⟨second, nano⟩ := ofDay?_eq_some h
  exact ⟨by rw [second, Int.mul_emod_left], nano⟩

theorem IsMidnight.eq_of_day {a b : Instant} (ha : a.IsMidnight) (hb : b.IsMidnight) (same : a.day = b.day) :
    a = b := by
  obtain ⟨second, nano⟩ := ha
  obtain ⟨second', nano'⟩ := hb
  cases a
  cases b
  simp only [day, mk.injEq] at *
  omega

theorem IsMidnight.millis {t : Instant} (h : t.IsMidnight) : t.millis = t.day * 86400000 := by
  obtain ⟨second, nano⟩ := h
  simp only [Instant.millis, day, nano]
  omega

end Instant

theorem partitionName_inj {table : String} {a b : Instant} (ha : a.IsMidnight) (hb : b.IsMidnight) :
    partitionName table a = partitionName table b ↔ a = b := by
  rw [partitionName_eq, partitionName_eq, dayName_inj]
  exact ⟨ha.eq_of_day hb, fun same => same ▸ rfl⟩

theorem ItemId.rangeStart_inj {a b : Instant} (ha : a.IsMidnight) (hb : b.IsMidnight) (since : 0 ≤ a.millis)
    (before : a.millis < 2 ^ 48) (since' : 0 ≤ b.millis) (before' : b.millis < 2 ^ 48) :
    rangeStart a = rangeStart b ↔ a = b := by
  refine ⟨fun same => ha.eq_of_day hb ?_, congrArg _⟩
  have millis : a.millis = b.millis := calc
    a.millis = (rangeStart a).millis := (millis_mint since before).symm
    _ = (rangeStart b).millis := by rw [same]
    _ = b.millis := millis_mint since' before'
  rw [ha.millis, hb.millis] at millis
  omega

namespace PartitionSettings

variable {s : PartitionSettings} {table : String} {now start : Instant} {wanted expired : List PartitionRange}
  {r : PartitionRange}

/-- At `now` a partition is to be created whose range starts at `start`. -/
def Creates (s : PartitionSettings) (table : String) (now start : Instant) (r : PartitionRange) : Prop :=
  ∃ (ranges : List PartitionRange) (i : Nat), s.ranges table now = .ok ranges ∧ ranges[i]? = some r ∧
    Instant.ofDay? (s.rangeDay now + s.spanDays * i) = some start

theorem exists_creates (h : s.ranges table now = .ok wanted) (member : r ∈ wanted) :
    ∃ start, s.Creates table now start r := by
  obtain ⟨i, at_i⟩ := List.getElem?_of_mem member
  obtain ⟨start, _, first, -, -⟩ := (consecutive_ofDays (rangesFrom_ok h)).2 i r at_i
  exact ⟨start, wanted, i, h, at_i, first⟩

theorem Creates.between (h : s.Creates table now start r) :
    start.IsMidnight ∧ ∃ stop : Instant, stop.IsMidnight ∧ r = .between table start stop := by
  obtain ⟨ranges, i, computed, at_i, first⟩ := h
  obtain ⟨start', stop, first', last, rfl⟩ := (consecutive_ofDays (rangesFrom_ok computed)).2 i r at_i
  cases first.symm.trans first'
  exact ⟨Instant.isMidnight_of_ofDay? first, stop, Instant.isMidnight_of_ofDay? last, rfl⟩

theorem expiredRanges_unique (h : s.expiredRanges table now = .ok expired) : (expired.map (·.name)).Nodup := by
  obtain ⟨kept, -, -, chain⟩ := expiredRanges_split h
  have whole := chain.nodup_names s.spanDays_pos
  rw [List.map_append, List.map_reverse] at whole
  exact List.nodup_reverse.mp whole.of_append_left

theorem names_unique (s : PartitionSettings) (table : String) (now : Instant) :
    (((s.ranges table now).toOption.getD [] ++ (s.expiredRanges table now).toOption.getD []).map
      (·.name)).Nodup := by
  cases ahead : s.ranges table now with
  | error =>
    cases gone : s.expiredRanges table now with
    | error => exact .nil
    | ok expired => exact expiredRanges_unique gone
  | ok wanted =>
    cases gone : s.expiredRanges table now with
    | error => simpa [Except.toOption] using ranges_unique ahead
    | ok expired =>
      have apart := ranges_not_expired ahead gone
      rw [List.map_append]
      refine (ranges_unique ahead).append (expiredRanges_unique gone) fun name created listed => ?_
      obtain ⟨r, member, rfl⟩ := List.mem_map.mp created
      exact apart r member listed

end PartitionSettings

open PartitionSettings in
/-- Two midnights of the calendar give the same name only if they are one; so no two ranges that are to be
created or have expired at an instant share a name, and of the partitions created under any settings two share
a name exactly if their ranges start at the same instant. Where ids tell the days apart, these are also the
partitions that start with the same id. -/
theorem names_tell_starts (table : String) :
    (∀ a b : Instant, a.IsMidnight → b.IsMidnight →
      (partitionName table a = partitionName table b ↔ a = b)) ∧
    (∀ (s : PartitionSettings) (now : Instant),
      (((s.ranges table now).toOption.getD [] ++ (s.expiredRanges table now).toOption.getD []).map
        (·.name)).Nodup) ∧
    (∀ (s : PartitionSettings) (now : Instant) (ranges : List PartitionRange),
      s.ranges table now = .ok ranges → ∀ r ∈ ranges, ∃ start, s.Creates table now start r) ∧
    ∀ (s s' : PartitionSettings) (now now' start start' : Instant) (r r' : PartitionRange),
      s.Creates table now start r → s'.Creates table now' start' r' →
        start.IsMidnight ∧ (r.name = r'.name ↔ start = start') ∧
        (0 ≤ start.millis → start.millis < 2 ^ 48 → 0 ≤ start'.millis → start'.millis < 2 ^ 48 →
          (r.low = r'.low ↔ start = start')) := by
  refine ⟨fun a b => partitionName_inj, fun s now => names_unique s table now,
    fun s now ranges computed r member => exists_creates computed member, ?_⟩
  intro s s' now now' start start' r r' created created'
  obtain ⟨midnight, stop, -, rfl⟩ := created.between
  obtain ⟨midnight', stop', -, rfl⟩ := created'.between
  exact ⟨midnight, partitionName_inj midnight midnight', ItemId.rangeStart_inj midnight midnight'⟩

/-- The midnight that begins 2024-08-17. -/
def augustMidnight : Instant := .ofSecond 1723852800

/-- Single days and pairs of days, both from 2024-08-17 on: one name, and two ranges that it could stand for. -/
theorem names_tell_starts_reloaded :
    ∃ r r', PartitionSettings.everyDay.Creates "outbox" augustMidnight augustMidnight r ∧
      PartitionSettings.twoPairs.Creates "outbox" augustMidnight augustMidnight r' ∧
      r.name = r'.name ∧ r.low = r'.low ∧ r.high ≠ r'.high := by
  have days : PartitionSettings.everyDay.Creates "outbox" augustMidnight augustMidnight _ :=
    ⟨_, 0, rfl, rfl, rfl⟩
  have pairs : PartitionSettings.twoPairs.Creates "outbox" augustMidnight augustMidnight _ :=
    ⟨_, 0, rfl, rfl, rfl⟩
  obtain ⟨-, names, ids⟩ := (names_tell_starts "outbox").2.2.2 _ _ _ _ _ _ _ _ days pairs
  refine ⟨_, _, days, pairs, names.mpr rfl, (ids ?_ ?_ ?_ ?_).mpr rfl, ?_⟩ <;> decide

end Outbox
