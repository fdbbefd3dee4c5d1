import Outbox.Proofs.PartitionRanges

/-!
The ranges of a table are one sequence without gaps, numbered from the range that starts with 1970
(`PartitionSettings.rangeAt`). Those created ahead are a window of it that starts with the present range,
and the expired ones are the old end of the window before it (`ranges_tile`, `expired_window`).
-/

namespace Outbox

namespace Instant

def HasDay (day : Int) : Prop := first.day ≤ day ∧ day ≤ last.day

instance (day : Int) : Decidable (HasDay day) := inferInstanceAs (Decidable (_ ∧ _))

theorem hasDay_of_ofDay? {day : Int} {t : Instant} (h : ofDay? day = some t) : HasDay day := by
  have low := t.first_day_le
  have high := t.day_le_last_day
  have same : t.day = day := by
    rw [Instant.day, (ofDay?_eq_some h).1, Int.mul_ediv_cancel _ (by decide)]
  rw [same] at low high
  exact ⟨low, high⟩

end Instant

namespace PartitionRange

variable {table : String} {first stop day : Int} {r : PartitionRange} {t : Instant} {random : Nat}

theorem Spans.contains_mint (h : r.Spans table first stop) (clock : t.OnClock) (since : 0 ≤ t.millis)
    (before : t.millis < 2 ^ 48) : r.Contains (.mint t random) ↔ first ≤ t.day ∧ t.day < stop := by
  rw [h.contains_iff, ItemId.millis_mint since before, ← clock.millis_day]
  omega

theorem Spans.low_lt_high (h : r.Spans table first stop) : r.low < r.high := by
  obtain ⟨-, low, high, since, lasts, before⟩ := h
  rw [low, high, ItemId.lt_ofParts_iff (by omega), ItemId.millis_ofParts (by omega)]
  omega

theorem OfDays.high_eq_low {next : PartitionRange} {last : Int} (h : r.OfDays table first stop)
    (h' : next.OfDays table stop last) : r.high = next.low := by
  obtain ⟨_, _, _, finish, rfl⟩ := h
  obtain ⟨_, _, start, _, rfl⟩ := h'
  cases finish.symm.trans start
  rfl

/-- Ranges of `span` days, each of which starts where the one before it ends. -/
inductive Chain (table : String) (span : Nat) : Int → List PartitionRange → Int → Prop
  | nil (day : Int) : Chain table span day [] day
  | cons {day stop : Int} {r : PartitionRange} {rest : List PartitionRange}
      (days : r.OfDays table day (day + span)) (later : Chain table span (day + span) rest stop) :
      Chain table span day (r :: rest) stop

namespace Chain

variable {span : Nat} {ranges more : List PartitionRange}

theorem append (h : Chain table span first ranges day) (h' : Chain table span day more stop) :
    Chain table span first (ranges ++ more) stop := by
  induction h with
  | nil => exact h'
  | cons days _ ih => exact .cons days (ih h')

theorem joined (h : Chain table span first ranges stop) : ranges.IsChain fun r next => r.high = next.low := by
  induction h with
  | nil => exact .nil
  | cons days later ih =>
    cases later with
    | nil => exact .singleton _
    | cons next _ => exact .cons_cons (days.high_eq_low next) ih

/-- What comes later in a chain has a name of a later day. -/
theorem names_later (h : Chain table span first ranges stop) (lasts : 0 < span) :
    ∀ name ∈ ranges.map (·.name), ∃ later, first ≤ later ∧ name = dayName table later := by
  induction h with
  | nil => exact fun name member => absurd member List.not_mem_nil
  | cons days _ ih =>
    intro name member
    rcases List.mem_cons.mp member with rfl | member
    · exact ⟨_, Int.le_refl _, days.name⟩
    · obtain ⟨later, after, same⟩ := ih name member
      exact ⟨later, by omega, same⟩

theorem nodup_names (h : Chain table span first ranges stop) (lasts : 0 < span) : (ranges.map (·.name)).Nodup := by
  induction h with
  | nil => exact .nil
  | cons days later ih =>
    refine List.nodup_cons.mpr ⟨fun again => ?_, ih⟩
    obtain ⟨day, after, same⟩ := later.names_later lasts _ again
    have := dayName_inj.mp (days.name.symm.trans same)
    omega

end Chain

end PartitionRange

namespace PartitionSettings

open PartitionRange (Chain)

variable {s : PartitionSettings} {table : String} {day j : Int} {n : Nat} {now : Instant}
  {ranges : List PartitionRange}

theorem spanDays_eq (s : PartitionSettings) (days : 1 ≤ s.daysPerPartition.toNat) :
    s.spanDays = s.daysPerPartition.toNat := Nat.max_eq_left days

theorem consecutive_chain (h : s.consecutive table day n = some ranges) :
    Chain table s.spanDays day ranges (day + s.spanDays * n) := by
  induction n generalizing day ranges with
  | zero =>
    cases h
    simpa using Chain.nil day
  | succ n ih =>
    simp only [consecutive, Option.bind_eq_bind, Option.bind_eq_some_iff] at h
    obtain ⟨low, start, high, finish, rest, later, whole⟩ := h
    cases whole
    refine .cons ⟨low, high, start, finish, rfl⟩ ?_
    convert ih later using 1
    push_cast
    ring

/-- The calendar has all bounds of a number of ranges, the first of which starts on `day`. -/
def HasBounds (s : PartitionSettings) (day : Int) (n : Nat) : Prop :=
  ∀ i : Nat, i ≤ n → Instant.HasDay (day + s.spanDays * i)

theorem rangesFrom_error {e : OutboxError} (h : s.rangesFrom table day = .error e) :
    e = .invalidConfiguration table "partition ranges fall outside the supported bounds" := by
  unfold rangesFrom at h
  dsimp only at h
  split at h
  · cases h
  · cases h
    rfl

theorem rangesFrom_chain (h : s.rangesFrom table day = .ok ranges) :
    ranges.length = s.precreateCount.toNat ∧
      Chain table s.spanDays day ranges (day + s.spanDays * s.precreateCount.toNat) := by
  have found := rangesFrom_ok h
  exact ⟨(consecutive_ofDays found).1, consecutive_chain found⟩

theorem rangesFrom_ok_iff (table : String) (bounded : s.Bounded) (count : 1 ≤ s.precreateCount.toNat) :
    (∃ ranges, s.rangesFrom table day = .ok ranges) ↔ s.HasBounds day s.precreateCount.toNat := by
  constructor
  · rintro ⟨ranges, computed⟩ i within
    obtain ⟨length, each⟩ := consecutive_ofDays (rangesFrom_ok computed)
    have range (i : Nat) (below : i < s.precreateCount.toNat) : ∃ r, ranges[i]? = some r :=
      ⟨_, List.getElem?_eq_getElem (length.symm ▸ below)⟩
    by_cases last : i = s.precreateCount.toNat
    · -- the last bound is where the last range ends
      obtain ⟨r, at_i⟩ := range (i - 1) (by omega)
      obtain ⟨_, _, -, finish, -⟩ := each (i - 1) r at_i
      have day := Instant.hasDay_of_ofDay? finish
      have up : ((i - 1 : Nat) : Int) + 1 = i := by omega
      rwa [up] at day
    · obtain ⟨r, at_i⟩ := range i (by omega)
      obtain ⟨_, _, start, -, -⟩ := each i r at_i
      exact Instant.hasDay_of_ofDay? start
  · intro bounds
    have first := (bounds 0 (Nat.zero_le _)).1
    have last := (bounds _ (Nat.le_refl _)).2
    rw [Int.natCast_zero, mul_zero, add_zero] at first
    exact rangesFrom_some bounded first last

theorem rangesFrom_failed_iff (table : String) (bounded : s.Bounded) (count : 1 ≤ s.precreateCount.toNat) :
    (∃ e, s.rangesFrom table day = .error e) ↔ ¬ s.HasBounds day s.precreateCount.toNat := by
  rw [← rangesFrom_ok_iff table bounded count]
  cases s.rangesFrom table day with
  | error e => exact ⟨fun _ => nofun, fun _ => ⟨e, rfl⟩⟩
  | ok ranges => exact ⟨nofun, fun none => absurd ⟨ranges, rfl⟩ none⟩

theorem expiredRanges_ok_iff : (∃ ranges, s.expiredRanges table now = .ok ranges) ↔
    ∃ window, s.rangesFrom table (s.rangeDay now - s.spanDays * s.precreateCount.toNat) = .ok window := by
  simp only [expiredRanges_eq_ok_iff]
  exact ⟨fun ⟨_, window, found, _⟩ => ⟨window, found⟩, fun ⟨window, found⟩ => ⟨_, window, found, rfl⟩⟩

theorem rangeDay_around (s : PartitionSettings) (now : Instant) :
    s.rangeDay now ≤ now.day ∧ now.day < s.rangeDay now + s.spanDays ∧ (s.spanDays : Int) ∣ s.rangeDay now := by
  have pos : (0 : Int) < s.spanDays := Int.natCast_pos.mpr s.spanDays_pos
  rw [rangeDay_eq]
  exact ⟨Int.mul_ediv_self_le pos.ne', Int.lt_mul_ediv_self_add pos, Int.dvd_mul_right _ _⟩

/-- The range at place `j` of the sequence of all ranges; the one at place 0 starts with 1970. -/
def rangeAt (s : PartitionSettings) (table : String) (j : Int) : PartitionRange where
  name := dayName table (s.spanDays * j)
  low := .ofParts (s.spanDays * j * 86400000).toNat 0
  high := .ofParts (s.spanDays * (j + 1) * 86400000).toNat 0

theorem eq_rangeAt {r : PartitionRange} (h : r.Spans table (s.spanDays * j) (s.spanDays * (j + 1))) :
    r = s.rangeAt table j := by
  obtain ⟨name, low, high⟩ := r
  simp only [rangeAt, PartitionRange.mk.injEq]
  exact ⟨h.name, h.low, h.high⟩

theorem ranges_window (fits : s.Fits now) (computed : s.ranges table now = .ok ranges) :
    ranges = (List.range s.precreateCount.toNat).map fun i : Nat => s.rangeAt table (s.rangeIndex now + i) :=
  eq_map_range (ranges_span fits computed).1 fun _ _ at_i => eq_rangeAt (ranges_span_index fits computed at_i)

/-- The ranges created ahead at `anchor`, as a part of all time. -/
structure Tiles (s : PartitionSettings) (table : String) (anchor : Instant) (ranges : List PartitionRange) :
    Prop where
  /-- Whatever the anchor, they are a window of one sequence. -/
  window : ranges = (List.range s.precreateCount.toNat).map fun i : Nat =>
    s.rangeAt table (s.rangeIndex anchor + i)
  anchored : s.daysPerPartition.toNat * s.rangeIndex anchor ≤ anchor.day ∧
    anchor.day < s.daysPerPartition.toNat * (s.rangeIndex anchor + 1)
  joined : ranges.IsChain fun r next => r.high = next.low
  days : ∀ (i : Nat) (r : PartitionRange), ranges[i]? = some r →
    let first := s.daysPerPartition.toNat * (s.rangeIndex anchor + i)
    let stop := s.daysPerPartition.toNat * (s.rangeIndex anchor + i + 1)
    r.OfDays table first stop ∧ r.low < r.high ∧
      ∀ (t : Instant) (random : Nat), t.OnClock → 0 ≤ t.millis → t.millis < 2 ^ 48 →
        (r.Contains (.mint t random) ↔ first ≤ t.day ∧ t.day < stop)

/-- Ranges tile time: there are as many as are to be created, each starts on a multiple of the days of a
range and ends where the next one starts, the first contains the anchor, and an id is in a range if and only
if the clock shows one of its days when it is minted. -/
theorem ranges_tile (bounded : s.Bounded) (days : 1 ≤ s.daysPerPartition.toNat) {anchor : Instant}
    (fits : s.Fits anchor) (table : String) :
    ∃ ranges, s.ranges table anchor = .ok ranges ∧ ranges.length = s.precreateCount.toNat ∧
      s.Tiles table anchor ranges := by
  obtain ⟨ranges, computed⟩ : ∃ ranges, s.ranges table anchor = .ok ranges := ranges_some bounded fits
  obtain ⟨length, chain⟩ := rangesFrom_chain computed
  obtain ⟨started, going, -⟩ := s.rangeDay_around anchor
  rw [rangeDay_eq_index] at started going
  refine ⟨ranges, computed, length, ranges_window fits computed, ?_, chain.joined, ?_⟩
  · rw [← s.spanDays_eq days, mul_add, mul_one]
    exact ⟨started, going⟩
  · intro i r at_i
    have spans := ranges_span_index fits computed at_i
    rw [← s.spanDays_eq days]
    exact ⟨ranges_ofDays_index computed at_i, spans.low_lt_high, fun t random => spans.contains_mint⟩

def twoPairs : PartitionSettings := { enabled := true, daysPerPartition := 2, precreateCount := 2, retentionCount := 1 }

/-- The last nanosecond of 1970-01-12. -/
def twelfthEnd : Instant := ⟨12 * 86400 - 1, 999999999, by decide, by decide⟩

/-- What is minted in the last nanosecond of a range is still in it. -/
theorem ranges_tile_pairs :
    twoPairs.Bounded ∧ 1 ≤ twoPairs.daysPerPartition.toNat ∧ twoPairs.Fits twelfthEnd ∧ twelfthEnd.OnClock ∧
      ∃ ranges first, twoPairs.ranges "outbox" twelfthEnd = .ok ranges ∧ ranges.length = 2 ∧
        twoPairs.Tiles "outbox" twelfthEnd ranges ∧ ranges[0]? = some first ∧
        first.Contains (.mint twelfthEnd 7) := by
  have bounded : twoPairs.Bounded := ⟨by decide, by decide⟩
  have fits : twoPairs.Fits twelfthEnd := by decide
  have clock : twelfthEnd.OnClock := by decide
  obtain ⟨ranges, computed, length, tiles⟩ := ranges_tile bounded (by decide) fits "outbox"
  have below : 0 < ranges.length := by rw [length]; decide
  have at_0 : ranges[0]? = some ranges[0] := List.getElem?_eq_getElem below
  obtain ⟨-, -, minted⟩ := tiles.days 0 _ at_0
  exact ⟨bounded, by decide, fits, clock, ranges, _, computed, length, tiles, at_0,
    (minted twelfthEnd 7 clock (by decide) (by decide)).mpr (by decide)⟩

/-! ### The window before -/

theorem hasBounds_back : s.HasBounds (day - s.spanDays * n) n ↔
    ∀ i : Nat, i ≤ n → Instant.HasDay (day - s.spanDays * i) := by
  have mirror (i : Nat) (within : i ≤ n) :
      day - s.spanDays * n + s.spanDays * ((n - i : Nat) : Int) = day - s.spanDays * i := by
    rw [Int.natCast_sub within]
    ring
  constructor
  · intro bounds i within
    exact mirror i within ▸ bounds (n - i) (Nat.sub_le n i)
  · intro bounds i within
    have there := bounds (n - i) (Nat.sub_le n i)
    rwa [← mirror (n - i) (Nat.sub_le n i), Nat.sub_sub_self within] at there

/-- The expired ranges are the old end of the window before the present range, the newest first. -/
theorem expiredRanges_split (h : s.expiredRanges table now = .ok ranges) :
    ∃ kept : List PartitionRange,
      ranges.length = s.precreateCount.toNat - min s.precreateCount.toNat s.retentionCount.toNat ∧
      kept.length = min s.precreateCount.toNat s.retentionCount.toNat ∧
      Chain table s.spanDays (s.rangeDay now - s.spanDays * s.precreateCount.toNat) (ranges.reverse ++ kept)
        (s.rangeDay now) := by
  obtain ⟨window, found, rfl⟩ := expiredRanges_eq_ok_iff.mp h
  obtain ⟨length, chain⟩ := rangesFrom_chain found
  rw [sub_add_cancel] at chain
  rw [List.drop_reverse, List.reverse_reverse]
  refine ⟨window.drop (window.length - s.retentionCount.toNat), ?_, ?_, ?_⟩
  · rw [List.length_reverse, List.length_take, length]
    omega
  · rw [List.length_drop, length]
    omega
  · rwa [List.take_append_drop]

/-- The expired ranges are the oldest of the window that ends where the range of `now` starts. With those
that are kept and the ranges created ahead they make one chain, and what fails fails at an end of the
calendar. -/
theorem expired_window (bounded : s.Bounded) (days : 1 ≤ s.daysPerPartition.toNat)
    (count : 1 ≤ s.precreateCount.toNat) (table : String) (now : Instant) :
    let span := s.daysPerPartition.toNat
    let n := s.precreateCount.toNat
    let start := s.rangeDay now
    (start ≤ now.day ∧ now.day < start + span ∧ (span : Int) ∣ start) ∧
    ((∃ expired, s.expiredRanges table now = .ok expired) ↔
      ∀ i : Nat, i ≤ n → Instant.HasDay (start - span * i)) ∧
    ((∃ wanted, s.ranges table now = .ok wanted) ↔
      ∀ i : Nat, i ≤ n → Instant.HasDay (start + span * i)) ∧
    (∀ e, s.expiredRanges table now = .error e ∨ s.ranges table now = .error e →
      e = .invalidConfiguration table "partition ranges fall outside the supported bounds") ∧
    ∀ expired, s.expiredRanges table now = .ok expired → ∃ kept : List PartitionRange,
      expired.length = n - min n s.retentionCount.toNat ∧ kept.length = min n s.retentionCount.toNat ∧
      Chain table span (start - span * n) (expired.reverse ++ kept) start ∧
      ∀ wanted, s.ranges table now = .ok wanted →
        (expired.reverse ++ kept ++ wanted).length = 2 * n ∧
        Chain table span (start - span * n) (expired.reverse ++ kept ++ wanted) (start + span * n) ∧
        ((expired.reverse ++ kept ++ wanted).map (·.name)).Nodup := by
  intro span n start
  have width : s.spanDays = span := s.spanDays_eq days
  rw [← width]
  refine ⟨s.rangeDay_around now, ?_, rangesFrom_ok_iff table bounded count, ?_, ?_⟩
  · rw [expiredRanges_ok_iff, rangesFrom_ok_iff table bounded count, hasBounds_back]
  · rintro e (failed | failed)
    · exact rangesFrom_error (expiredRanges_eq_error_iff.mp failed)
    · exact rangesFrom_error failed
  · intro expired computed
    obtain ⟨kept, dropped, stays, past⟩ := expiredRanges_split computed
    refine ⟨kept, dropped, stays, past, fun wanted ahead => ?_⟩
    obtain ⟨length, future⟩ := rangesFrom_chain ahead
    have whole := past.append future
    refine ⟨?_, whole, whole.nodup_names s.spanDays_pos⟩
    simp only [List.length_append, List.length_reverse, dropped, stays, length]
    omega

def everyDay : PartitionSettings := { enabled := true }

theorem expired_window_daily :
    everyDay.Bounded ∧ 1 ≤ everyDay.daysPerPartition.toNat ∧ 1 ≤ everyDay.precreateCount.toNat ∧
      ∃ expired kept wanted, everyDay.expiredRanges "outbox" (.ofSecond 1723896000) = .ok expired ∧
        everyDay.ranges "outbox" (.ofSecond 1723896000) = .ok wanted ∧
        expired.length = 4 ∧ kept.length = 3 ∧
        Chain "outbox" 1 (19952 - 7) (expired.reverse ++ kept ++ wanted) (19952 + 7) := by
  have bounded : everyDay.Bounded := ⟨by decide, by decide⟩
  obtain ⟨-, expires, creates, -, split⟩ :=
    expired_window bounded (by decide) (by decide) "outbox" (.ofSecond 1723896000)
  obtain ⟨expired, computed⟩ := expires.mpr (by decide)
  obtain ⟨wanted, ahead⟩ := creates.mpr (by decide)
  obtain ⟨kept, dropped, stays, -, whole⟩ := split expired computed
  exact ⟨bounded, by decide, by decide, expired, kept, wanted, computed, ahead, dropped, stays,
    (whole wanted ahead).2.1⟩

/-- No window fits before the first day of the calendar. -/
example : (everyDay.expiredRanges "outbox" .first).toOption = none := rfl

end PartitionSettings

end Outbox
