import Outbox.Proofs.Coverage
import Outbox.Proofs.Underway

/-!
Partitions for the items of the present. A range that a creation made is attached for as long as its days
are not over, for a retirement takes away only what starts before the range of its instant (`Holding.next`),
and it is so at each call of whatever is under way. So the ids that are minted in the window of a creation
have a partition at any moment (`insertion_covered`).
-/

namespace Outbox

open Rehearsal (Store UpkeepAnswer UpkeepRun UpkeepStep)

namespace PartitionSettings

variable {s : PartitionSettings} {table : String} {now : Instant} {ranges : List PartitionRange} {id : ItemId}

/-- The range of an id is that of the instant which the clock showed when it was minted. -/
theorem rangeIndex_mint {t : Instant} (clock : t.OnClock) (fits : s.Fits now) (later : now ≤ t)
    (reach : s.rangeIndex t ≤ s.rangeIndex now + s.precreateCount.toNat - 1) (random : Nat) :
    s.rangeIndex (ItemId.mint t random).timestamp = s.rangeIndex t := by
  obtain ⟨since, before⟩ := fits
  have positive : (0 : Int) < s.spanDays := Int.natCast_pos.mpr s.spanDays_pos
  have low : 0 ≤ t.day := (since.trans (s.rangeDay_mono later)).trans (s.rangeDay_le t)
  have high : t.day < s.rangeDay now + s.spanDays * s.precreateCount.toNat :=
    calc t.day
      _ < s.spanDays * s.rangeIndex t + s.spanDays := Int.lt_mul_ediv_self_add positive
      _ = s.spanDays * (s.rangeIndex t + 1) := by ring
      _ ≤ s.spanDays * (s.rangeIndex now + s.precreateCount.toNat) :=
        Int.mul_le_mul_of_nonneg_left (by omega) positive.le
      _ = s.rangeDay now + s.spanDays * s.precreateCount.toNat := by rw [s.rangeDay_eq_index, mul_add]
  generalize s.rangeDay now + s.spanDays * s.precreateCount.toNat = stop at before high
  have days := clock.millis_day
  have millis : ((ItemId.mint t random).millis : Int) = t.millis := ItemId.millis_mint (by omega) (by omega)
  rw [rangeIndex, ItemId.day_timestamp, millis, days, rangeIndex]

theorem exists_range (fits : s.Fits now) (computed : s.ranges table now = .ok ranges)
    (since : s.rangeIndex now ≤ s.rangeIndex id.timestamp)
    (before : s.rangeIndex id.timestamp ≤ s.rangeIndex now + s.precreateCount.toNat - 1) :
    ∃ p ∈ ranges, p.Contains id ∧ p.name = dayName table (s.spanDays * s.rangeIndex id.timestamp) := by
  obtain ⟨length, each⟩ := ranges_span fits computed
  obtain ⟨i, place⟩ : ∃ i : Nat, s.rangeIndex now + i = s.rangeIndex id.timestamp :=
    ⟨(s.rangeIndex id.timestamp - s.rangeIndex now).toNat, by omega⟩
  have below : i < ranges.length := by omega
  have spans := each i ranges[i] (List.getElem?_eq_getElem below)
  rw [s.rangeDay_eq_index, ← mul_add, ← mul_add, ← add_assoc, place] at spans
  refine ⟨ranges[i], List.getElem_mem below, ?_, spans.name⟩
  have positive : (0 : Int) < s.spanDays := Int.natCast_pos.mpr s.spanDays_pos
  have first : s.spanDays * s.rangeIndex id.timestamp ≤ id.timestamp.day := Int.mul_ediv_self_le positive.ne'
  have last : id.timestamp.day < s.spanDays * s.rangeIndex id.timestamp + s.spanDays :=
    Int.lt_mul_ediv_self_add positive
  rw [spans.contains_iff, mul_add, mul_one]
  rw [id.day_timestamp] at first last
  omega

end PartitionSettings

namespace Rehearsal.UpkeepRun

variable {r : UpkeepRun} {e : UpkeepStep} {table : String} {span : Nat} {first : Int} {p : PartitionRange}
  {u : Upkeep}

/-- What a manager may have under way: it creates what is needed, or retires what is old. -/
def AtWork (r : UpkeepRun) (u : Upkeep) : Prop :=
  u = .create r.settings r.store.catalogue.table r.now ∨ u = .retire r.settings r.store.catalogue.table r.now

/-- A partition that starts on the first day of the current range or later stays attached at each call. -/
theorem runFor_stays (work : r.AtWork u) (name : p.name = dayName r.store.catalogue.table first)
    (ahead : r.settings.rangeDay r.now ≤ first) (attached : p ∈ r.store.catalogue.attached.toList)
    (calls : Nat) :
    p ∈ (u.runFor r.store.catalogue.table Store.perform calls r.store).2.catalogue.attached.toList := by
  let Inv (store : Store) : Prop := p ∈ store.catalogue.attached.toList
  rcases work with rfl | rfl
  · refine Upkeep.create_runFor Inv (fun ranges _ x _ store there => ?_) calls attached
    exact (Catalogue.store_moves store _).create.1 p there
  · refine Upkeep.retire_runFor Inv (fun ranges computed x given store there => ?_) calls attached
    obtain ⟨-, day, same, early⟩ := PartitionSettings.expiredRanges_name computed given
    have other : x.name ≠ p.name := by
      rw [same, name, Ne, dayName_inj]
      omega
    have stays (call : StoreCall) (asked : call.partition = x.name) :
        p ∈ (store.perform call).2.catalogue.attached.toList := by
      have kept := ((Catalogue.store_moves store call).elsewhere (asked ▸ other)).1
      exact Keyed.mem_of_find? (kept.trans (Keyed.find?_of_mem there))
    exact ⟨stays _ rfl, stays _ rfl⟩

theorem runFor_apart (work : r.AtWork u) (apart : r.store.catalogue.Apart) (calls : Nat) :
    (u.runFor r.store.catalogue.table Store.perform calls r.store).2.catalogue.Apart := by
  let Inv (store : Store) : Prop := store.catalogue.Apart
  have moves (store : Store) (call : StoreCall) (h : Inv store) : Inv (store.perform call).2 :=
    h.move (Catalogue.store_moves store call)
  rcases work with rfl | rfl
  · exact Upkeep.create_runFor Inv (fun _ _ _ _ store h => moves store _ h) calls apart
  · exact Upkeep.retire_runFor Inv (fun _ _ _ _ store h => ⟨moves store _ h, moves store _ h⟩) calls apart

/-- The partition is attached unless the range of the present starts after it. -/
structure Holding (table : String) (span : Nat) (first : Int) (p : PartitionRange) (r : UpkeepRun) : Prop where
  settings : r.settings.spanDays = span
  table_eq : r.store.catalogue.table = table
  kept : r.settings.rangeDay r.now ≤ first → p ∈ r.store.catalogue.attached.toList

namespace Holding

theorem next (h : r.Holding table span first p) (name : p.name = dayName table first) (managed : r.Managed e)
    (same : ∀ s, e = .settings s → s.spanDays = span) : (r.next e).Holding table span first p := by
  obtain ⟨settings, rfl, kept⟩ := h
  have stays {u : Upkeep} (work : r.AtWork u) (ahead : r.settings.rangeDay r.now ≤ first) :
      p ∈ (u.run r.store.catalogue.table Store.perform r.store).2.catalogue.attached.toList :=
    runFor_stays work name ahead (kept ahead) _
  cases e with
  | createUpcoming => exact ⟨settings, table_next rfl, stays (.inl rfl)⟩
  | retireOld => exact ⟨settings, table_next rfl, stays (.inr rfl)⟩
  | settings s =>
    refine ⟨same s rfl, rfl, fun ahead => kept ?_⟩
    rwa [PartitionSettings.rangeDay_congr (settings.trans (same s rfl).symm)]
  | setClock | advance =>
    exact ⟨settings, rfl, fun ahead => kept ((r.settings.rangeDay_mono managed).trans ahead)⟩
  | inject => exact ⟨settings, rfl, kept⟩
  | call => exact managed.elim

theorem run (h : r.Holding table span first p) (name : p.name = dayName table first) {steps : List UpkeepStep}
    (managed : Along UpkeepRun.next Managed r steps) (same : ∀ s, .settings s ∈ steps → s.spanDays = span) :
    (steps.foldl UpkeepRun.next r).Holding table span first p := by
  induction steps generalizing r with
  | nil => exact h
  | cons e rest ih =>
    refine ih (h.next name managed.1 fun s asked => ?_) managed.2 fun s later => ?_
    · exact same s (asked ▸ List.mem_cons_self)
    · exact same s (List.mem_cons_of_mem _ later)

end Holding

theorem now_le_next (managed : r.Managed e) : r.now ≤ (r.next e).now := by
  cases e with
  | setClock | advance => exact managed
  | createUpcoming | retireOld | settings | inject => exact Instant.le_refl r.now
  | call => exact managed.elim

theorem now_le_run {steps : List UpkeepStep} (managed : Along next Managed r steps) :
    r.now ≤ (steps.foldl next r).now := by
  induction steps generalizing r with
  | nil => exact Instant.le_refl r.now
  | cons e rest ih => exact Instant.le_trans (now_le_next managed.1) (ih managed.2)

theorem apart_run (h : r.store.catalogue.Apart) (steps : List UpkeepStep) :
    (steps.foldl next r).store.catalogue.Apart := by
  induction steps generalizing r with
  | nil => exact h
  | cons e rest ih => exact ih (apart_next h)

/-- A creation that succeeds leaves the range attached that holds an id minted later, if it is in the
window. -/
theorem Uniform.made (h : r.Uniform table span) (fits : r.settings.Fits r.now) {n : Nat}
    (succeeded : (r.step .createUpcoming).1 = .upkeep (.ok n)) {t : Instant} {random : Nat}
    (clock : t.OnClock) (elapsed : r.now ≤ t)
    (reached : r.settings.rangeIndex t ≤ r.settings.rangeIndex r.now + r.settings.precreateCount.toNat - 1) :
    ∃ p ∈ (r.next .createUpcoming).store.catalogue.attached.toList, p.Contains (.mint t random) ∧
      ∃ first, p.name = dayName table first ∧ r.settings.rangeDay t ≤ first := by
  obtain ⟨ranges, computed, -, created⟩ := clear_attached succeeded
  rw [h.ofWidth.table_eq] at computed
  have index : r.settings.rangeIndex (ItemId.mint t random).timestamp = r.settings.rangeIndex t :=
    PartitionSettings.rangeIndex_mint clock fits elapsed reached random
  obtain ⟨p, given, holds, name⟩ := PartitionSettings.exists_range fits computed
    (index ▸ r.settings.rangeIndex_mono elapsed) (index ▸ reached)
  obtain ⟨first, ahead, days⟩ := PartitionSettings.ranges_ofDays computed given
  rw [h.settings] at days
  exact ⟨p, created p given (h.ofWidth.clear days ahead), holds, _, name,
    PartitionSettings.rangeDay_le_iff.mpr index.ge⟩

/-- Once a creation has succeeded, an id of its window is in one attached partition at every moment after
it: between chores and between the calls of one, whatever has failed since. -/
theorem insertion_covered {settings : PartitionSettings} {start : Instant} {before after : List UpkeepStep}
    (managed : Along next Managed (fresh table start settings) before)
    (managed' : Along next Managed ((before.foldl next (fresh table start settings)).next .createUpcoming) after)
    (same : ∀ s, .settings s ∈ before ++ after → s.spanDays = settings.spanDays) :
    let u := before.foldl next (fresh table start settings)
    let r := after.foldl next (u.next .createUpcoming)
    u.settings.Fits u.now → ∀ n, (u.step .createUpcoming).1 = .upkeep (.ok n) →
    ∀ (t : Instant) (random : Nat), t.OnClock → r.now ≤ t →
    u.settings.rangeIndex t ≤ u.settings.rangeIndex u.now + u.settings.precreateCount.toNat - 1 →
    ∀ work, r.AtWork work → ∀ calls,
      let store := (work.runFor table Store.perform calls r.store).2
      ∃ p ∈ store.catalogue.attached.toList, p.Contains (.mint t random) ∧
        ∀ q ∈ store.catalogue.attached.toList, q.Contains (.mint t random) → q = p := by
  intro u r fits n succeeded t random clock later reached work busy calls store
  have uniform : u.Uniform table settings.spanDays := (Uniform.fresh table start settings).run managed
    fun s asked => same s (List.mem_append_left _ asked)
  have forward := now_le_run managed'
  obtain ⟨p, there, holds, first, name, ahead⟩ :=
    uniform.made fits succeeded clock (Instant.le_trans forward later) reached
  have made : (u.next .createUpcoming).Holding table settings.spanDays first p :=
    ⟨uniform.create.settings, uniform.create.ofWidth.table_eq, fun _ => there⟩
  have holding : r.Holding table settings.spanDays first p :=
    made.run name managed' fun s asked => same s (List.mem_append_right _ asked)
  -- other settings since then have ranges of the same days, so the range of `t` has not moved
  have present : r.settings.rangeDay r.now ≤ first := by
    refine (r.settings.rangeDay_mono later).trans (le_trans ?_ ahead)
    rw [PartitionSettings.rangeDay_congr (holding.settings.trans uniform.settings.symm)]
  have stays := runFor_stays busy (holding.table_eq.symm ▸ name) present (holding.kept present) calls
  have apart := runFor_apart busy (apart_run (apart_next (apart_run (.empty table) before)) after) calls
  rw [holding.table_eq] at stays apart
  exact ⟨p, stays, holds, fun q member holds' => apart.eq_of_contains member stays holds' holds⟩

def pairs : PartitionSettings := { enabled := true, precreateCount := 2, retentionCount := 1 }

def created : UpkeepRun :=
  [.createUpcoming, .setClock (.ofSecond (12 * 86400))].foldl next (fresh "outbox" tenthDay pairs)

def failing : List UpkeepStep :=
  [.inject ⟨"drop", "outbox_p19700112", .other "busy"⟩, .setClock (.ofSecond (13 * 86400 + 60))]

/-- The old partition has been detached, and the failure comes next. -/
theorem insertion_covered_retiring :
    let r := failing.foldl next (created.next .createUpcoming)
    let t : Instant := .ofSecond (13 * 86400 + 61)
    let store := ((Upkeep.retire r.settings "outbox" r.now).runFor "outbox" Store.perform 1 r.store).2
    pairs.fault? = none ∧ created.settings.Fits created.now ∧
      (created.step .createUpcoming).1 = .upkeep (.ok 2) ∧ store.catalogue.detached.size = 1 ∧
      ∃ p ∈ store.catalogue.attached.toList, p.Contains (.mint t 7) ∧
        ∀ q ∈ store.catalogue.attached.toList, q.Contains (.mint t 7) → q = p := by
  intro r t store
  have managed : Along next Managed (fresh "outbox" tenthDay pairs)
      [.createUpcoming, .setClock (.ofSecond (12 * 86400))] := by decide +kernel
  have managed' : Along next Managed (created.next .createUpcoming) failing := by decide +kernel
  have fits : created.settings.Fits created.now := by decide +kernel
  have succeeded : (created.step .createUpcoming).1 = .upkeep (.ok 2) := by rfl
  refine ⟨by decide, fits, succeeded, by decide +kernel, ?_⟩
  have same : ∀ s, .settings s ∈ [.createUpcoming, .setClock (.ofSecond (12 * 86400))] ++ failing →
      s.spanDays = pairs.spanDays := by simp [failing]
  have later : r.now ≤ t := by decide +kernel
  have table_eq : r.store.catalogue.table = "outbox" := by decide +kernel
  have busy : r.AtWork (.retire r.settings "outbox" r.now) := .inr (by rw [table_eq])
  have reached : created.settings.rangeIndex t ≤
      created.settings.rangeIndex created.now + created.settings.precreateCount.toNat - 1 := by decide +kernel
  exact insertion_covered managed managed' same fits 2 succeeded t 7 (by decide) later reached _ busy 1

end Rehearsal.UpkeepRun

end Outbox
