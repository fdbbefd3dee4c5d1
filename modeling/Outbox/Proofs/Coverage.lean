import Outbox.Proofs.Catalogue
import Outbox.Proofs.Runs
import Outbox.Proofs.UpkeepRuns

/-!
What a creation of partitions ensures. No id is ever held by two attached partitions. A creation that
succeeds leaves each range of its window attached, unless something else has its name
(`clear_attached`), and as long as the number of days in a range stays the same nothing else has
(`OfWidth.clear`). So every id of the window is in one attached partition (`window_covered`). Once the
number of days changes a range may find its name taken by one that is shorter (`window_uncovered`).
-/

namespace Outbox

open Rehearsal (Store UpkeepAnswer UpkeepRun UpkeepStep)

namespace Catalogue

variable {c c' : Catalogue} {call : StoreCall} {answer : Except PartitionError Unit} {table : String}
  {r : PartitionRange} {span : Nat} {edge edge' first : Int}

/-- Attached are ranges of `span` days, and what is detached started before `edge`. -/
structure OfWidth (table : String) (span : Nat) (edge : Int) (c : Catalogue) : Prop where
  table_eq : c.table = table
  attached : ∀ r ∈ c.attached.toList, ∃ first, r.OfDays table first (first + span)
  detached : ∀ name ∈ c.detached.toList, ∃ first, name = dayName table first ∧ first < edge

namespace OfWidth

theorem mono (h : c.OfWidth table span edge) (later : edge ≤ edge') : c.OfWidth table span edge' where
  table_eq := h.table_eq
  attached := h.attached
  detached name member := by
    obtain ⟨first, same, early⟩ := h.detached name member
    exact ⟨first, same, by omega⟩

theorem clear (h : c.OfWidth table span edge) (days : r.OfDays table first (first + span))
    (ahead : edge ≤ first) : c.Clear r := by
  rintro (attached | detached)
  · obtain ⟨x, member, name⟩ := Keyed.contains_iff.mp attached
    obtain ⟨day, days'⟩ := h.attached x member
    exact days'.eq_of_name days name ▸ member
  · -- nothing that starts on `first` was ever detached
    obtain ⟨name, member, rfl⟩ := Keyed.contains_iff.mp detached
    obtain ⟨day, same, early⟩ := h.detached r.name member
    have := dayName_inj.mp (days.name.symm.trans same)
    omega

theorem create (h : c.OfWidth table span edge) (moves : Move c (.create r) answer c')
    (days : r.OfDays table first (first + span)) : c'.OfWidth table span edge where
  table_eq := moves.table_eq.trans h.table_eq
  attached x member := by
    rcases moves.attached member with old | ⟨new, -⟩
    · exact h.attached x old
    · cases new
      exact ⟨first, days⟩
  detached := moves.create.2.1 ▸ h.detached

theorem retire (h : c.OfWidth table span edge) (moves : Move c call answer c')
    (asked : call = .detach (dayName table first) ∨ call = .drop (dayName table first))
    (early : first < edge) : c'.OfWidth table span edge := by
  cases answer with
  | error e => exact moves.eq_of_error ▸ h
  | ok =>
    obtain ⟨-, attached, detached⟩ := moves.takes asked
    refine ⟨moves.table_eq.trans h.table_eq, fun x member => ?_, fun name member => ?_⟩
    · rw [attached, Keyed.mem_erase] at member
      exact h.attached x member.1
    · rcases detached name member with old | rfl
      · exact h.detached name old
      · exact ⟨first, rfl, early⟩

end OfWidth

end Catalogue

namespace Rehearsal.UpkeepRun

/-- What managers do over time: the clock does not go back, and no one else calls the store. -/
def Managed (r : UpkeepRun) : UpkeepStep → Prop
  | .setClock now => r.now ≤ now
  | .advance ms => r.now ≤ (r.now.shift? (ms * 1000000)).getD r.now
  | .createUpcoming | .retireOld | .settings _ | .inject _ => True
  | .call _ => False

instance (r : UpkeepRun) : (e : UpkeepStep) → Decidable (r.Managed e)
  | .setClock now => inferInstanceAs (Decidable (r.now ≤ now))
  | .advance _ => inferInstanceAs (Decidable (r.now ≤ _))
  | .createUpcoming | .retireOld | .settings _ | .inject _ => .isTrue trivial
  | .call _ => .isFalse id

def fresh (table : String) (now : Instant) (settings : PartitionSettings) : UpkeepRun :=
  { store := { catalogue := { table } }, now, settings }

abbrev next (r : UpkeepRun) (e : UpkeepStep) : UpkeepRun := (r.step e).2

variable {r : UpkeepRun} {e : UpkeepStep} {table : String} {span : Nat}

/-! ### Whatever the settings -/

theorem next_keeps {Inv : Catalogue → Prop}
    (keeps : ∀ c call answer c', Catalogue.Move c call answer c' → Inv c → Inv c')
    (h : Inv r.store.catalogue) (e : UpkeepStep) : Inv (r.next e).store.catalogue := by
  have called : ∀ (store : Store) (call : StoreCall), Inv store.catalogue →
      Inv (store.perform call).2.catalogue := fun store call =>
    keeps _ _ _ _ (Catalogue.store_moves store call)
  have ran (u : Upkeep) : Inv (r.upkeep u).2.store.catalogue :=
    Upkeep.run_invariant (P := fun _ store => Inv store.catalogue)
      (fun _ store call _ => called store call) h
  cases e with
  | createUpcoming | retireOld => exact ran _
  | call c => exact called r.store c h
  | settings | setClock | advance | inject => exact h

theorem apart_next (h : r.store.catalogue.Apart) : (r.next e).store.catalogue.Apart :=
  next_keeps (fun _ _ _ _ moves apart => apart.move moves) h e

theorem table_next (h : r.store.catalogue.table = table) : (r.next e).store.catalogue.table = table :=
  next_keeps (fun _ _ _ _ moves same => moves.table_eq.trans same) h e

/-- A creation that succeeds leaves each range attached that it computed, unless something else had its
name before. -/
theorem clear_attached {n : Nat} (succeeded : (r.step .createUpcoming).1 = .upkeep (.ok n)) :
    ∃ ranges, r.settings.ranges r.store.catalogue.table r.now = .ok ranges ∧ n = ranges.length ∧
      ∀ range ∈ ranges, r.store.catalogue.Clear range →
        range ∈ (r.next .createUpcoming).store.catalogue.attached.toList := by
  let table := r.store.catalogue.table
  let StillClear (store : Store) : Prop := ∀ x first, x.OfDays table first (first + r.settings.spanDays) →
    r.store.catalogue.Clear x → store.catalogue.Clear x
  let Made (x : PartitionRange) (store : Store) : Prop :=
    r.store.catalogue.Clear x → x ∈ store.catalogue.attached.toList
  have creates : ∀ ranges, r.settings.ranges table r.now = .ok ranges → ∀ x ∈ ranges, ∀ store : Store,
      StillClear store → StillClear (store.perform (.create x)).2 ∧
        ((store.perform (.create x)).1 = .ok () → Made x (store.perform (.create x)).2) ∧
        ∀ made ∈ ranges, Made made store → Made made (store.perform (.create x)).2 := by
    intro ranges computed x given store still
    have moves := Catalogue.store_moves store (.create x)
    obtain ⟨first, -, days⟩ := PartitionSettings.ranges_ofDays computed given
    refine ⟨fun y day days' clear => ?_, fun answer clear => ?_, fun made _ before clear => ?_⟩
    · exact (still y day days' clear).create moves (days'.eq_of_name days)
    · rw [answer] at moves
      exact (still x first days clear).attached moves
    · exact moves.create.1 made (before clear)
  have run := Upkeep.create_run StillClear Made creates fun _ _ _ clear => clear
  exact run.2 n (UpkeepAnswer.upkeep.inj succeeded)

/-! ### One number of days -/

structure Uniform (table : String) (span : Nat) (r : UpkeepRun) : Prop where
  settings : r.settings.spanDays = span
  ofWidth : r.store.catalogue.OfWidth table span (r.settings.rangeDay r.now)

namespace Uniform

theorem create (h : r.Uniform table span) : (r.next .createUpcoming).Uniform table span := by
  have creates : ∀ ranges, r.settings.ranges table r.now = .ok ranges → ∀ x ∈ ranges, ∀ store : Store,
      store.catalogue.OfWidth table span (r.settings.rangeDay r.now) →
        (store.perform (.create x)).2.catalogue.OfWidth table span (r.settings.rangeDay r.now) := by
    intro ranges computed x given store ofWidth
    obtain ⟨first, -, days⟩ := PartitionSettings.ranges_ofDays computed given
    rw [h.settings] at days
    exact ofWidth.create (Catalogue.store_moves store _) days
  have run := Upkeep.create_keeps
    (fun store : Store => store.catalogue.OfWidth table span (r.settings.rangeDay r.now)) creates h.ofWidth
  refine ⟨h.settings, ?_⟩
  simp only [next, step, upkeep, h.ofWidth.table_eq]
  exact run

theorem retire (h : r.Uniform table span) : (r.next .retireOld).Uniform table span := by
  have retires : ∀ ranges, r.settings.expiredRanges table r.now = .ok ranges → ∀ x ∈ ranges,
      ∀ store : Store, store.catalogue.OfWidth table span (r.settings.rangeDay r.now) →
        (store.perform (.detach x.name)).2.catalogue.OfWidth table span (r.settings.rangeDay r.now) ∧
          (store.perform (.drop x.name)).2.catalogue.OfWidth table span (r.settings.rangeDay r.now) := by
    intro ranges computed x given store ofWidth
    obtain ⟨-, day, name, early⟩ := PartitionSettings.expiredRanges_name computed given
    rw [name]
    exact ⟨ofWidth.retire (Catalogue.store_moves store _) (.inl rfl) early,
      ofWidth.retire (Catalogue.store_moves store _) (.inr rfl) early⟩
  have run := Upkeep.retire_run
    (fun store : Store => store.catalogue.OfWidth table span (r.settings.rangeDay r.now)) retires h.ofWidth
  refine ⟨h.settings, ?_⟩
  simp only [next, step, upkeep, h.ofWidth.table_eq]
  exact run

theorem next (h : r.Uniform table span) (managed : r.Managed e)
    (same : ∀ s, e = .settings s → s.spanDays = span) : (r.next e).Uniform table span := by
  have later {now : Instant} (forward : r.now ≤ now) :
      r.store.catalogue.OfWidth table span (r.settings.rangeDay now) :=
    h.ofWidth.mono (r.settings.rangeDay_mono forward)
  cases e with
  | createUpcoming => exact h.create
  | retireOld => exact h.retire
  | settings s =>
    have edge : s.rangeDay r.now = r.settings.rangeDay r.now := by
      simp only [PartitionSettings.rangeDay, same s rfl, h.settings]
    exact ⟨same s rfl, edge ▸ h.ofWidth⟩
  | setClock | advance => exact ⟨h.settings, later managed⟩
  | inject => exact ⟨h.settings, h.ofWidth⟩
  | call => exact managed.elim

theorem fresh (table : String) (now : Instant) (settings : PartitionSettings) :
    (fresh table now settings).Uniform table settings.spanDays :=
  ⟨rfl, rfl, fun _ member => absurd member List.not_mem_nil, fun _ member => absurd member List.not_mem_nil⟩

theorem run (h : r.Uniform table span) {steps : List UpkeepStep}
    (managed : Along UpkeepRun.next Managed r steps)
    (same : ∀ s, .settings s ∈ steps → s.spanDays = span) :
    (steps.foldl UpkeepRun.next r).Uniform table span := by
  have keeps : ∀ (s : UpkeepRun) (e : UpkeepStep), s.Uniform table span →
      s.Managed e ∧ (∀ s', e = .settings s' → s'.spanDays = span) → (s.next e).Uniform table span :=
    fun _ _ h given => h.next given.1 given.2
  have widths : Along UpkeepRun.next (fun _ e => ∀ s', e = .settings s' → s'.spanDays = span) r steps :=
    .of_forall fun e member _ s' asked => same s' (asked ▸ member)
  exact foldl_invariant keeps h (managed.and widths)

end Uniform

/-- No id is ever in two attached partitions. After a creation that succeeds every id of the ranges it
computed is in one, but for ranges whose names something else had; there are none if the number of days
never changed. -/
theorem window_covered {settings : PartitionSettings} {now : Instant} {steps : List UpkeepStep}
    (managed : Along next Managed (fresh table now settings) steps) :
    let r := steps.foldl next (fresh table now settings)
    (∀ p ∈ r.store.catalogue.attached.toList, ∀ q ∈ r.store.catalogue.attached.toList, ∀ id,
      p.Contains id → q.Contains id → p = q) ∧
    (r.settings.Fits r.now → ∀ n, (r.step .createUpcoming).1 = .upkeep (.ok n) →
      ∃ ranges, r.settings.ranges table r.now = .ok ranges ∧ n = ranges.length ∧
        ∀ range ∈ ranges,
          r.store.catalogue.Clear range ∨
            (∀ s, .settings s ∈ steps → s.spanDays = settings.spanDays) →
          ∀ id : ItemId, range.low.millis ≤ id.millis → id.millis < range.high.millis →
            ∃ p ∈ (r.next .createUpcoming).store.catalogue.attached.toList, p.Contains id ∧
              ∀ q ∈ (r.next .createUpcoming).store.catalogue.attached.toList, q.Contains id → q = p) := by
  intro r
  have keeps : ∀ (s : UpkeepRun) (e : UpkeepStep), s.store.catalogue.table = table ∧ s.store.catalogue.Apart →
      s.Managed e → (s.next e).store.catalogue.table = table ∧ (s.next e).store.catalogue.Apart :=
    fun _ _ ⟨same, apart⟩ _ => ⟨table_next same, apart_next apart⟩
  obtain ⟨table_eq, apart⟩ : r.store.catalogue.table = table ∧ r.store.catalogue.Apart :=
    foldl_invariant keeps ⟨rfl, .empty table⟩ managed
  refine ⟨fun p hp q hq id inP inQ => apart.eq_of_contains hp hq inP inQ, fun fits n succeeded => ?_⟩
  obtain ⟨ranges, computed, count, attached⟩ := clear_attached succeeded
  rw [table_eq] at computed
  refine ⟨ranges, computed, count, fun range given named id low high => ?_⟩
  have clear : r.store.catalogue.Clear range := by
    rcases named with clear | same
    · exact clear
    · -- of one number of days, only the range itself can have its name
      obtain ⟨first, ahead, days⟩ := PartitionSettings.ranges_ofDays computed given
      have uniform := (Uniform.fresh table now settings).run managed same
      rw [uniform.settings] at days
      exact uniform.ofWidth.clear days ahead
  obtain ⟨i, at_i⟩ := List.getElem?_of_mem given
  have holds := ((PartitionSettings.ranges_span fits computed).2 i range at_i).contains_of_millis low high
  have there := attached range given clear
  exact ⟨range, there, holds, fun q hq inQ => (apart_next apart).eq_of_contains hq there inQ holds⟩

def daily : PartitionSettings := { enabled := true, precreateCount := 1, retentionCount := 1 }

def tenthDay : Instant := ⟨10 * 86400, 0, by decide, by decide⟩

/-- More ranges ahead, but of one day still. -/
def fiveDays : List UpkeepStep :=
  [.createUpcoming, .setClock ⟨15 * 86400, 0, by decide, by decide⟩, .createUpcoming, .retireOld,
    .settings { daily with precreateCount := 3, retentionCount := 2 }]

def ahead : UpkeepRun := fiveDays.foldl next (fresh "outbox" tenthDay daily)

theorem window_covered_daily :
    Along next Managed (fresh "outbox" tenthDay daily) fiveDays ∧
      (∀ s, .settings s ∈ fiveDays → s.fault? = none ∧ s.spanDays = daily.spanDays) ∧
      ahead.settings.Fits ahead.now ∧ (ahead.step .createUpcoming).1 = .upkeep (.ok 3) ∧
      ∃ p ∈ (ahead.next .createUpcoming).store.catalogue.attached.toList,
        p.Contains (.ofParts (16 * 86400000) 7) ∧
        ∀ q ∈ (ahead.next .createUpcoming).store.catalogue.attached.toList,
          q.Contains (.ofParts (16 * 86400000) 7) → q = p := by
  have managed : Along next Managed (fresh "outbox" tenthDay daily) fiveDays := by decide
  have valid : ∀ s, .settings s ∈ fiveDays → s.fault? = none ∧ s.spanDays = daily.spanDays := by
    intro s member
    simp only [fiveDays, List.mem_cons, reduceCtorEq, false_or, List.not_mem_nil, or_false,
      UpkeepStep.settings.injEq] at member
    subst member
    decide
  have fits : ahead.settings.Fits ahead.now := by decide
  have succeeded : (ahead.step .createUpcoming).1 = .upkeep (.ok 3) := by rfl
  refine ⟨managed, valid, fits, succeeded, ?_⟩
  have computed : ahead.settings.ranges "outbox" ahead.now =
      .ok [⟨"outbox_p19700116", .ofParts (15 * 86400000) 0, .ofParts (16 * 86400000) 0⟩,
        ⟨"outbox_p19700117", .ofParts (16 * 86400000) 0, .ofParts (17 * 86400000) 0⟩,
        ⟨"outbox_p19700118", .ofParts (17 * 86400000) 0, .ofParts (18 * 86400000) 0⟩] := by rfl
  unfold ahead at fits succeeded computed ⊢
  obtain ⟨ranges, same, -, covered⟩ := (window_covered managed).2 fits 3 succeeded
  cases same.symm.trans computed
  exact covered _ (List.mem_cons_of_mem _ List.mem_cons_self) (.inr fun s member => (valid s member).2) _
    (by decide) (by decide)

def wide : PartitionSettings := { daily with daysPerPartition := 10 }

def widened : UpkeepRun := [.createUpcoming, .settings wide].foldl next (fresh "outbox" tenthDay daily)

/-- Ten days instead of one: the partition of the first of these days has the name of all ten, so the
others are in none. -/
theorem window_uncovered :
    daily.fault? = none ∧ wide.fault? = none ∧
      Along next Managed (fresh "outbox" tenthDay daily) [.createUpcoming, .settings wide] ∧
      widened.settings.Fits widened.now ∧ (widened.step .createUpcoming).1 = .upkeep (.ok 1) ∧
      ∃ range, widened.settings.ranges "outbox" widened.now = .ok [range] ∧
        ∃ id : ItemId, range.low.millis ≤ id.millis ∧ id.millis < range.high.millis ∧
          ∀ p ∈ (widened.next .createUpcoming).store.catalogue.attached.toList, ¬ p.Contains id := by
  refine ⟨by decide, by decide, by decide, by decide, by rfl,
    ⟨"outbox_p19700111", .ofParts (10 * 86400000) 0, .ofParts (20 * 86400000) 0⟩, by rfl,
    .ofParts (15 * 86400000) 7, by decide, by decide, ?_⟩
  decide +kernel

end Rehearsal.UpkeepRun

end Outbox
