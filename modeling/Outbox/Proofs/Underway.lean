import Mathlib.Data.Finset.Card
import Mathlib.Data.Finset.Dedup
import Outbox.Proofs.Catalogue
import Outbox.Proofs.UpkeepRuns

/-!
Where a catalogue can be while ranges are created that are wanted and partitions are taken away that have
expired. Each name has a `Fate` of its own, whatever the calls were and in whichever order they came
(`Underway.move`), so once all is done there is but one catalogue left (`Underway.eq_of_settled`). What
has gone by then is counted by the drops that succeeded (`Underway.lost_move`).
-/

namespace Outbox

namespace Catalogue

variable {start c c' : Catalogue} {wanted : List PartitionRange} {expired : List String} {call : StoreCall}
  {answer : Except PartitionError Unit} {name : String} {r : PartitionRange}

/-- What can have become of a name since the start. -/
inductive Fate (start : Catalogue) (wanted : List PartitionRange) (expired : List String) (c : Catalogue)
    (name : String) : Prop where
  | kept (attached : c.attached.find? name = start.attached.find? name)
      (detached : c.detached.find? name = start.detached.find? name)
  | leaving (expires : name ∈ expired) (before : start.Taken name) (gone : c.attached.find? name = none)
  | created {r : PartitionRange} (given : r ∈ wanted) (named : r.name = name) (free : ¬ start.Taken name)
      (attached : c.attached.find? name = some r) (detached : c.detached.find? name = none)

namespace Fate

theorem congr (h : Fate start wanted expired c name)
    (attached : c'.attached.find? name = c.attached.find? name)
    (detached : c'.detached.find? name = c.detached.find? name) : Fate start wanted expired c' name := by
  cases h with
  | kept attached' detached' => exact .kept (attached.trans attached') (detached.trans detached')
  | leaving expires before gone => exact .leaving expires before (attached.trans gone)
  | created given named free attached' detached' =>
    exact .created given named free (attached.trans attached') (detached.trans detached')

/-- Nothing is created under a name that has expired. -/
theorem before (h : Fate start wanted expired c name) (apart : ∀ r ∈ wanted, r.name ∉ expired)
    (expires : name ∈ expired) (taken : c.Taken name) : start.Taken name := by
  cases h with
  | kept attached detached => exact (taken_congr attached detached).mp taken
  | leaving _ before => exact before
  | created given named => exact absurd (named ▸ expires) (apart _ given)

/-- Nothing is taken away under the name of a range that is wanted. -/
theorem free (h : Fate start wanted expired c name) (lasts : name ∉ expired) (free : ¬ c.Taken name) :
    ¬ start.Taken name := by
  cases h with
  | kept attached detached => exact fun before => free ((taken_congr attached detached).mpr before)
  | leaving expires => exact absurd expires lasts
  | created _ _ before => exact before

end Fate

/-! ### A catalogue on its way -/

structure Underway (start : Catalogue) (wanted : List PartitionRange) (expired : List String)
    (c : Catalogue) : Prop where
  table_eq : c.table = start.table
  partitioned_eq : c.partitioned = start.partitioned
  fate : ∀ name, Fate start wanted expired c name

theorem Move.partitioned_eq (h : Move c call answer c') : c'.partitioned = c.partitioned := by
  cases h <;> rfl

namespace Underway

theorem refl (start : Catalogue) (wanted : List PartitionRange) (expired : List String) :
    Underway start wanted expired start := ⟨rfl, rfl, fun _ => .kept rfl rfl⟩

/-- Each call on the way, whether it succeeds or not, leaves the catalogue on its way. -/
theorem move (h : Underway start wanted expired c) (apart : ∀ r ∈ wanted, r.name ∉ expired)
    (within : call.Within wanted expired) (moves : Move c call answer c') :
    Underway start wanted expired c' where
  table_eq := moves.table_eq.trans h.table_eq
  partitioned_eq := moves.partitioned_eq.trans h.partitioned_eq
  fate name := by
    by_cases other : call.partition = name
    · subst other
      have fate := h.fate call.partition
      cases moves with
      | failed | kept => exact fate
      | @created r free =>
        have empty : c.detached.find? r.name = none := by
          by_contra taken
          exact free (taken_iff.mpr (.inr taken))
        exact .created within rfl (fate.free (apart r within) free) (Keyed.find?_insert_self _ _) empty
      | @detached r found =>
        refine .leaving within (fate.before apart within (.inl (Option.isSome_of_eq_some found))) ?_
        exact (Keyed.find?_erase ..).trans (if_pos Std.ReflOrd.compare_self)
      | @dropped name taken =>
        refine .leaving within (fate.before apart within taken) ?_
        exact (Keyed.find?_erase ..).trans (if_pos Std.ReflOrd.compare_self)
    · obtain ⟨attached, detached⟩ := moves.elsewhere other
      exact (h.fate name).congr attached detached

theorem attached (h : Underway start wanted expired c) (member : r ∈ c.attached.toList) :
    r ∈ start.attached.toList ∨ r ∈ wanted ∧ ¬ start.Taken r.name := by
  have found := Keyed.find?_of_mem member
  cases h.fate r.name with
  | kept attached => exact .inl (Keyed.mem_of_find? (attached ▸ found))
  | leaving _ _ gone => cases found.symm.trans gone
  | created given named free attached =>
    cases found.symm.trans attached
    exact .inr ⟨given, free⟩

theorem stays (h : Underway start wanted expired c) (member : r ∈ start.attached.toList)
    (lasts : r.name ∉ expired) : r ∈ c.attached.toList := by
  have found := Keyed.find?_of_mem member
  cases h.fate r.name with
  | kept attached => exact Keyed.mem_of_find? (attached.trans found)
  | leaving expires => exact absurd expires lasts
  | created _ _ free => exact absurd (.inl (Option.isSome_of_eq_some found)) free

end Underway

/-! ### The end of the way -/

/-- All that is wanted has been created, and all that has expired is gone. -/
structure Settled (wanted : List PartitionRange) (expired : List String) (c : Catalogue) : Prop where
  created : ∀ r ∈ wanted, c.Taken r.name
  gone : ∀ name ∈ expired, ¬ c.Taken name

theorem find?_of_not_taken (free : ¬ c.Taken name) :
    c.attached.find? name = none ∧ c.detached.find? name = none := by
  simpa only [taken_iff, not_or, not_not] using free

/-- Where a name ends is decided by the start. -/
theorem Fate.eq_of_settled (h : Fate start wanted expired c name) (h' : Fate start wanted expired c' name)
    (unique : (wanted.map (·.name)).Nodup) (settled : c.Settled wanted expired)
    (settled' : c'.Settled wanted expired) :
    c.attached.find? name = c'.attached.find? name ∧ c.detached.find? name = c'.detached.find? name := by
  by_cases expires : name ∈ expired
  · obtain ⟨attached, detached⟩ := find?_of_not_taken (settled.gone name expires)
    obtain ⟨attached', detached'⟩ := find?_of_not_taken (settled'.gone name expires)
    exact ⟨attached.trans attached'.symm, detached.trans detached'.symm⟩
  · -- it cannot be left as it was on one way and created on the other: it would be free, but nothing
    -- that is wanted is free at the end
    cases h with
    | leaving expires' => exact absurd expires' expires
    | kept attached detached =>
      cases h' with
      | leaving expires' => exact absurd expires' expires
      | kept attached' detached' => exact ⟨attached.trans attached'.symm, detached.trans detached'.symm⟩
      | created given named free =>
        exact absurd ((taken_congr attached detached).mp (named ▸ settled.created _ given)) free
    | @created r given named free attached detached =>
      cases h' with
      | leaving expires' => exact absurd expires' expires
      | kept attached' detached' =>
        exact absurd ((taken_congr attached' detached').mp (named ▸ settled'.created _ given)) free
      | @created r' given' named' _ attached' detached' =>
        obtain rfl : r = r' := List.inj_on_of_nodup_map unique given given' (named.trans named'.symm)
        exact ⟨attached.trans attached'.symm, detached.trans detached'.symm⟩

theorem Underway.eq_of_settled (h : Underway start wanted expired c) (h' : Underway start wanted expired c')
    (unique : (wanted.map (·.name)).Nodup) (settled : c.Settled wanted expired)
    (settled' : c'.Settled wanted expired) : c = c' := by
  have same (name : String) := (h.fate name).eq_of_settled (h'.fate name) unique settled settled'
  have attached : c.attached = c'.attached := Keyed.ext_find? fun name => (same name).1
  have detached : c.detached = c'.detached := Keyed.ext_find? fun name => (same name).2
  have table := h.table_eq.trans h'.table_eq.symm
  have partitioned := h.partitioned_eq.trans h'.partitioned_eq.symm
  cases c
  cases c'
  congr

theorem Move.taken_stays (h : Move c call answer c') (apart : ∀ r ∈ wanted, r.name ∉ expired)
    (within : call.Within wanted expired) (given : r ∈ wanted) (taken : c.Taken r.name) :
    c'.Taken r.name := by
  by_cases other : call.partition = r.name
  · cases call with
    | create x => exact h.create_taken taken
    | detach name | drop name => exact absurd (other ▸ within) (apart r given)
  · exact (h.taken_elsewhere other).mpr taken

theorem Move.gone_stays (h : Move c call answer c') (apart : ∀ r ∈ wanted, r.name ∉ expired)
    (within : call.Within wanted expired) (expires : name ∈ expired) (gone : ¬ c.Taken name) :
    ¬ c'.Taken name := by
  by_cases other : call.partition = name
  · subst other
    cases answer with
    | error e => exact h.eq_of_error ▸ gone
    | ok =>
      cases call with
      | create x => exact absurd expires (apart x within)
      | detach name => exact absurd (h.takes (.inl rfl)).1 gone
      | drop name => exact absurd (h.takes (.inr rfl)).1 gone
  · exact mt (h.taken_elsewhere other).mp gone

/-! ### What has gone -/

def names (c : Catalogue) : Finset String := (c.attached.toList.map (·.name) ++ c.detached.toList).toFinset

theorem mem_names : name ∈ c.names ↔ c.Taken name := by
  simp only [names, List.mem_toFinset, List.mem_append, List.mem_map, Taken, Keyed.contains_iff, id_eq,
    exists_eq_right]

/-- How many partitions of the start are gone, attached or detached. -/
def lost (start c : Catalogue) : Nat := (start.names \ c.names).card

theorem lost_self (c : Catalogue) : c.lost c = 0 := by
  rw [lost, Finset.sdiff_self, Finset.card_empty]

theorem lost_congr (same : ∀ name, start.Taken name → (c'.Taken name ↔ c.Taken name)) :
    start.lost c' = start.lost c := by
  refine congrArg Finset.card (Finset.ext fun name => ?_)
  rw [Finset.mem_sdiff, Finset.mem_sdiff, mem_names, mem_names, mem_names]
  exact and_congr_right fun before => not_congr (same name before)

end Catalogue

/-- A drop that succeeded has taken one partition away, and nothing else has. -/
def StoreCall.drops : StoreCall → Except PartitionError Unit → Nat
  | .drop _, .ok _ => 1
  | _, _ => 0

namespace Catalogue

variable {start c c' : Catalogue} {wanted : List PartitionRange} {expired : List String} {call : StoreCall}
  {answer : Except PartitionError Unit} {name : String} {r : PartitionRange}

theorem Underway.lost_move (h : Underway start wanted expired c) (apart : ∀ r ∈ wanted, r.name ∉ expired)
    (within : call.Within wanted expired) (moves : Move c call answer c') :
    start.lost c' = start.lost c + call.drops answer := by
  have elsewhere : ∀ name, call.partition ≠ name → (c'.Taken name ↔ c.Taken name) :=
    fun _ => moves.taken_elsewhere
  cases moves with
  | failed => cases call <;> rfl
  | kept => rfl
  | @created r free =>
    refine lost_congr fun name before => elsewhere name ?_
    rintro rfl
    exact (h.fate r.name).free (apart r within) free before
  | @detached r found =>
    refine lost_congr fun name before => ?_
    by_cases other : r.name = name
    · subst other
      have detached : (c.detached.insert r.name).find? r.name = some r.name := Keyed.find?_insert_self _ _
      refine iff_of_true (.inr (Option.isSome_of_eq_some detached)) (.inl (Option.isSome_of_eq_some found))
    · exact elsewhere name other
  | @dropped gone taken =>
    -- the one step that loses a name, which had not been lost before
    have before := (h.fate gone).before apart within taken
    have now : ¬ Taken { c with attached := c.attached.erase gone, detached := c.detached.erase gone } gone := by
      simp [taken_iff, Keyed.find?_erase]
    have one : start.names \ names { c with
        attached := c.attached.erase gone, detached := c.detached.erase gone } =
          insert gone (start.names \ c.names) := by
      ext name
      by_cases same : gone = name
      · subst same
        simp [mem_names, before, now]
      · simp [mem_names, elsewhere name same, Ne.symm same]
    have held : gone ∉ start.names \ c.names := by simp [mem_names, taken]
    exact (congrArg Finset.card one).trans (Finset.card_insert_of_notMem held)

end Catalogue

end Outbox
