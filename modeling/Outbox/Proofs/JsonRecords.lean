import Outbox.Json.Record
import Outbox.Proofs.JsonText
import Mathlib.Data.List.Nodup

/-!
Readers of typed values undo their writers, and a record of named fields is read field by field.
-/

namespace Outbox

open Decimal

/-- A whole number of milliseconds, which is what can be written. -/
def Duration.InMillis (d : Duration) : Prop := ∃ ms, d = .ofMillis ms

namespace Json

/-! ### Values without parts -/

theorem all_isDigit_digits (n : Nat) : (digits n).all Char.isDigit := by
  rw [List.all_eq_true]
  exact fun _ => isDigit_of_mem_digits

@[simp] theorem int?_ofInt (n : Int) : (ofInt n).int? = some n := by
  cases n with
  | negSucc n =>
    have positive : value (digits (n + 1)) ≠ 0 := by rw [value_digits]; omega
    simp only [ofInt, signed, int?, all_isDigit_digits, value_digits] at positive ⊢
    simp
    omega
  | ofNat n =>
    have value := value_digits n
    have all := all_isDigit_digits n
    rw [ofInt, show signed (.ofNat n) = digits n from rfl]
    cases shape : digits n with
    | nil => exact absurd shape digits_ne_nil
    | cons d ds =>
      have unsigned : d ≠ '-' := by
        rintro rfl
        cases (isDigit_of_mem_digits (shape ▸ List.mem_cons_self) : ('-' : Char).isDigit)
      rw [shape] at value all
      simp [int?, unsigned, all, value]

@[simp] theorem nat?_ofNat (n : Nat) : (ofNat n).nat? = some n := by
  have int : (ofNat n).int? = some (.ofNat n) := int?_ofInt n
  rw [nat?, int]

@[simp] theorem uint64?_ofNat (n : UInt64) : (ofNat n.toNat).uint64? = some n := by
  rw [uint64?, nat?_ofNat]
  simp [n.toNat_lt]

@[simp] theorem uint32?_ofNat (n : UInt32) : (ofNat n.toNat).uint32? = some n := by
  rw [uint32?, nat?_ofNat]
  simp [n.toNat_lt]

@[simp] theorem int32?_ofInt (n : Int32) : (ofInt n.toInt).int32? = some n := by
  rw [int32?, int?_ofInt]
  dsimp only
  rw [if_pos ⟨n.minValue_le_toInt, n.toInt_le⟩, Int32.ofInt_toInt]

@[simp] theorem bool?_bool (b : Bool) : (Json.bool b).bool? = some b := rfl

@[simp] theorem string?_ofString (s : String) : (ofString s).string? = some s := rfl

theorem duration?_inMillis {j : Json} {d : Duration} (read : j.duration? = some d) : d.InMillis := by
  obtain ⟨ms, -, rfl⟩ := Option.map_eq_some_iff.mp read
  exact ⟨ms, rfl⟩

theorem named?_ofString {α : Type} {all : List α} {name : α → String} {a : α} (listed : a ∈ all)
    (distinct : (all.map name).Nodup) : named? all name (ofString (name a)) = some a := by
  rw [ofString, named?, List.find?_eq_some_iff_append]
  obtain ⟨before, after, rfl⟩ := List.append_of_mem listed
  refine ⟨by simp, before, after, rfl, fun b member => ?_⟩
  rw [List.map_append, List.map_cons, List.nodup_append] at distinct
  simpa using distinct.2.2 _ (List.mem_map_of_mem member) _ List.mem_cons_self

theorem option?_ofOption {α : Type} {write : α → Json} {read? : Json → Option α}
    (back : ∀ a, read? (write a) = some a) (present : ∀ a, write a ≠ .null) (a : Option α) :
    option? read? (ofOption write a) = some a := by
  cases a with
  | none => rfl
  | some a =>
    have j : option? read? (write a) = (read? (write a)).map some := by
      unfold option?
      split
      · next null => exact absurd null (present a)
      · rfl
    rw [ofOption, j, back]
    rfl

/-! ### Fields -/

theorem lookup_eq_some_iff_mem {l : List (String × Json)} (unique : (l.map (·.1)).Nodup) {k : String}
    {v : Json} : l.lookup k = some v ↔ (k, v) ∈ l := by
  induction l with
  | nil => simp
  | cons e l ih =>
    obtain ⟨k', w⟩ := e
    obtain ⟨fresh, unique⟩ := List.nodup_cons.mp unique
    by_cases same : k = k'
    · subst same
      have absent : (k, v) ∉ l := fun member => fresh (List.mem_map.mpr ⟨_, member, rfl⟩)
      simp [absent, eq_comm]
    · have other : (k == k') = false := by simpa using same
      simp [List.lookup_cons, other, same, ih unique]

def known (names : List String) (ms : List (Option String × Json)) : List (String × Json) :=
  ms.filterMap fun (key, v) => key.bind fun k => if k ∈ names then some (k, v) else none

theorem mem_known {names : List String} {ms : List (Option String × Json)} {k : String} {v : Json} :
    (k, v) ∈ known names ms ↔ k ∈ names ∧ (some k, v) ∈ ms := by
  unfold known
  rw [List.mem_filterMap]
  constructor
  · rintro ⟨⟨key, w⟩, member, read⟩
    dsimp only at read
    obtain ⟨k', rfl, read⟩ := Option.bind_eq_some_iff.mp read
    obtain ⟨named, same⟩ := Option.ite_none_right_eq_some.mp read
    cases same
    exact ⟨named, member⟩
  · rintro ⟨named, member⟩
    exact ⟨_, member, by simp [named]⟩

theorem fields?_object_eq_some {names : List String} {ms : List (Option String × Json)} {f : Fields} :
    (Json.object ms).fields? names = some f ↔
      (∀ m ∈ ms, m.1.isSome) ∧ ((known names ms).map (·.1)).Nodup ∧ f = ⟨false, known names ms⟩ := by
  change (if ms.all (·.1.isSome) then
    if ((known names ms).map (·.1)).Nodup then some (Fields.mk false (known names ms)) else none
    else none) = some f ↔ _
  rw [Option.ite_none_right_eq_some, Option.ite_none_right_eq_some, List.all_eq_true, Option.some.injEq,
    eq_comm]

theorem find?_object {names : List String} {ms : List (Option String × Json)} {f : Fields}
    (fields : (Json.object ms).fields? names = some f) {k : String} {v : Json} :
    f.find? k = some v ↔ k ∈ names ∧ (some k, v) ∈ ms := by
  obtain ⟨-, unique, rfl⟩ := fields?_object_eq_some.mp fields
  rw [Fields.find?, lookup_eq_some_iff_mem unique, mem_known]

theorem fields?_array_eq_some {names : List String} {vs : List Json} {f : Fields} :
    (Json.array vs).fields? names = some f ↔ vs.length ≤ names.length ∧ f = ⟨true, names.zip vs⟩ := by
  rw [fields?, Option.ite_none_right_eq_some, Option.some.injEq, eq_comm]

theorem keys_zip_sublist (names : List String) (vs : List Json) :
    ((names.zip vs).map (·.1)).Sublist names := by
  induction names generalizing vs with
  | nil => simp
  | cons name names ih =>
    cases vs with
    | nil => simp
    | cons v vs => simpa using ih vs

theorem find?_array {names : List String} (distinct : names.Nodup) {vs : List Json} {f : Fields}
    (fields : (Json.array vs).fields? names = some f) {k : String} {v : Json} :
    f.find? k = some v ↔ ∃ i : Nat, names[i]? = some k ∧ vs[i]? = some v := by
  obtain ⟨fits, rfl⟩ := fields?_array_eq_some.mp fields
  have unique : ((names.zip vs).map (·.1)).Nodup := (keys_zip_sublist names vs).nodup distinct
  rw [Fields.find?, lookup_eq_some_iff_mem unique, List.mem_iff_getElem?]
  simp [List.getElem?_zip_eq_some]

/-- The fields of a record that was written are the ones that were given. -/
theorem fields?_record {names : List String} (distinct : names.Nodup) {given : List (String × Json)}
    (keys : given.map (·.1) = names) : (record given).fields? names = some ⟨false, given⟩ := by
  have all_known : known names (given.map fun e => (some e.1, e.2)) = given := by
    have read : ∀ e ∈ given, (if e.1 ∈ names then some (e.1, e.2) else none) = some e := by
      intro e member
      have named : e.1 ∈ names := keys ▸ List.mem_map_of_mem member
      rw [if_pos named]
    unfold known
    rw [List.filterMap_map]
    exact (List.filterMap_congr read).trans List.filterMap_some
  change (Json.object (given.map fun e => (some e.1, e.2))).fields? names = _
  rw [fields?_object_eq_some, all_known, keys]
  refine ⟨?_, distinct, rfl⟩
  rintro _ member
  obtain ⟨_, -, rfl⟩ := List.mem_map.mp member
  rfl

/-! ### Written values -/

theorem Written.nat (n : Nat) : Written (ofNat n) := .int n

theorem Written.option {α : Type} {write : α → Json} (written : ∀ a, Written (write a)) (a : Option α) :
    Written (ofOption write a) := by
  cases a with
  | none => exact .null
  | some a => exact written a

theorem Written.record {given : List (String × Json)} (values : ∀ e ∈ given, Written e.2) :
    Written (record given) := by
  have shape : ∀ m ∈ given.map fun e => (some e.1, e.2), ∃ e ∈ given, m = (some e.1, e.2) := by
    intro m member
    obtain ⟨e, source, rfl⟩ := List.mem_map.mp member
    exact ⟨e, source, rfl⟩
  refine .object (fun m member => ?_) fun m member => ?_
  · obtain ⟨e, -, rfl⟩ := shape m member
    rfl
  · obtain ⟨e, source, rfl⟩ := shape m member
    exact values e source

end Json

end Outbox
