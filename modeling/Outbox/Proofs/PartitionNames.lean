import Outbox.Partition.Range
import Outbox.Proofs.Numerals

/-!
Names of partitions. The date on which its range starts can be read back from the name of a partition,
so ranges of one table that start on different days have different names (`dayName_inj`).
-/

namespace Outbox

namespace Date

theorem ofDayNumber_inj {a b : Int} (same : ofDayNumber a = ofDayNumber b) : a = b := by
  rw [← dayNumber_ofDayNumber a, same, dayNumber_ofDayNumber]

theorem ofDayNumber_lt (n : Int) : (ofDayNumber n).month < 100 ∧ (ofDayNumber n).day < 100 := by
  obtain ⟨-, low, high⟩ := yearOf_spec (n + 719468)
  unfold ofDayNumber
  generalize yearOf (n + 719468) = split at *
  obtain ⟨y, d⟩ := split
  by_cases spring : (5 * d + 2) / 153 < 10
  · simp only [monthOf, spring, if_true]
    omega
  · simp only [monthOf, spring, if_false]
    omega

end Date

namespace Instant

open Decimal

theorem yearText_inj {a b : Int} (same : yearText a = yearText b) : a = b := by
  have sign {c : Char} {rest : List Char} {n : Nat} (h : padded 4 n = c :: rest) : c.isDigit :=
    isDigit_of_mem_padded (h ▸ List.mem_cons_self)
  unfold yearText at same
  by_cases ha : 0 ≤ a ∧ a ≤ 9999 <;> by_cases hb : 0 ≤ b ∧ b ≤ 9999
  · rw [if_pos ha, if_pos hb] at same
    have := padded_inj same
    omega
  · rw [if_pos ha, if_neg hb] at same
    have digit := sign same
    split at digit <;> cases digit
  · rw [if_neg ha, if_pos hb] at same
    have digit := sign same.symm
    split at digit <;> cases digit
  · rw [if_neg ha, if_neg hb] at same
    obtain ⟨signs, sizes⟩ := List.cons.inj same
    have := padded_inj sizes
    split at signs <;> split at signs <;> first | omega | cases signs

end Instant

/-- The name of a partition whose range starts on `day`. -/
def dayName (table : String) (day : Int) : String :=
  let d := Date.ofDayNumber day
  table ++ "_p" ++ .ofList (Instant.yearText d.year ++ Decimal.padded 2 d.month ++ Decimal.padded 2 d.day)

theorem partitionName_eq (table : String) (start : Instant) :
    partitionName table start = dayName table (start.second / 86400) := rfl

theorem dayName_inj {table : String} {a b : Int} : dayName table a = dayName table b ↔ a = b := by
  refine ⟨fun same => ?_, congrArg _⟩
  have same := String.ofList_injective (String.append_right_inj _ |>.mp same)
  have two {n : Nat} (h : n < 100) : (Decimal.padded 2 n).length = 2 :=
    Decimal.length_padded (by decide) h
  obtain ⟨month, day⟩ := Date.ofDayNumber_lt a
  obtain ⟨month', day'⟩ := Date.ofDayNumber_lt b
  -- month and day have two digits each, so they are cut off the end
  obtain ⟨same, days⟩ := List.append_inj' same ((two day).trans (two day').symm)
  obtain ⟨years, months⟩ := List.append_inj' same ((two month).trans (two month').symm)
  refine Date.ofDayNumber_inj ?_
  generalize Date.ofDayNumber a = d, Date.ofDayNumber b = e at *
  cases d
  cases e
  cases Instant.yearText_inj years
  cases Decimal.padded_inj months
  cases Decimal.padded_inj days
  rfl

end Outbox
