import Outbox.Text.Decimal
import Mathlib.Data.List.Basic

/-!
Decimal numerals: their characters, and that a reader of numbers takes a numeral whole and stops
behind it.
-/

namespace Outbox.Decimal

variable {cs ds rest : List Char} {c : Char} {n width : Nat}

/-- No digit stands at the start, so a run of digits ends in front of it. -/
def NoDigit (rest : List Char) : Prop := ∀ c ∈ rest.head?, c.isDigit = false

theorem noDigit_nil : NoDigit [] := by simp [NoDigit]

theorem noDigit_cons (h : c.isDigit = false) : NoDigit (c :: rest) := by simpa [NoDigit] using h

theorem NoDigit.take {k : Nat} (stop : NoDigit rest) : NoDigit (rest.take k) := by
  cases rest with
  | nil => simpa using noDigit_nil
  | cons c rest =>
    cases k with
    | zero => exact noDigit_nil
    | succ k => exact noDigit_cons (stop c rfl)

theorem takeWhile_isDigit (digit : ∀ c ∈ ds, c.isDigit) (stop : NoDigit rest) :
    (ds ++ rest).takeWhile Char.isDigit = ds := by
  rw [List.takeWhile_append_of_pos digit]
  cases rest with
  | nil => simp
  | cons c rest => simp [stop c rfl]

theorem dropWhile_isDigit (digit : ∀ c ∈ ds, c.isDigit) (stop : NoDigit rest) :
    (ds ++ rest).dropWhile Char.isDigit = rest := by
  rw [List.dropWhile_append_of_pos digit]
  cases rest with
  | nil => simp
  | cons c rest => simp [stop c rfl]

/-! ### The digits of a number -/

theorem isDigit_of_mem_digits (h : c ∈ digits n) : c.isDigit :=
  Nat.isDigit_of_mem_toDigits (by decide) (by decide) h

theorem digits_ne_nil : digits n ≠ [] := Nat.toDigits_ne_nil

/-- Only zero is written with a zero in front. -/
theorem head?_digits (positive : 0 < n) : (digits n).head? ≠ some '0' := by
  induction n using Nat.strongRecOn with
  | ind n ih =>
    by_cases small : n < 10
    · rw [digits, Nat.toDigits_of_lt_base small]
      simpa using Nat.ne_of_gt positive
    · have shorter := ih (n / 10) (by omega) (by omega)
      rw [digits, Nat.toDigits_of_base_le (by decide) (by omega),
        List.head?_append_of_ne_nil _ Nat.toDigits_ne_nil]
      exact shorter

theorem isDigit_of_mem_padded (h : c ∈ padded width n) : c.isDigit := by
  rw [padded, List.leftpad, List.mem_append] at h
  rcases h with zero | digit
  · rw [List.eq_of_mem_replicate zero]
    rfl
  · exact isDigit_of_mem_digits digit

theorem length_padded (positive : 0 < width) (short : n < Nat.pow 10 width) :
    (padded width n).length = width := by
  rw [padded, List.length_leftpad, digits]
  exact Nat.max_eq_left ((Nat.length_toDigits_le_iff (by decide) positive).mpr short)

theorem padded_ne_nil : padded width n ≠ [] := by
  rw [padded, List.leftpad]
  exact List.append_ne_nil_of_right_ne_nil _ digits_ne_nil

theorem padded_inj {a b : Nat} (same : padded width a = padded width b) : a = b := by
  rw [← value_padded width a, same, value_padded]

/-! ### Runs of digits -/

theorem run_append {most : Nat} (digit : ∀ c ∈ ds, c.isDigit) (fits : ds.length ≤ most)
    (stop : ds.length = most ∨ NoDigit rest) : run most (ds ++ rest) = (ds, rest) := by
  have stopped : NoDigit (rest.take (most - ds.length)) := by
    rcases stop with full | stop
    · rw [full, Nat.sub_self]
      exact noDigit_nil
    · exact stop.take
  rw [run, List.take_append, List.take_of_length_le fits, takeWhile_isDigit digit stopped, List.drop_left]

theorem read?_append {most : Nat} (digit : ∀ c ∈ ds, c.isDigit) (some_digit : ds ≠ [])
    (fits : ds.length ≤ most) (stop : ds.length = most ∨ NoDigit rest) :
    read? most (ds ++ rest) = some (value ds, rest) := by
  rw [read?, run_append digit fits stop]
  cases ds with
  | nil => exact absurd rfl some_digit
  | cons d ds => rfl

/-- A padded numeral that has exactly its width is read from in front of anything. -/
theorem read?_padded (positive : 0 < width) (short : n < Nat.pow 10 width) :
    read? width (padded width n ++ rest) = some (n, rest) := by
  have length := length_padded positive short
  rw [read?_append (fun _ => isDigit_of_mem_padded) padded_ne_nil (Nat.le_of_eq length) (.inl length),
    value_padded]

end Outbox.Decimal
