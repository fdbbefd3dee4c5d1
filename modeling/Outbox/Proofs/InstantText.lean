import Outbox.Instant.Text
import Outbox.Proofs.Instants
import Outbox.Proofs.PartitionNames

/-!
Reading back the text of an instant (`ofText?_text`): any year of the calendar, any fraction, and leap
seconds.
-/

namespace Outbox

open Decimal

namespace Date

/-- A year counted from March has a 366th day only if the calendar year in which it ends is a leap
year. -/
theorem isLeapYear_of_long {z : Int} (long : (yearOf z).2 = 365) : isLeapYear ((yearOf z).1 + 1) := by
  simp only [yearOf] at long ⊢
  have hr : 0 ≤ z % 146097 ∧ z % 146097 < 146097 := by omega
  generalize z % 146097 = r at *
  generalize z / 146097 = e at *
  have hc : 0 ≤ min 3 (r / 36524) ∧ min 3 (r / 36524) ≤ 3 ∧ 0 ≤ r - 36524 * min 3 (r / 36524) ∧
      r - 36524 * min 3 (r / 36524) ≤ 36524 ∧
      (min 3 (r / 36524) < 3 → r - 36524 * min 3 (r / 36524) < 36524) := by omega
  generalize min 3 (r / 36524) = c at *
  generalize r - 36524 * c = s at *
  have hy : s % 1461 = 1460 ∧ min 3 (s % 1461 / 365) = 3 := by omega
  -- the last four years of a century are a day short, unless the century is the fourth
  have hq : 0 ≤ s / 1461 ∧ (s / 1461 < 24 ∨ s / 1461 = 24 ∧ c = 3) := by omega
  rw [hy.2]
  generalize s / 1461 = q at *
  simp only [isLeapYear, Bool.and_eq_true, Bool.or_eq_true, beq_iff_eq, bne_iff_ne]
  omega

theorem isValid_ofDayNumber (n : Int) : (ofDayNumber n).isValid := by
  obtain ⟨-, low, high⟩ := yearOf_spec (n + 719468)
  have long := @isLeapYear_of_long (n + 719468)
  unfold ofDayNumber
  generalize yearOf (n + 719468) = split at *
  obtain ⟨y, d⟩ := split
  simp only [monthOf] at *
  obtain ⟨m, month⟩ : ∃ m, (5 * d + 2) / 153 = m := ⟨_, rfl⟩
  have months : m = 0 ∨ m = 1 ∨ m = 2 ∨ m = 3 ∨ m = 4 ∨ m = 5 ∨ m = 6 ∨ m = 7 ∨ m = 8 ∨ m = 9 ∨
      m = 10 ∨ m = 11 := by omega
  simp only [month]
  -- month 11 is February, the only one whose length depends on the year
  rcases months with rfl | rfl | rfl | rfl | rfl | rfl | rfl | rfl | rfl | rfl | rfl | rfl
  case inr.inr.inr.inr.inr.inr.inr.inr.inr.inr.inr =>
    have days : 337 ≤ d := by omega
    by_cases leap : d = 365
    · simp [isValid, monthLength, long leap, leap]
    · simp [isValid, monthLength]
      split <;> omega
  all_goals
    simp [isValid, monthLength]
    omega

end Date

namespace Instant

variable {rest : List Char}

theorem isBlank_of_isDigit {c : Char} (digit : c.isDigit) : isBlank c = false := by
  have bounds : 48 ≤ c.toNat ∧ c.toNat ≤ 57 := Char.isDigit_iff_toNat.mp digit
  simp only [isBlank, blanks, List.any_cons, List.any_nil, Bool.or_false, Bool.or_eq_false_iff,
    Bool.and_eq_false_iff, decide_eq_false_iff_not]
  omega

theorem skipBlanks_cons {c : Char} (solid : isBlank c = false) :
    skipBlanks (c :: rest) = c :: rest := by simp [skipBlanks, solid]

theorem skipBlanks_padded (width n : Nat) :
    skipBlanks (padded width n ++ rest) = padded width n ++ rest := by
  cases shape : padded width n with
  | nil => exact absurd shape padded_ne_nil
  | cons c cs =>
    exact skipBlanks_cons (isBlank_of_isDigit (isDigit_of_mem_padded (shape ▸ List.mem_cons_self)))

namespace Reader

theorem pair?_padded {n : Nat} (short : n < 100) : pair? (padded 2 n ++ rest) = some (n, rest) := by
  rw [pair?, skipBlanks_padded, read?_padded (by decide) short]

/-- After a sign the digits are as many as there are. -/
theorem read?_year (n : Nat) (stop : NoDigit rest) :
    Decimal.read? (padded 4 n ++ rest).length (padded 4 n ++ rest) = some (n, rest) := by
  have fits : (padded 4 n).length ≤ (padded 4 n ++ rest).length := by simp
  rw [read?_append (fun _ => isDigit_of_mem_padded) padded_ne_nil fits (.inr stop), value_padded]

theorem year?_plus (n : Nat) (stop : NoDigit rest) :
    year? ('+' :: padded 4 n ++ rest) = some ((n : Int), rest) := by
  change (Decimal.read? (padded 4 n ++ rest).length (padded 4 n ++ rest)).map _ = _
  rw [read?_year n stop]
  rfl

theorem year?_minus (n : Nat) (stop : NoDigit rest) :
    year? ('-' :: padded 4 n ++ rest) = some (-(n : Int), rest) := by
  change (Decimal.read? (padded 4 n ++ rest).length (padded 4 n ++ rest)).map _ = _
  rw [read?_year n stop]
  rfl

theorem year?_unsigned {n : Nat} (short : n < 10000) :
    year? (padded 4 n ++ rest) = some ((n : Int), rest) := by
  have four : Decimal.read? 4 (padded 4 n ++ rest) = some (n, rest) := read?_padded (by decide) short
  cases shape : padded 4 n with
  | nil => exact absurd shape padded_ne_nil
  | cons c cs =>
    have digit : c.isDigit := isDigit_of_mem_padded (shape ▸ List.mem_cons_self)
    have plus : c ≠ '+' := by rintro rfl; cases digit
    have minus : c ≠ '-' := by rintro rfl; cases digit
    rw [shape, List.cons_append] at four
    simp [year?, skipBlanks_cons (isBlank_of_isDigit digit), plus, minus, four]

theorem year?_yearText (y : Int) (stop : NoDigit rest) :
    year? (yearText y ++ rest) = some (y, rest) := by
  unfold yearText
  split
  · next usual =>
    rw [year?_unsigned (by omega), Int.toNat_of_nonneg usual.1]
  · next unusual =>
    split
    · next negative => rw [year?_minus _ stop, ← Int.eq_neg_natAbs_of_nonpos (by omega)]
    · next positive => rw [year?_plus _ stop, Int.natAbs_of_nonneg (by omega)]

theorem fraction?_point {ds : List Char} (digit : ∀ c ∈ ds, c.isDigit) (some_digit : ds ≠ [])
    (fits : ds.length ≤ 9) (stop : NoDigit rest) :
    fraction? ('.' :: ds ++ rest) = some (value ds * Nat.pow 10 (9 - ds.length), rest) := by
  have dropped : ([] ++ rest).dropWhile Char.isDigit = rest := dropWhile_isDigit (by simp) stop
  rw [List.nil_append] at dropped
  rw [List.cons_append, fraction?, run_append digit fits (.inr stop)]
  cases ds with
  | nil => exact absurd rfl some_digit
  | cons d ds => simp [dropped]

theorem fraction?_padded {width n : Nat} (positive : 0 < width) (fits : width ≤ 9)
    (short : n < Nat.pow 10 width) (stop : NoDigit rest) :
    fraction? ('.' :: padded width n ++ rest) = some (n * Nat.pow 10 (9 - width), rest) := by
  have length := length_padded positive short
  rw [fraction?_point (fun _ => isDigit_of_mem_padded) padded_ne_nil (by omega) stop, value_padded, length]

theorem fraction?_fractionText {nano : Nat} (short : nano < 1000000000) :
    fraction? (fractionText nano ++ ['Z']) = some (nano, ['Z']) := by
  have stop : NoDigit ['Z'] := noDigit_cons (by decide)
  unfold fractionText
  split
  · next none => rw [none]; rfl
  · split
    · next millis =>
      rw [fraction?_padded (by decide) (by decide) (by simp; omega) stop]
      simp
      omega
    · split
      · next micros =>
        rw [fraction?_padded (by decide) (by decide) (by simp; omega) stop]
        simp
        omega
      · rw [fraction?_padded (by decide) (by decide) (by simpa using short) stop]
        simp

end Reader

open Reader

theorem clock_lt (t : Instant) : t.clock < 86400 := by
  unfold clock
  omega

theorem mark?_self {c : Char} (solid : isBlank c = false) : mark? c (c :: rest) = some rest := by
  simp [mark?, skipBlanks_cons solid]

def stamp (d : Date) (hour minute second nano : Nat) : List Char :=
  yearText d.year ++ '-' :: padded 2 d.month ++ '-' :: padded 2 d.day
    ++ 'T' :: padded 2 hour ++ ':' :: padded 2 minute ++ ':' :: padded 2 second
    ++ fractionText nano ++ ['Z']

theorem ofChars?_stamp {d : Date} {hour minute second nano : Nat} (month : d.month < 100)
    (day : d.day < 100) (hours : hour < 100) (minutes : minute < 100) (seconds : second < 100)
    (nanos : nano < 1000000000) :
    ofChars? (stamp d hour minute second nano) =
      if d.isValid ∧ (ofDay? d.dayNumber).isSome ∧ hour < 24 ∧ minute < 60 ∧ second ≤ 60 then
        if second = 60 then
          make? (d.dayNumber * 86400 + hour * 3600 + minute * 60 + 59) (nano + 1000000000)
        else make? (d.dayNumber * 86400 + hour * 3600 + minute * 60 + second) nano
      else none := by
  have dash : isBlank '-' = false := by decide
  have colon : isBlank ':' = false := by decide
  have utc : offset? (skipBlanks ['Z']) = some (0, []) := rfl
  have finished : skipBlanks [] = [] := rfl
  unfold ofChars? stamp
  simp only [List.append_assoc, List.cons_append]
  rw [year?_yearText _ (noDigit_cons (by decide))]
  dsimp only [Option.bind_eq_bind, Option.bind_some]
  rw [mark?_self dash, Option.bind_some, pair?_padded month]
  dsimp only [Option.bind_some]
  rw [mark?_self dash, Option.bind_some, pair?_padded day]
  -- what stands between the date and the time of day is a T
  change (pair? (padded 2 hour ++ _)).bind _ = _
  simp only [Option.bind_some, mark?_self colon, pair?_padded hours, pair?_padded minutes,
    pair?_padded seconds, fraction?_fractionText nanos, utc, finished, and_true, Int.sub_zero]

theorem chars_normal {t : Instant} (normal : t.isLeap = false) :
    t.chars = stamp t.date (t.clock / 3600) (t.clock / 60 % 60) (t.clock % 60) t.nano := by
  simp [chars, stamp, normal]

theorem chars_leap {t : Instant} (leap : t.isLeap = true) :
    t.chars = stamp t.date (t.clock / 3600) (t.clock / 60 % 60) (t.clock % 60 + 1)
      (t.nano - 1000000000) := by
  simp [chars, stamp, leap]

theorem ofText?_text (t : Instant) : ofText? t.text = some t := by
  obtain ⟨month, day⟩ : t.date.month < 100 ∧ t.date.day < 100 := Date.ofDayNumber_lt _
  have clock := clock_lt t
  have date : t.date.dayNumber * 86400 + t.clock = t.second := by
    rw [show t.date.dayNumber = t.second / 86400 from Date.dayNumber_ofDayNumber _]
    unfold Instant.clock
    omega
  have valid : t.date.isValid := Date.isValid_ofDayNumber _
  have covered : (ofDay? t.date.dayNumber).isSome := by
    rw [show t.date.dayNumber = t.day from Date.dayNumber_ofDayNumber _]
    exact Option.isSome_iff_exists.mpr (exists_ofDay? t.first_day_le t.day_le_last_day)
  rw [ofText?, text, String.toList_ofList]
  by_cases leap : t.isLeap = true
  · have nano : 1000000000 ≤ t.nano := of_decide_eq_true leap
    have last : t.clock % 60 = 59 := by
      have := t.inSecond
      unfold Instant.clock
      omega
    have short : t.nano - 1000000000 < 1000000000 := by
      have := t.inSecond
      omega
    have second : t.date.dayNumber * 86400 + (t.clock / 3600 : Nat) * 3600 + (t.clock / 60 % 60 : Nat) * 60
        + 59 = t.second := by omega
    rw [chars_leap leap, ofChars?_stamp month day (by omega) (by omega) (by omega) short,
      if_pos ⟨valid, covered, by omega, by omega, by omega⟩, if_pos (by omega), second,
      Nat.sub_add_cancel nano, make?_self]
  · have normal : t.isLeap = false := by simpa using leap
    have short : t.nano < 1000000000 := Nat.lt_of_not_le (of_decide_eq_false normal)
    have second : t.date.dayNumber * 86400 + (t.clock / 3600 : Nat) * 3600 + (t.clock / 60 % 60 : Nat) * 60
        + (t.clock % 60 : Nat) = t.second := by omega
    rw [chars_normal normal, ofChars?_stamp month day (by omega) (by omega) (by omega) short,
      if_pos ⟨valid, covered, by omega, by omega, by omega⟩, if_neg (by omega), second, make?_self]

end Instant

end Outbox
