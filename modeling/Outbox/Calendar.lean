/-!
The proleptic Gregorian calendar: days counted from 1970-01-01 and their dates.
`Date.dayNumber_ofDayNumber` says that every day is the day of its own date.
-/

namespace Outbox

structure Date where
  year : Int
  month : Nat
  day : Nat
  deriving DecidableEq, Repr

namespace Date

def isLeapYear (y : Int) : Bool := y % 4 == 0 && (y % 100 != 0 || y % 400 == 0)

def monthLength (y : Int) (m : Nat) : Nat :=
  if m = 2 then (if isLeapYear y then 29 else 28)
  else if m = 4 ∨ m = 6 ∨ m = 9 ∨ m = 11 then 30 else 31

def isValid (d : Date) : Bool :=
  1 ≤ d.month && d.month ≤ 12 && 1 ≤ d.day && d.day ≤ monthLength d.year d.month

/-!
Years are counted from March, so that the leap day is the last of its year: day 0 of year 0 is
0000-03-01, 719468 days before 1970-01-01.
-/

def yearStart (y : Int) : Int := 365 * y + y / 4 - y / 100 + y / 400

/-- The year of a day and the day's place in it: whole cycles of 400, 100, 4 and 1 years in turn. -/
def yearOf (z : Int) : Int × Int :=
  let r := z % 146097
  let c := min 3 (r / 36524)
  let r := r - 36524 * c
  let q := r / 1461
  let r := r % 1461
  let y := min 3 (r / 365)
  (400 * (z / 146097) + 100 * c + 4 * q + y, r - 365 * y)

theorem yearOf_spec (z : Int) :
    yearStart (yearOf z).1 + (yearOf z).2 = z ∧ 0 ≤ (yearOf z).2 ∧ (yearOf z).2 ≤ 365 := by
  simp only [yearOf, yearStart]
  have era := Int.mul_ediv_add_emod z 146097
  have hr : 0 ≤ z % 146097 ∧ z % 146097 < 146097 := by omega
  generalize z % 146097 = r at *
  generalize z / 146097 = e at *
  have hc : 0 ≤ min 3 (r / 36524) ∧ min 3 (r / 36524) ≤ 3 ∧ 36524 * min 3 (r / 36524) ≤ r ∧
      r - 36524 * min 3 (r / 36524) ≤ 36524 := by omega
  have short : min 3 (r / 36524) < 3 → r - 36524 * min 3 (r / 36524) < 36524 := by omega
  generalize min 3 (r / 36524) = c at *
  generalize hs : r - 36524 * c = s at *
  have hq : 0 ≤ s / 1461 ∧ s / 1461 ≤ 24 ∧ s = 1461 * (s / 1461) + s % 1461 ∧
      0 ≤ s % 1461 ∧ s % 1461 ≤ 1460 := by omega
  have tail : s / 1461 = 24 → c < 3 → s % 1461 < 1460 := by omega
  generalize s / 1461 = q at *
  generalize s % 1461 = t at *
  have hy : 0 ≤ min 3 (t / 365) ∧ min 3 (t / 365) ≤ 3 ∧ 365 * min 3 (t / 365) ≤ t ∧
      t - 365 * min 3 (t / 365) ≤ 365 := by omega
  generalize min 3 (t / 365) = y at *
  have four : (400 * e + 100 * c + 4 * q + y) / 4 = 100 * e + 25 * c + q := by omega
  have century : (400 * e + 100 * c + 4 * q + y) / 100 = 4 * e + c := by omega
  have cycle : (400 * e + 100 * c + 4 * q + y) / 400 = e := by omega
  rw [four, century, cycle]
  omega

/-- The month of a day of the year, from 0 for March, and the day's place in it. -/
def monthOf (d : Int) : Int × Int :=
  let m := (5 * d + 2) / 153
  (m, d - (153 * m + 2) / 5)

def dayNumber (d : Date) : Int :=
  let y := if d.month ≤ 2 then d.year - 1 else d.year
  let m : Int := if d.month ≤ 2 then d.month + 9 else d.month - 3
  yearStart y + (153 * m + 2) / 5 + d.day - 1 - 719468

def ofDayNumber (n : Int) : Date :=
  let (y, d) := yearOf (n + 719468)
  let (m, d) := monthOf d
  if m < 10 then ⟨y, (m + 3).toNat, (d + 1).toNat⟩ else ⟨y + 1, (m - 9).toNat, (d + 1).toNat⟩

theorem dayNumber_ofDayNumber (n : Int) : (ofDayNumber n).dayNumber = n := by
  obtain ⟨sum, low, high⟩ := yearOf_spec (n + 719468)
  unfold ofDayNumber
  generalize yearOf (n + 719468) = split at *
  obtain ⟨y, d⟩ := split
  simp only [monthOf] at *
  by_cases spring : (5 * d + 2) / 153 < 10
  · have late : ¬ ((5 * d + 2) / 153 + 3).toNat ≤ 2 := by omega
    simp only [dayNumber, spring, late, if_true, if_false]
    omega
  · have early : ((5 * d + 2) / 153 - 9).toNat ≤ 2 := by omega
    simp only [dayNumber, spring, early, if_true, if_false, Int.add_sub_cancel]
    omega

end Date

end Outbox
