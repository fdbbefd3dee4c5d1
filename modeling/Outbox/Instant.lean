import Outbox.Calendar

/-!
Instants of UTC with nanoseconds, bounded by the calendar's first and last day, and durations.
A leap second is a fraction of one second or more on the last second of a minute.
-/

namespace Outbox

/-- A length of time of at most `2 ^ 64 - 1` whole seconds and a fraction. -/
structure Duration where
  nanos : Nat
  bounded : nanos < (1 <<< 64) * 1000000000
  deriving DecidableEq

namespace Duration

instance : LE Duration := ⟨fun a b => a.nanos ≤ b.nanos⟩
instance : LT Duration := ⟨fun a b => a.nanos < b.nanos⟩
instance (a b : Duration) : Decidable (a ≤ b) := inferInstanceAs (Decidable (a.nanos ≤ b.nanos))
instance (a b : Duration) : Decidable (a < b) := inferInstanceAs (Decidable (a.nanos < b.nanos))
instance : Min Duration := ⟨fun a b => if a ≤ b then a else b⟩

def ofNanos? (n : Nat) : Option Duration := if h : n < (1 <<< 64) * 1000000000 then some ⟨n, h⟩ else none

def ofMillis (ms : UInt64) : Duration := ⟨ms.toNat * 1000000, by have := ms.toNat_lt; omega⟩

/-- Whole milliseconds, at most `2 ^ 64 - 1`. -/
def millis (d : Duration) : UInt64 := .ofNat (min (d.nanos / 1000000) ((1 <<< 64) - 1))

def seconds (d : Duration) : Nat := d.nanos / 1000000000

def subsecond (d : Duration) : Nat := d.nanos % 1000000000

/-- The product, unless it is out of range. Whole seconds and fractions are multiplied each on their
own, and the seconds that the fractions add up to are carried over. -/
def times? (d : Duration) (n : Nat) : Option Duration :=
  let fractions := d.subsecond * n
  let whole := d.seconds * n + fractions / 1000000000
  if h : whole < 1 <<< 64 then some ⟨whole * 1000000000 + fractions % 1000000000, by omega⟩ else none

def isZero (d : Duration) : Bool := d.nanos == 0

theorem millis_ofMillis (ms : UInt64) : (ofMillis ms).millis = ms := by
  have := ms.toNat_lt
  apply UInt64.toNat_inj.mp
  simp only [millis, ofMillis, Nat.mul_div_cancel _ (by decide : 0 < 1000000), UInt64.toNat_ofNat']
  omega

end Duration

/-- The calendar's first second: -262143-01-01T00:00:00Z. -/
abbrev firstSecond : Int := -8334601228800

/-- The calendar's last second: +262142-12-31T23:59:59Z. -/
abbrev lastSecond : Int := 8210266876799

/-- A second counted from 1970-01-01T00:00:00Z and nanoseconds in it. -/
structure Instant where
  second : Int
  nano : Nat
  inCalendar : firstSecond ≤ second ∧ second ≤ lastSecond
  inSecond : nano < 1000000000 ∨ nano < 2000000000 ∧ second % 60 = 59
  deriving DecidableEq

namespace Instant

instance : LE Instant := ⟨fun a b => a.second < b.second ∨ a.second = b.second ∧ a.nano ≤ b.nano⟩
instance : LT Instant := ⟨fun a b => a.second < b.second ∨ a.second = b.second ∧ a.nano < b.nano⟩

instance (a b : Instant) : Decidable (a ≤ b) :=
  inferInstanceAs (Decidable (a.second < b.second ∨ a.second = b.second ∧ a.nano ≤ b.nano))

instance (a b : Instant) : Decidable (a < b) :=
  inferInstanceAs (Decidable (a.second < b.second ∨ a.second = b.second ∧ a.nano < b.nano))

def make? (second : Int) (nano : Nat) : Option Instant :=
  if inCalendar : firstSecond ≤ second ∧ second ≤ lastSecond then
    if inSecond : nano < 1000000000 ∨ nano < 2000000000 ∧ second % 60 = 59 then
      some { second, nano, inCalendar, inSecond }
    else none
  else none

/-- Unix time has no leap seconds. -/
def ofUnix? (second : Int) (nano : Nat) : Option Instant :=
  if nano < 1000000000 then make? second nano else none

def ofDay? (day : Int) : Option Instant := make? (day * 86400) 0

def ofMillis? (ms : Int) : Option Instant := ofUnix? (ms / 1000) ((ms % 1000).toNat * 1000000)

def epoch : Instant := ⟨0, 0, by decide, by decide⟩

def first : Instant := ⟨firstSecond, 0, by decide, by decide⟩

def last : Instant := ⟨lastSecond, 999999999, by decide, by decide⟩

def isLeap (t : Instant) : Bool := 1000000000 ≤ t.nano

/-- Whole milliseconds since 1970, rounded down. -/
def millis (t : Instant) : Int := t.second * 1000 + t.nano / 1000000

/-- Whole microseconds since 1970, rounded down. -/
def micros (t : Instant) : Int := t.second * 1000000 + t.nano / 1000

/-- The instant `δ` nanoseconds away, if the calendar has it. A leap second is left forwards as if
it were the first second of the next minute, which then is not counted again. -/
def shift? (t : Instant) (δ : Int) : Option Instant :=
  let n : Int := t.nano + δ
  if t.isLeap ∧ -1000000000 < δ ∧ n < 2000000000 then make? t.second n.toNat
  else
    let n := if t.isLeap ∧ 0 ≤ δ then n - 1000000000 else n
    make? (t.second + n / 1000000000) (n % 1000000000).toNat

/-- No shift is longer than `2 ^ 63 - 1` milliseconds. -/
def longestShift : Nat := ((1 <<< 63) - 1) * 1000000

/-- The instant after a delay, if the calendar has it; a delay that is too long for a shift counts as
the longest one. -/
def plus? (t : Instant) (d : Duration) : Option Instant := t.shift? (min d.nanos longestShift : Nat)

end Instant

end Outbox
