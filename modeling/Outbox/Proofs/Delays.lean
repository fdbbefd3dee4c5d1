import Mathlib.Algebra.Group.Nat.Defs
import Outbox.Options.Json
import Outbox.Retry

/-!
How long a failed item waits. The delay is computed with products and powers that may leave the range of
durations, and is the one of integers without bound all the same: where a product is out of range, so is
the greatest delay (`delays_exact`).
-/

namespace Outbox

namespace Duration

theorem nanos_split (d : Duration) : d.seconds * 1000000000 + d.subsecond = d.nanos :=
  Nat.div_add_mod' d.nanos 1000000000

/-- The carry between fractions and whole seconds loses nothing. -/
theorem times?_eq (d : Duration) (n : Nat) : d.times? n = ofNanos? (d.nanos * n) := by
  have product : d.nanos * n = d.seconds * n * 1000000000 + d.subsecond * n := by
    rw [← nanos_split, Nat.add_mul, Nat.mul_right_comm]
  have carried : (d.seconds * n + d.subsecond * n / 1000000000) * 1000000000 +
      d.subsecond * n % 1000000000 = d.nanos * n := by omega
  have inRange : d.seconds * n + d.subsecond * n / 1000000000 < 1 <<< 64 ↔
      d.nanos * n < (1 <<< 64) * 1000000000 := by omega
  unfold times? ofNanos?
  simp only [carried, inRange]

theorem nanos_min (a b : Duration) : (min a b).nanos = min a.nanos b.nanos := by
  show (if a.nanos ≤ b.nanos then a else b).nanos = _
  split <;> omega

/-- A length out of range is above any cap. -/
theorem nanos_capped (n : Nat) (cap : Duration) :
    (((ofNanos? n).map (min · cap)).getD cap).nanos = min n cap.nanos := by
  unfold ofNanos?
  split
  · exact nanos_min ..
  · have := cap.bounded
    simp only [Option.map_none, Option.getD_none]
    omega

theorem ofNanos?_eq_some_iff {n : Nat} {d : Duration} : ofNanos? n = some d ↔ d.nanos = n := by
  unfold ofNanos?
  split
  · rename_i inRange
    constructor
    · rintro ⟨⟩
      rfl
    · rintro rfl
      rfl
  · have := d.bounded
    constructor
    · rintro ⟨⟩
    · omega

end Duration

namespace Json

theorem duration?_eq_some {j : Json} {d : Duration} (h : j.duration? = some d) : ∃ ms, d = .ofMillis ms := by
  obtain ⟨ms, -, rfl⟩ := Option.map_eq_some_iff.mp h
  exact ⟨ms, rfl⟩

theorem Fields.orElse?_duration {f : Fields} {name : String} {left : UInt64} {d : Duration}
    (h : f.orElse? name duration? (.ofMillis left) = some d) : ∃ ms, d = .ofMillis ms := by
  unfold orElse? at h
  split at h
  · exact duration?_eq_some h
  · exact ⟨left, (Option.some.inj h).symm⟩

end Json

namespace RetrySettings

variable {s : RetrySettings}

/-- The nanoseconds before an attempt, in integers without bound. -/
def exactDelay (s : RetrySettings) (n : Nat) : Nat :=
  match s.policy with
  | .constant => s.delay.nanos
  | .linear => min (n * s.delay.nanos) s.maxDelay.nanos
  | .exponential => min (2 ^ n * 1000000000) s.maxDelay.nanos

theorem exactDelay_mono {m n : Nat} (h : m ≤ n) : s.exactDelay m ≤ s.exactDelay n := by
  unfold exactDelay
  split
  · exact Nat.le_refl _
  · have := Nat.mul_le_mul_right s.delay.nanos h
    omega
  · have := Nat.mul_le_mul_right 1000000000 (Nat.pow_le_pow_right (by decide : 0 < 2) h)
    omega

theorem nanos_nextDelay (s : RetrySettings) (attempt : Int32) :
    (s.nextDelay attempt).nanos = s.exactDelay attempt.toInt.toNat := by
  unfold nextDelay exactDelay
  generalize attempt.toInt.toNat = n
  cases s.policy with
  | constant => rfl
  | linear =>
    show (((s.delay.times? n).map (min · s.maxDelay)).getD s.maxDelay).nanos = _
    rw [Duration.times?_eq, Duration.nanos_capped, Nat.mul_comm]
  | exponential =>
    simp only
    split
    · rw [Duration.nanos_capped, Nat.one_shiftLeft]
    · -- two to the sixty-fourth seconds are beyond any duration
      have far := Nat.pow_le_pow_right (by decide : 0 < 2) (Nat.le_of_not_lt ‹¬ n < 64›)
      have := s.maxDelay.bounded
      omega

theorem nextDelay_mono {a b : Int32} (h : a ≤ b) : s.nextDelay a ≤ s.nextDelay b := by
  show (s.nextDelay a).nanos ≤ (s.nextDelay b).nanos
  rw [nanos_nextDelay, nanos_nextDelay]
  have := Int32.le_iff_toInt_le.mp h
  exact exactDelay_mono (by omega)

def drawn (s : RetrySettings) (draw : Fin maxJitter) : Nat :=
  if s.policy = .exponential then draw * 1000000 else 0

theorem nextDelayWith_eq_some_iff {attempt : Int32} {draw : Fin maxJitter} {d : Duration} :
    s.nextDelayWith attempt draw = some d ↔ d.nanos = (s.nextDelay attempt).nanos + s.drawn draw := by
  have same (a b : Duration) : a = b ↔ a.nanos = b.nanos := by cases a; cases b; simp
  unfold nextDelayWith drawn
  cases s.policy with
  | constant | linear =>
    simp only [reduceCtorEq, if_false, Nat.add_zero, Option.some.injEq, same]
    exact eq_comm
  | exponential =>
    simp only [if_true]
    exact Duration.ofNanos?_eq_some_iff

theorem nextDelay_le {draw : Option (Fin maxJitter)} {attempt : Int32} {d : Duration}
    (h : s.delay? draw attempt = some d) : (s.nextDelay attempt).nanos ≤ d.nanos := by
  cases draw with
  | none =>
    cases h
    exact Nat.le_refl _
  | some draw => exact Nat.le.intro (nextDelayWith_eq_some_iff.mp h).symm

theorem drawn_lt (s : RetrySettings) (draw : Fin maxJitter) : s.drawn draw < (Duration.ofMillis 300).nanos := by
  have below : (draw : Nat) < 300 := draw.isLt
  show s.drawn draw < 300000000
  unfold drawn
  split <;> omega

theorem durations_of_json {j : Json} (h : ofJson? j = some s) :
    (∃ ms, s.delay = .ofMillis ms) ∧ ∃ ms, s.maxDelay = .ofMillis ms := by
  simp only [ofJson?, bind, Option.bind_eq_some_iff, Option.some.injEq] at h
  obtain ⟨f, -, isEnabled, -, delay, delayRead, maxDelay, maxDelayRead, -, -, -, -, rfl⟩ := h
  exact ⟨Json.Fields.orElse?_duration delayRead, Json.Fields.orElse?_duration maxDelayRead⟩

/-- A draw finds no room where the sum is out of range, which only a power comes near. -/
theorem nextDelayWith_eq_none_iff {attempt : Int32} {draw : Fin maxJitter} :
    s.nextDelayWith attempt draw = none ↔
      s.policy = .exponential ∧ (1 <<< 64) * 1000000000 ≤ (s.nextDelay attempt).nanos + draw * 1000000 := by
  unfold nextDelayWith
  cases s.policy with
  | constant | linear => simp
  | exponential => simp [Duration.ofNanos?]

/-- A delay of whole milliseconds leaves room for a draw. -/
theorem nextDelay_add_lt {j : Json} (read : ofJson? j = some s) (attempt : Int32) (draw : Fin maxJitter) :
    (s.nextDelay attempt).nanos + draw * 1000000 < (1 <<< 64) * 1000000000 := by
  obtain ⟨⟨delay, delayed⟩, cap, capped⟩ := durations_of_json read
  have small : (s.nextDelay attempt).nanos ≤ max s.delay.nanos s.maxDelay.nanos := by
    rw [nanos_nextDelay]
    unfold exactDelay
    split <;> omega
  have short (ms : UInt64) : (Duration.ofMillis ms).nanos < (1 <<< 64) * 1000000 := by
    have := ms.toNat_lt
    show ms.toNat * 1000000 < _
    omega
  have : (draw : Nat) < 300 := draw.isLt
  rw [delayed, capped] at small
  have := short delay
  have := short cap
  omega

/-- Without a draw the delay is that of integers without bound and never falls as attempts go on. A draw
adds less than 300 ms, and that to exponential delays only; it finds no room only at the end of the range
of durations, which settings read from JSON stay away from. -/
theorem delays_exact (s : RetrySettings) :
    (∀ attempt : Int32, s.delay? none attempt = some (s.nextDelay attempt) ∧
      (s.nextDelay attempt).nanos = s.exactDelay (max attempt.toInt 0).toNat) ∧
    (∀ a b : Int32, a ≤ b → s.nextDelay a ≤ s.nextDelay b) ∧
    (∀ attempt draw d, s.delay? (some draw) attempt = some d →
      ∃ extra < (Duration.ofMillis 300).nanos, d.nanos = (s.nextDelay attempt).nanos + extra ∧
        (s.policy ≠ .exponential → extra = 0)) ∧
    (∀ attempt draw, s.delay? (some draw) attempt = none ↔
      s.policy = .exponential ∧
        (1 <<< 64) * 1000000000 ≤ (s.nextDelay attempt).nanos + draw * 1000000) ∧
    ∀ j, ofJson? j = some s → ∀ draw attempt, ∃ d, s.delay? draw attempt = some d := by
  refine ⟨fun attempt => ⟨rfl, ?_⟩, fun a b => nextDelay_mono, fun attempt draw d drew => ?_,
    fun attempt draw => nextDelayWith_eq_none_iff, fun j read draw attempt => ?_⟩
  · have positive : (max attempt.toInt 0).toNat = attempt.toInt.toNat := by omega
    rw [nanos_nextDelay, positive]
  · refine ⟨s.drawn draw, s.drawn_lt draw, nextDelayWith_eq_some_iff.mp drew, fun other => ?_⟩
    exact if_neg other
  · cases draw with
    | none => exact ⟨_, rfl⟩
    | some draw =>
      refine Option.ne_none_iff_exists'.mp fun missing => ?_
      have := nextDelay_add_lt read attempt draw
      have := (nextDelayWith_eq_none_iff.mp missing).2
      omega

/-- Settings whose delays are as long as JSON has them. -/
def patient : RetrySettings where
  delay := .ofMillis 18446744073709551615
  maxDelay := .ofMillis 18446744073709551615

def patientJson : Json := .record
  [("retry_delay", .ofNat 18446744073709551615), ("retry_max_delay", .ofNat 18446744073709551615)]

def longestDraw : Fin maxJitter := ⟨299, by decide⟩

theorem delays_exact_patient :
    (-7 : Int32) ≤ 2147483647 ∧ patient.nextDelay (-7) ≤ patient.nextDelay 2147483647 ∧
    (patient.nextDelay (-7)).nanos = 1000000000 ∧
    (patient.nextDelay 2147483647).nanos = 18446744073709551615000000 ∧
    (∃ d, patient.delay? (some longestDraw) 5 = some d ∧
      ∃ extra < (Duration.ofMillis 300).nanos, d.nanos = (patient.nextDelay 5).nanos + extra ∧
        (patient.policy ≠ .exponential → extra = 0)) ∧
    ofJson? patientJson = some patient ∧ ∃ d, patient.delay? (some longestDraw) 2147483647 = some d := by
  obtain ⟨-, rises, drawn, -, readable⟩ := delays_exact patient
  have order : (-7 : Int32) ≤ 2147483647 := by decide
  have read : ofJson? patientJson = some patient := by decide +kernel
  obtain ⟨d, drew⟩ := readable patientJson read (some longestDraw) 5
  exact ⟨order, rises _ _ order, by decide +kernel, by decide +kernel, ⟨d, drew, drawn _ _ _ drew⟩, read,
    readable patientJson read (some longestDraw) 2147483647⟩

end RetrySettings

end Outbox
