import Mathlib.Data.Prod.Lex
import Outbox.Proofs.Decisions
import Outbox.Proofs.Delays
import Outbox.Proofs.Instants

/-!
A row that is put off counts one attempt more, up to the greatest count, and waits for the delay of that
attempt, up to the calendar's end (`reschedule_exact`). The delay passes two ceilings, the one of a shift
and the calendar's end, and the earlier of the end and the exact sum comes of it. If the delay is
positive, the row is not due at the time (`reschedule_scheduled_later`).
-/

namespace Outbox

namespace StatusFields

theorem toInt_nextCount (f : StatusFields) :
    f.nextCount.toInt = min ((f.retryCount.getD 0).toInt + 1) Int32.maxValue.toInt := by
  have below := Int32.toInt_lt (f.retryCount.getD 0)
  have above := Int32.le_toInt (f.retryCount.getD 0)
  have most : Int32.maxValue.toInt = 2147483647 := by decide
  simp only [nextCount]
  split
  · -- a full count stays
    rename_i full
    rw [full]
    omega
  · rename_i free
    have other : (f.retryCount.getD 0).toInt ≠ Int32.maxValue.toInt := fun same =>
      free (Int32.toInt_inj.mp same)
    rw [Int32.toInt_add, show (1 : Int32).toInt = 1 from rfl, Int.bmod_eq_of_le (by omega) (by omega)]
    omega

end StatusFields

namespace Instant

/-- Second and nanosecond, compared one after the other. -/
def place (t : Instant) : ℤ ×ₗ ℕ := toLex (t.second, t.nano)

/-- The nanoseconds of the second an instant lies in; a leap second is added to the one before it. -/
def secondLength (t : Instant) : ℕ := if t.isLeap then 2000000000 else 1000000000

/-- The place `n` nanoseconds on where the calendar has no end. All seconds after the instant's own last
one second. -/
def onward (t : Instant) (n : ℕ) : ℤ ×ₗ ℕ :=
  if t.nano + n < t.secondLength then toLex (t.second, t.nano + n)
  else
    let rest := t.nano + n - t.secondLength
    toLex (t.second + 1 + (rest / 1000000000 : ℕ), rest % 1000000000)

variable {a b t : Instant} {n : ℕ} {d : Duration}

theorem place_le_place : a.place ≤ b.place ↔ a ≤ b := Prod.Lex.toLex_le_toLex

theorem place_lt_place : a.place < b.place ↔ a < b := Prod.Lex.toLex_lt_toLex

theorem secondLength_cases (t : Instant) :
    t.isLeap ∧ t.secondLength = 2000000000 ∧ 1000000000 ≤ t.nano ∧ t.nano < 2000000000 ∧ t.second % 60 = 59 ∨
    t.isLeap = false ∧ t.secondLength = 1000000000 ∧ t.nano < 1000000000 := by
  have := t.inSecond
  cases leap : t.isLeap <;> simp only [isLeap, decide_eq_true_eq, decide_eq_false_iff_not] at leap <;>
    simp [secondLength, isLeap] <;> omega

/-- A shift forwards goes on as far as the calendar. -/
theorem shift?_eq_onward (t : Instant) (n : ℕ) :
    t.shift? n = make? (ofLex (t.onward n)).1 (ofLex (t.onward n)).2 := by
  have forwards : (0 : ℤ) ≤ n := Int.natCast_nonneg n
  have above : (-1000000000 : ℤ) < n := by omega
  unfold shift? onward
  rcases t.secondLength_cases with ⟨leap, length, long, -, -⟩ | ⟨normal, length, short⟩
  · simp only [leap, length, above, forwards, true_and, and_self, if_true]
    by_cases stays : t.nano + n < 2000000000
    · rw [if_pos (by omega), if_pos stays, ofLex_toLex]
      exact congrArg₂ make? rfl (by omega)
    · rw [if_neg (by omega), if_neg stays, ofLex_toLex]
      exact congrArg₂ make? (by omega) (by omega)
  · simp only [normal, length, false_and, if_false, Bool.false_eq_true]
    by_cases stays : t.nano + n < 1000000000
    · rw [if_pos stays, ofLex_toLex]
      exact congrArg₂ make? (by omega) (by omega)
    · rw [if_neg stays, ofLex_toLex]
      exact congrArg₂ make? (by omega) (by omega)

/-- Only within its own leap second does an instant go on to a place in one. -/
theorem onward_cases (t : Instant) (n : ℕ) :
    t.second ≤ (ofLex (t.onward n)).1 ∧
    ((ofLex (t.onward n)).2 < 1000000000 ∨
      (ofLex (t.onward n)).1 = t.second ∧ 1000000000 ≤ t.nano ∧ (ofLex (t.onward n)).2 < 2000000000) := by
  unfold onward
  rcases t.secondLength_cases with ⟨-, length, long, -, -⟩ | ⟨-, length, -⟩ <;> rw [length] <;> split <;>
    simp only [ofLex_toLex, true_and] <;> omega

/-- Where a shift forwards leads out of the calendar, the calendar's end is the earlier of the two. -/
theorem place_shift?_getD (within : t ≤ last) (n : ℕ) :
    ((t.shift? n).getD last).place = min last.place (t.onward n) := by
  obtain ⟨later, inSecond⟩ := t.onward_cases n
  have since := t.inCalendar.1
  have own := t.inSecond
  change t.second < lastSecond ∨ t.second = lastSecond ∧ t.nano ≤ 999999999 at within
  rw [shift?_eq_onward]
  unfold make?
  by_cases ends : (ofLex (t.onward n)).1 ≤ lastSecond
  · have exact : (ofLex (t.onward n)).2 < 1000000000 ∨
        (ofLex (t.onward n)).2 < 2000000000 ∧ (ofLex (t.onward n)).1 % 60 = 59 := by omega
    rw [dif_pos ⟨since.trans later, ends⟩, dif_pos exact]
    refine (min_eq_right (Prod.Lex.toLex_le_toLex.mpr ?_)).symm
    show (ofLex (t.onward n)).1 < lastSecond ∨
      (ofLex (t.onward n)).1 = lastSecond ∧ (ofLex (t.onward n)).2 ≤ 999999999
    omega
  · rw [dif_neg (fun inside => ends inside.2)]
    refine (min_eq_left (le_of_lt ?_)).symm
    exact Prod.Lex.toLex_lt_toLex.mpr (.inl (not_le.mp ends))

/-- A shift of the greatest length leads out of the calendar from all of its instants, and so does a
longer one. -/
theorem shift?_eq_none (far : longestShift ≤ n) : t.shift? n = none := by
  have since := t.inCalendar.1
  have length : longestShift = 9223372036854775807000000 := by decide
  have beyond : lastSecond < (ofLex (t.onward n)).1 := by
    unfold onward
    rcases t.secondLength_cases with ⟨-, own, -⟩ | ⟨-, own, -⟩ <;> rw [own] <;> split <;>
      simp only [ofLex_toLex, firstSecond, lastSecond] at * <;> omega
  rw [shift?_eq_onward]
  unfold make?
  exact dif_neg fun inside => absurd inside.2 (not_le.mpr beyond)

/-- The ceiling of a shift makes no difference: the calendar ends before it. -/
theorem plus?_eq_shift? (t : Instant) (d : Duration) : t.plus? d = t.shift? d.nanos := by
  unfold plus?
  rcases le_total d.nanos longestShift with short | long
  · rw [min_eq_left short]
  · rw [min_eq_right long, shift?_eq_none le_rfl, shift?_eq_none long]

theorem place_plus?_getD (within : t ≤ last) (d : Duration) :
    ((t.plus? d).getD last).place = min last.place (t.onward d.nanos) := by
  rw [plus?_eq_shift?, place_shift?_getD within]

theorem lt_onward (positive : 0 < n) : t.place < t.onward n := by
  refine Prod.Lex.toLex_lt_toLex.mpr ?_
  show t.second < (ofLex (t.onward n)).1 ∨ t.second = (ofLex (t.onward n)).1 ∧ t.nano < (ofLex (t.onward n)).2
  unfold onward
  split <;> simp only [ofLex_toLex, true_and] <;> omega

theorem lt_plus?_getD (early : t < last) (positive : 0 < d.nanos) : t < (t.plus? d).getD last := by
  have within : t ≤ last := place_le_place.mp (place_lt_place.mpr early).le
  rw [← place_lt_place, place_plus?_getD within]
  exact lt_min (place_lt_place.mpr early) (lt_onward positive)

end Instant

theorem Job.reschedule_cases (job : Job) (now : Instant) (row : Row) :
    (job.features.status = false ∧ job.reschedule now row = .unsupported) ∨
    (job.features.status ∧ job.options.retry.isEnabled = false ∧ job.reschedule now row = .disabled) ∨
    (job.features.status ∧ job.options.retry.isEnabled ∧
      ∃ put, job.reschedule now row = .scheduled put) := by
  unfold Job.reschedule Outbox.reschedule
  cases job.features.status with
  | false => simp
  | true => cases job.options.retry.isEnabled <;> simp

variable {features : Features} {settings : RetrySettings} {now : Instant} {row : Row}

theorem reschedule_eq (draw : Option (Fin RetrySettings.maxJitter)) (tracked : features.status)
    (enabled : settings.isEnabled) :
    reschedule features settings draw now row =
      let after := ((settings.delay? draw row.fields.nextCount).bind now.plus?).getD .last
      .scheduled { row with fields := row.fields.scheduleRetry after } := by
  simp [reschedule, tracked, enabled]

theorem lt_delayed (draw : Option (Fin RetrySettings.maxJitter)) {attempt : Int32} (early : now < .last)
    (positive : 0 < (settings.nextDelay attempt).nanos) :
    now < ((settings.delay? draw attempt).bind now.plus?).getD .last := by
  cases delayed : settings.delay? draw attempt with
  | none => exact early
  | some d => exact Instant.lt_plus?_getD early (positive.trans_le (RetrySettings.nextDelay_le delayed))

/-- A failed row comes due later where retry is on, nothing is drawn and the delay is positive. -/
theorem reschedule_scheduled_later (tracked : features.status) (enabled : settings.isEnabled)
    (early : now < .last) (positive : 0 < (settings.nextDelay row.fields.nextCount).nanos) :
    ∃ after, reschedule features settings none now row = .scheduled after ∧
      after.fields.isDue now = false := by
  refine ⟨_, reschedule_eq none tracked enabled, ?_⟩
  simp only [StatusFields.isDue, StatusFields.scheduleRetry, decide_eq_false_iff_not]
  exact Instant.not_le_of_lt (lt_delayed none early positive)

/-- A failed row is stamped with one attempt more and with the instant its delay leads to, the plain one
where nothing is drawn; of the calendar's instants, to which the leap second after its last second does not
belong, the row is due from that one on and not before. -/
theorem reschedule_exact (draw : Option (Fin RetrySettings.maxJitter)) (now : Instant) (row : Row)
    (tracked : features.status) (enabled : settings.isEnabled) :
    ∃ count after put, reschedule features settings draw now row = .scheduled put ∧
      put = { row with
        fields := { status := .retry, retryCount := some count, retryAfter := some after } } ∧
      count.toInt = min ((row.fields.retryCount.getD 0).toInt + 1) Int32.maxValue.toInt ∧
      (now ≤ .last → draw = none →
        after.place = min Instant.last.place (now.onward (settings.nextDelay count).nanos)) ∧
      (now ≤ .last → ∀ d, settings.delay? draw count = some d →
        after.place = min Instant.last.place (now.onward d.nanos)) ∧
      (0 < (settings.nextDelay count).nanos → now < .last → now < after ∧
        (∀ t, now ≤ t → t < after → put.fields.isDue t = false) ∧
        ∀ t, after ≤ t → put.fields.isDue t = true) := by
  refine ⟨_, _, _, reschedule_eq draw tracked enabled, rfl, row.fields.toInt_nextCount, fun within plain => ?_,
    fun within d delayed => ?_, fun positive early =>
      ⟨lt_delayed draw early positive, fun t _ before => ?_, fun t reached => ?_⟩⟩
  · subst plain
    exact Instant.place_plus?_getD within _
  · rw [delayed]
    exact Instant.place_plus?_getD within d
  · exact decide_eq_false (Instant.not_le_of_lt before)
  · exact decide_eq_true reached

/-- Half of the leap second is over that ends 1970-01-10. -/
def leapSecond : Instant := ⟨863999, 1500000000, by decide, by decide⟩

def steady : RetrySettings := { policy := .constant }

def hopeless : Row := { id := .ofNat 1, payload := "letter", fields := { retryCount := some 2147483647 } }

theorem reschedule_exact_leap :
    ({ status := true } : Features).status ∧ steady.isEnabled ∧ leapSecond ≤ .last ∧ leapSecond < .last ∧
    0 < (steady.nextDelay 2147483647).nanos ∧
    (∃ after put, reschedule { status := true } steady none leapSecond hopeless = .scheduled put ∧
      put.fields.retryCount = some 2147483647 ∧ after.place = toLex (864002, 500000000) ∧
      put.fields.isDue leapSecond = false ∧ put.fields.isDue after = true) ∧
    ∃ after put, reschedule { status := true } {} (some RetrySettings.longestDraw) leapSecond hopeless =
        .scheduled put ∧
      put.fields.retryAfter = some after ∧ after.place = toLex (864009, 799000000) := by
  have within : leapSecond ≤ .last := by decide
  have early : leapSecond < .last := by decide
  have positive : 0 < (steady.nextDelay 2147483647).nanos := by decide
  refine ⟨rfl, rfl, within, early, positive, ?_, ?_⟩
  · obtain ⟨count, after, put, stamped, shape, counted, plain, -, due⟩ :=
      @reschedule_exact { status := true } steady none leapSecond hopeless rfl rfl
    obtain rfl : count = 2147483647 := Int32.toInt_inj.mp (counted.trans (by decide))
    obtain ⟨later, before, since⟩ := due positive early
    refine ⟨after, put, stamped, ?_, (plain within rfl).trans (by decide),
      before leapSecond (Instant.le_refl _) later, since after (Instant.le_refl _)⟩
    rw [shape]
  · obtain ⟨count, after, put, stamped, shape, counted, -, drawn, -⟩ :=
      @reschedule_exact { status := true } {} (some RetrySettings.longestDraw) leapSecond hopeless rfl rfl
    obtain rfl : count = 2147483647 := Int32.toInt_inj.mp (counted.trans (by decide))
    have delayed : RetrySettings.delay? {} (some RetrySettings.longestDraw) 2147483647 =
        some ⟨10299000000, by decide⟩ := by decide
    refine ⟨after, put, stamped, ?_, (drawn within _ delayed).trans (by decide)⟩
    rw [shape]

/-- Nothing that was put off is due yet. -/
def Decision.Later (now : Instant) (d : Decision) : Prop :=
  ∀ r ∈ d.retried, r.fields.isDue now = false

end Outbox
