import Outbox.Instant

/-!
The order of instants, the days they lie in, and what a clock can show of them (`Instant.OnClock`).
-/

namespace Outbox.Instant

variable {a b c s t : Instant}

theorem le_refl (t : Instant) : t ≤ t := .inr ⟨rfl, Nat.le_refl _⟩

theorem le_trans (h : a ≤ b) (k : b ≤ c) : a ≤ c := by
  change a.second < b.second ∨ a.second = b.second ∧ a.nano ≤ b.nano at h
  change b.second < c.second ∨ b.second = c.second ∧ b.nano ≤ c.nano at k
  show a.second < c.second ∨ a.second = c.second ∧ a.nano ≤ c.nano
  omega

theorem not_le_of_lt {a b : Instant} (h : a < b) : ¬ b ≤ a := by
  change a.second < b.second ∨ a.second = b.second ∧ a.nano < b.nano at h
  show ¬ (b.second < a.second ∨ b.second = a.second ∧ b.nano ≤ a.nano)
  omega

theorem make?_eq_some {second : Int} {nano : Nat} {t : Instant} (h : make? second nano = some t) :
    t.second = second ∧ t.nano = nano := by
  unfold make? at h
  split at h
  · split at h
    · cases h
      exact ⟨rfl, rfl⟩
    · cases h
  · cases h

theorem make?_self (t : Instant) : make? t.second t.nano = some t := by
  rw [make?, dif_pos t.inCalendar, dif_pos t.inSecond]

/-- What a clock can show: it counts Unix time. -/
def OnClock (t : Instant) : Prop := ofUnix? t.second t.nano = some t

instance (t : Instant) : Decidable t.OnClock := inferInstanceAs (Decidable (_ = _))

theorem onClock_iff : t.OnClock ↔ t.nano < 1000000000 := by
  unfold OnClock ofUnix?
  rw [make?_self]
  split
  · exact iff_of_true rfl ‹_›
  · exact iff_of_false nofun ‹_›

/-- On a clock milliseconds go on with time; those of a leap second come again in the second after it. -/
theorem OnClock.millis_mono (clock : s.OnClock) (h : s ≤ t) : s.millis ≤ t.millis := by
  change s.second < t.second ∨ s.second = t.second ∧ s.nano ≤ t.nano at h
  have short := onClock_iff.mp clock
  unfold millis
  omega

def day (t : Instant) : Int := t.second / 86400

theorem day_mono (h : a ≤ b) : a.day ≤ b.day := by
  change a.second < b.second ∨ a.second = b.second ∧ a.nano ≤ b.nano at h
  simp only [day]
  omega

theorem first_day_le (t : Instant) : first.day ≤ t.day := by
  have := t.inCalendar.1
  simp only [day, first]
  omega

theorem day_le_millis (t : Instant) : t.day * 86400000 ≤ t.millis := by
  simp only [day, millis]
  omega

theorem OnClock.millis_day (clock : t.OnClock) : t.millis / 86400000 = t.day := by
  have short := onClock_iff.mp clock
  simp only [millis, day]
  omega

theorem ofDay?_eq_some {day : Int} (h : ofDay? day = some t) :
    t.second = day * 86400 ∧ t.nano = 0 := make?_eq_some h

theorem exists_ofDay? {day : Int} (since : first.day ≤ day) (before : day ≤ last.day) :
    ∃ t, ofDay? day = some t := by
  simp only [Instant.day, first, last, firstSecond, lastSecond] at since before
  have inCalendar : firstSecond ≤ day * 86400 ∧ day * 86400 ≤ lastSecond := by
    simp only [firstSecond, lastSecond]
    omega
  unfold ofDay? make?
  rw [dif_pos inCalendar, dif_pos (.inl (by decide))]
  exact ⟨_, rfl⟩

theorem day_le_last_day (t : Instant) : t.day ≤ last.day := by
  have := t.inCalendar.2
  simp only [day, last]
  omega

def ofSecond (second : UInt32) : Instant where
  second := second.toNat
  nano := 0
  inCalendar := by
    have := second.toNat_lt
    simp only [firstSecond, lastSecond]
    omega
  inSecond := .inl (by decide)

end Outbox.Instant
