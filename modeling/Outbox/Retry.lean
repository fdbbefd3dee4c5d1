import Outbox.Options
import Outbox.Item

/-!
When a failed item is tried again: the delay of an attempt and the stamping of the row.
-/

namespace Outbox

namespace RetrySettings

/-- The delay before an attempt, the first being 1; negative attempts count as 0. The linear and
the exponential delay end at the greatest delay, also where they leave the range of durations. -/
def nextDelay (s : RetrySettings) (attempt : Int32) : Duration :=
  let n := attempt.toInt.toNat
  match s.policy with
  | .constant => s.delay
  | .linear => ((s.delay.times? n).map (min · s.maxDelay)).getD s.maxDelay
  | .exponential =>
    if n < 64 then ((Duration.ofNanos? ((1 <<< n) * 1000000000)).map (min · s.maxDelay)).getD s.maxDelay
    else s.maxDelay

/-- Random milliseconds are added to exponential delays, fewer than this many. -/
def maxJitter : Nat := 300

/-- The delay with `jitter` milliseconds of a random draw. -/
def nextDelayWith (s : RetrySettings) (attempt : Int32) (jitter : Fin maxJitter) : Option Duration :=
  let base := s.nextDelay attempt
  match s.policy with
  | .exponential => Duration.ofNanos? (base.nanos + jitter * 1000000)
  | _ => some base

/-- The delay with the milliseconds of a draw, or the plain one where nothing is drawn. -/
def delay? (s : RetrySettings) (jitter : Option (Fin maxJitter)) (attempt : Int32) : Option Duration :=
  match jitter with
  | none => some (s.nextDelay attempt)
  | some draw => s.nextDelayWith attempt draw

end RetrySettings

inductive Reschedule where
  | scheduled (row : Row)
  /-- Retry is switched off; the row stays as it is. -/
  | disabled
  /-- The item type has nowhere to write the retry. -/
  | unsupported
  deriving DecidableEq

/-- Stamps a failed item for its next attempt. A delay past the calendar's end parks the item there.

A delay that a draw takes out of the range of durations parks it there too. In the program the sum fails
at that point and the tick is lost: its transaction is rolled back and it reports nothing. This takes a
greatest delay within 300 ms of that range's end, a thousand times the longest delay that settings can be
read with. -/
def reschedule (features : Features) (settings : RetrySettings)
    (jitter : Option (Fin RetrySettings.maxJitter)) (now : Instant) (row : Row) : Reschedule :=
  if !features.status then .unsupported
  else if !settings.isEnabled then .disabled
  else
    let delay := settings.delay? jitter row.fields.nextCount
    let after := (delay.bind now.plus?).getD .last
    .scheduled { row with fields := row.fields.scheduleRetry after }

end Outbox
