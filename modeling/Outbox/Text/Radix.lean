/-!
Numbers as a fixed count of digits of one base, the greatest place first. `value_digits` says that
the digits of a number in range give it back.
-/

namespace Outbox.Radix

/-- The last `width` digits of `n` in base `b`, the greatest place first. -/
def digits (b : Nat) : Nat → Nat → List Nat
  | 0, _ => []
  | width + 1, n => digits b width (n / b) ++ [n % b]

def value (b : Nat) (ds : List Nat) : Nat := ds.foldl (fun n d => n * b + d) 0

theorem length_digits (b width n : Nat) : (digits b width n).length = width := by
  induction width generalizing n with
  | zero => rfl
  | succ width ih => simp [digits, ih]

theorem value_digits (b width n : Nat) : value b (digits b width n) = n % b.pow width := by
  induction width generalizing n with
  | zero => simp [digits, value, Nat.pow, Nat.mod_one]
  | succ width ih =>
    have : value b (digits b width (n / b) ++ [n % b]) = value b (digits b width (n / b)) * b + n % b := by
      simp [value]
    have power : b.pow (width + 1) = b * b.pow width := Nat.mul_comm ..
    rw [digits, this, ih, power, Nat.mod_mul]
    rw [Nat.mul_comm]; omega

end Outbox.Radix
