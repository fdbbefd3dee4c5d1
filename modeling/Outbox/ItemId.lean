import Outbox.Instant

/-!
Item ids: 128 bits, of which the greatest 48 hold the millisecond of creation and the other 80 are
random, so that ids sort by age and a range of time is a range of ids.
-/

namespace Outbox

structure ItemId where
  toNat : Nat
  bounded : toNat < 1 <<< 128
  deriving DecidableEq

namespace ItemId

theorem toNat_inj {a b : ItemId} : a.toNat = b.toNat ↔ a = b := by
  cases a; cases b; simp

instance : LT ItemId := ⟨fun a b => a.toNat < b.toNat⟩
instance : LE ItemId := ⟨fun a b => a.toNat ≤ b.toNat⟩
instance (a b : ItemId) : Decidable (a < b) := inferInstanceAs (Decidable (a.toNat < b.toNat))
instance (a b : ItemId) : Decidable (a ≤ b) := inferInstanceAs (Decidable (a.toNat ≤ b.toNat))

instance : Ord ItemId := ⟨fun a b => compare a.toNat b.toNat⟩

instance : Std.TransOrd ItemId where
  eq_swap {a b} := show compare a.toNat b.toNat = (compare b.toNat a.toNat).swap from
    Std.OrientedOrd.eq_swap
  isLE_trans {a b c} h k := show (compare a.toNat c.toNat).isLE from
    Std.TransOrd.isLE_trans (show (compare a.toNat b.toNat).isLE from h) k

instance : Std.LawfulEqOrd ItemId where
  compare_self {a} := show compare a.toNat a.toNat = .eq from Std.ReflOrd.compare_self
  eq_of_compare {a b} h := toNat_inj.mp
    (Std.LawfulEqOrd.eq_of_compare (show compare a.toNat b.toNat = .eq from h))

def ofNat (n : Nat) : ItemId := ⟨n % (1 <<< 128), Nat.mod_lt _ (by decide)⟩

/-- The low 48 bits of a millisecond, then the low 80 bits of the random part. -/
def ofParts (ms random : Nat) : ItemId :=
  ⟨(ms % (1 <<< 48)) <<< 80 + random % (1 <<< 80), by simp only [Nat.shiftLeft_eq]; omega⟩

def millis (id : ItemId) : Nat := id.toNat >>> 80

theorem millis_lt (id : ItemId) : id.millis < 1 <<< 48 := by
  have := id.bounded
  simp only [millis]; omega

/-- The id of an item made at `t`; instants before 1970 count as its start. -/
def mint (t : Instant) (random : Nat) : ItemId := ofParts t.millis.toNat random

def rangeStart (t : Instant) : ItemId := mint t 0

def timestamp (id : ItemId) : Instant where
  second := id.millis / 1000
  nano := id.millis % 1000 * 1000000
  inCalendar := by have := id.millis_lt; simp only [firstSecond, lastSecond]; omega
  inSecond := by omega

end ItemId

end Outbox
