/-!
Decimal numerals over characters: the shortest numeral of a number, numerals of a least width,
and the number a run of digits stands for.
-/

namespace Outbox.Decimal

def digits (n : Nat) : List Char := Nat.toDigits 10 n

/-- The numeral of `n` with leading zeros up to `width` digits. -/
def padded (width n : Nat) : List Char := (digits n).leftpad width '0'

def signed : Int → List Char
  | .ofNat n => digits n
  | .negSucc n => '-' :: digits (n + 1)

def text (n : Nat) : String := .ofList (digits n)

def signedText (n : Int) : String := .ofList (signed n)

def value (ds : List Char) : Nat := Nat.ofDigitChars 10 ds 0

/-- The longest run of digits, of at most `most` characters, and what follows it. -/
def run (most : Nat) (cs : List Char) : List Char × List Char :=
  let ds := (cs.take most).takeWhile Char.isDigit
  (ds, cs.drop ds.length)

/-- A number of one to `most` digits, and what follows it. -/
def read? (most : Nat) (cs : List Char) : Option (Nat × List Char) :=
  match run most cs with
  | ([], _) => none
  | (ds, rest) => some (value ds, rest)

theorem value_digits (n : Nat) : value (digits n) = n := by
  simp [value, digits, Nat.ofDigitChars_toDigits]

theorem value_zeros_append (k : Nat) (ds : List Char) :
    value (List.replicate k '0' ++ ds) = value ds := by
  induction k with
  | zero => rfl
  | succ k ih => simpa [value, List.replicate_succ, Nat.ofDigitChars] using ih

theorem value_padded (width n : Nat) : value (padded width n) = n := by
  rw [padded, List.leftpad, value_zeros_append, value_digits]

end Outbox.Decimal
