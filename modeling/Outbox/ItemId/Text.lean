import Outbox.ItemId
import Outbox.Text.Radix

/-!
Item ids as text: 26 digits of Crockford's base 32 and, for databases, the hexadecimal form with
hyphens. Reading base 32 cuts its 130 bits to the low 128, in either case of letters.
-/

namespace Outbox.ItemId

/-- The digits of base 32; `I`, `L`, `O` and `U` are left out. -/
def alphabet : List Char := "0123456789ABCDEFGHJKMNPQRSTVWXYZ".toList

def symbol (d : Nat) : Char := alphabet.getD d '0'

def symbolValue? (c : Char) : Option Nat := alphabet.findIdx? (· = c.toUpper)

def chars (id : ItemId) : List Char := (Radix.digits 32 26 id.toNat).map symbol

def text (id : ItemId) : String := .ofList id.chars

inductive ReadError where
  | length
  | character
  deriving DecidableEq, Repr

def ReadError.message : ReadError → String
  | .length => "invalid length"
  | .character => "invalid character"

/-- The length counts bytes of UTF-8 and is looked at first. -/
def read (s : String) : Except ReadError ItemId :=
  if s.utf8ByteSize ≠ 26 then .error .length
  else match s.toList.mapM symbolValue? with
    | some ds => .ok (ofNat (Radix.value 32 ds))
    | none => .error .character

/-- The 16 bytes, the greatest first. -/
def bytes (id : ItemId) : List Nat := Radix.digits 256 16 id.toNat

def ofBytes (bs : List Nat) : ItemId := ofNat (Radix.value 256 bs)

def hexDigit (d : Nat) : Char := Nat.digitChar d

def hexValue? (c : Char) : Option Nat := "0123456789abcdef".toList.findIdx? (· = c.toLower)

/-- Five groups of 8, 4, 4, 4 and 12 hexadecimal digits. -/
def uuidChars (id : ItemId) : List Char :=
  let ds := id.bytes.flatMap fun b => [hexDigit (b / 16), hexDigit (b % 16)]
  ds.take 8 ++ '-' :: (ds.drop 8).take 4 ++ '-' :: (ds.drop 12).take 4
    ++ '-' :: (ds.drop 16).take 4 ++ '-' :: ds.drop 20

def uuid (id : ItemId) : String := .ofList id.uuidChars

/-- Reads 32 hexadecimal digits, bare or with the hyphens that `uuid` writes; the form with hyphens
may stand in braces or after `urn:uuid:`. -/
def ofUuid? (s : String) : Option ItemId :=
  let cs := s.toList
  let grouped :=
    if cs.length = 45 ∧ cs.take 9 = "urn:uuid:".toList then cs.drop 9
    else if cs.length = 38 ∧ cs.head? = some '\x7b' ∧ cs.getLast? = some '\x7d' then cs.tail.dropLast
    else cs
  let digits :=
    if grouped.length = 36 ∧ [8, 13, 18, 23].all (fun i => grouped[i]? = some '-') then
      grouped.filter (· ≠ '-')
    else cs
  if digits.length = 32 then (digits.mapM hexValue?).map fun vs => ofNat (Radix.value 16 vs) else none

end Outbox.ItemId
