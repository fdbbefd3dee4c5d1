/-!
Blank characters, as the Unicode property `White_Space` lists them.
-/

namespace Outbox

/-- The characters of the property `White_Space`. -/
def blanks : List (Nat × Nat) :=
  [(0x09, 0x0D), (0x20, 0x20), (0x85, 0x85), (0xA0, 0xA0), (0x1680, 0x1680), (0x2000, 0x200A),
   (0x2028, 0x2029), (0x202F, 0x202F), (0x205F, 0x205F), (0x3000, 0x3000)]

def isBlank (c : Char) : Bool := blanks.any fun (low, high) => low ≤ c.toNat && c.toNat ≤ high

def skipBlanks (cs : List Char) : List Char := cs.dropWhile isBlank

end Outbox
