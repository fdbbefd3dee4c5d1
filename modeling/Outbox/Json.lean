import Outbox.Text.Decimal

/-!
JSON values as trees, and their compact text. Numbers keep the literal they were written with. A
string or key whose escapes leave half of a surrogate pair has no text: it is well-formed, but
nothing can be read from it.
-/

namespace Outbox

inductive Json where
  | null
  | bool (b : Bool)
  | number (literal : List Char)
  | string (text : Option String)
  | array (elements : List Json)
  | object (members : List (Option String × Json))
  deriving Repr, Inhabited, BEq

namespace Json

def ofString (s : String) : Json := .string (some s)

def ofInt (n : Int) : Json := .number (Decimal.signed n)

def ofNat (n : Nat) : Json := .number (Decimal.digits n)

def ofOption {α : Type} (write : α → Json) : Option α → Json
  | some a => write a
  | none => .null

def record (fields : List (String × Json)) : Json := .object (fields.map fun (k, v) => (some k, v))

/-- A control character without an escape of its own is written with four hexadecimal digits. -/
def escape (c : Char) : List Char :=
  match c with
  | '"' => ['\\', '"']
  | '\\' => ['\\', '\\']
  | '\x08' => ['\\', 'b']
  | '\x0c' => ['\\', 'f']
  | '\n' => ['\\', 'n']
  | '\r' => ['\\', 'r']
  | '\t' => ['\\', 't']
  | c =>
    if c.toNat < 0x20 then
      ['\\', 'u', '0', '0', Nat.digitChar (c.toNat / 16), Nat.digitChar (c.toNat % 16)]
    else [c]

def quoted (s : String) : List Char := '"' :: s.toList.flatMap escape ++ ['"']

mutual

def chars : Json → List Char
  | .null => ['n', 'u', 'l', 'l']
  | .bool true => ['t', 'r', 'u', 'e']
  | .bool false => ['f', 'a', 'l', 's', 'e']
  | .number literal => literal
  | .string text => quoted (text.getD "")
  | .array elements => '[' :: elementChars elements ++ [']']
  | .object members => '\x7b' :: memberChars members ++ ['\x7d']

def elementChars : List Json → List Char
  | [] => []
  | [v] => v.chars
  | v :: rest => v.chars ++ ',' :: elementChars rest

def memberChars : List (Option String × Json) → List Char
  | [] => []
  | [(k, v)] => quoted (k.getD "") ++ ':' :: v.chars
  | (k, v) :: rest => quoted (k.getD "") ++ ':' :: v.chars ++ ',' :: memberChars rest

end

def text (j : Json) : String := .ofList j.chars

mutual

/-- The value with a patch laid over it: objects are merged key by key, anything else is replaced. -/
def merge (base : Json) : Json → Json
  | .object patch =>
    match base with
    | .object members => .object (mergeMembers members patch)
    | _ => .object patch
  | patch => patch

def mergeMembers (members : List (Option String × Json)) :
    List (Option String × Json) → List (Option String × Json)
  | [] => members
  | (key, v) :: rest =>
    let merged :=
      match members.lookup key with
      | some old => members.map fun (k, w) => (k, if k = key then merge old v else w)
      | none => members ++ [(key, v)]
    mergeMembers merged rest

end

end Json

end Outbox
