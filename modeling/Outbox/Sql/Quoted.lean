/-!
Quoting for SQL: a quotation mark inside is written twice. `unescape?_escape` says that nothing is
lost, so a name in quotes stands for itself whatever characters it has.
-/

namespace Outbox.Sql

/-- Every `mark` is written twice. -/
def escape (mark : Char) (cs : List Char) : List Char :=
  cs.flatMap fun c => if c = mark then [mark, mark] else [c]

/-- Refuses a mark that stands alone. -/
def unescape? (mark : Char) : List Char → Option (List Char)
  | [] => some []
  | [c] => if c = mark then none else some [c]
  | c :: d :: rest =>
    if c = mark then if d = mark then (unescape? mark rest).map (mark :: ·) else none
    else (unescape? mark (d :: rest)).map (c :: ·)

def quoted (mark : Char) (text : String) : List Char := mark :: escape mark text.toList ++ [mark]

theorem unescape?_cons_of_ne {mark c : Char} (h : c ≠ mark) (cs : List Char) :
    unescape? mark (c :: cs) = (unescape? mark cs).map (c :: ·) := by
  cases cs <;> simp [unescape?, h]

theorem unescape?_escape (mark : Char) (cs : List Char) :
    unescape? mark (escape mark cs) = some cs := by
  induction cs with
  | nil => rfl
  | cons c rest ih =>
    have cons : escape mark (c :: rest) = (if c = mark then [mark, mark] else [c]) ++ escape mark rest := rfl
    rw [cons]
    split
    · rename_i h
      simp [unescape?, ih, h]
    · rename_i h
      simp [unescape?_cons_of_ne h, ih]

end Outbox.Sql
