import Outbox.Json.Parser
import Outbox.Proofs.Numerals

/-!
Reading back the text of a JSON value (`parse?_text`). What can be read back are the values a writer
makes: numbers are integers, and every string and every key has a text.
-/

namespace Outbox.Json

open Decimal

inductive Written : Json → Prop
  | null : Written .null
  | bool (b : Bool) : Written (.bool b)
  | int (n : Int) : Written (.ofInt n)
  | string (s : String) : Written (.ofString s)
  | array {vs : List Json} (values : ∀ v ∈ vs, Written v) : Written (.array vs)
  | object {ms : List (Option String × Json)} (keys : ∀ m ∈ ms, m.1.isSome)
      (values : ∀ m ∈ ms, Written m.2) : Written (.object ms)

/-- What may follow a value in the text of another: nothing, or a comma or closing bracket. -/
def Ends (rest : List Char) : Prop := ∀ c ∈ rest.head?, c = ',' ∨ c = ']' ∨ c = '\x7d'

namespace Parser

variable {rest : List Char} {fuel : Nat}

theorem noDigit_of_ends (ends : Ends rest) : NoDigit rest := by
  intro c first
  rcases ends c first with rfl | rfl | rfl <;> rfl

/-! ### Numbers -/

theorem digits?_append {ds : List Char} (digit : ∀ c ∈ ds, c.isDigit) (some_digit : ds ≠ [])
    (stop : NoDigit rest) : digits? (ds ++ rest) = some (ds, rest) := by
  rw [digits?, takeWhile_isDigit digit stop, dropWhile_isDigit digit stop]
  cases ds with
  | nil => exact absurd rfl some_digit
  | cons d ds => rfl

theorem whole?_digits (n : Nat) (stop : NoDigit rest) :
    whole? (digits n ++ rest) = some (digits n, rest) := by
  rcases Nat.eq_zero_or_pos n with rfl | positive
  · rfl
  · have first := head?_digits positive
    rw [← digits?_append (fun _ => isDigit_of_mem_digits) digits_ne_nil stop]
    cases shape : digits n with
    | nil => exact absurd shape digits_ne_nil
    | cons d ds =>
      have nonzero : d ≠ '0' := by simpa [shape] using first
      unfold whole?
      split
      · next zero => exact absurd (List.cons.inj zero).1 nonzero
      · rfl

theorem fraction?_of_ends (ends : Ends rest) : fraction? rest = some ([], rest) := by
  unfold fraction?
  split
  · next point => simpa using ends '.' (by rfl)
  · rfl

theorem exponent?_of_ends (ends : Ends rest) : exponent? rest = some ([], rest) := by
  cases rest with
  | nil => rfl
  | cons c rest => rcases ends c rfl with rfl | rfl | rfl <;> rfl

theorem number?_signed (n : Int) (ends : Ends rest) :
    number? (signed n ++ rest) = some (signed n, rest) := by
  have stop := noDigit_of_ends ends
  cases n with
  | negSucc n =>
    simp [number?, signed, whole?_digits _ stop, fraction?_of_ends ends, exponent?_of_ends ends]
  | ofNat n =>
    have whole := whole?_digits n stop
    rw [show signed (.ofNat n) = digits n from rfl]
    cases shape : digits n with
    | nil => exact absurd shape digits_ne_nil
    | cons d ds =>
      have digit : d.isDigit := isDigit_of_mem_digits (shape ▸ List.mem_cons_self)
      have unsigned : d ≠ '-' := by rintro rfl; exact absurd digit (by decide)
      rw [shape, List.cons_append] at whole
      simp [number?, unsigned, whole, fraction?_of_ends ends, exponent?_of_ends ends]

/-! ### Strings -/

/-- The last two of the four hexadecimal digits of a control character. -/
theorem unit?_control : ∀ n < 0x20, unit? '0' '0' (Nat.digitChar (n / 16)) (Nat.digitChar (n % 16)) = some n := by
  decide

theorem content?_plain {c : Char} (quote : c ≠ '"') (backslash : c ≠ '\\') (plain : ¬ c.toNat < 0x20) :
    content? (c :: rest) = (content? rest).map fun (us, after) => (c.toNat :: us, after) := by
  rw [content?.eq_def]
  split
  case h_5 same =>
    obtain ⟨rfl, rfl⟩ := List.cons.inj same
    rw [if_neg plain]
  all_goals simp_all

theorem content?_escape (c : Char) (rest : List Char) :
    content? (escape c ++ rest) = (content? rest).map fun (us, after) => (c.toNat :: us, after) := by
  unfold escape
  split
  case h_8 quote backslash _ _ _ _ _ =>
    split
    · next control => simp only [List.cons_append, List.nil_append, content?, unit?_control _ control]
    · next plain => exact content?_plain quote backslash plain
  all_goals rfl

theorem content?_quoted (cs rest : List Char) :
    content? (cs.flatMap escape ++ '"' :: rest) = some (cs.map Char.toNat, rest) := by
  induction cs with
  | nil => rfl
  | cons c cs ih =>
    rw [List.flatMap_cons, List.append_assoc, content?_escape, ih]
    rfl

theorem not_surrogate (c : Char) : isHigh c.toNat = false ∧ isLow c.toNat = false := by
  have valid : c.toNat < 0xD800 ∨ 0xDFFF < c.toNat ∧ c.toNat < 0x110000 := c.valid
  simp only [isHigh, isLow, Bool.and_eq_false_iff, decide_eq_false_iff_not]
  omega

theorem join?_map_toNat : ∀ cs : List Char, join? (cs.map Char.toNat) = some cs
  | [] => rfl
  | [c] => by
    obtain ⟨high, low⟩ := not_surrogate c
    simp [join?, high, low]
  | c :: d :: cs => by
    obtain ⟨high, low⟩ := not_surrogate c
    have ih := join?_map_toNat (d :: cs)
    simp only [List.map_cons] at ih ⊢
    simp [join?, high, low, ih]

theorem string?_quoted (s : String) (rest : List Char) :
    string? (s.toList.flatMap escape ++ '"' :: rest) = some (some s, rest) := by
  simp [string?, content?_quoted, join?_map_toNat]

/-! ### Values -/

theorem skipSpace_cons {c : Char} {cs : List Char} (h : isSpace c = false) :
    skipSpace (c :: cs) = c :: cs := by simp [skipSpace, h]

/-- The text of a value is read back in front of anything that may follow it. -/
def ReadsBack (v : Json) : Prop :=
  ∀ (fuel : Nat) (rest : List Char), 2 * v.chars.length ≤ fuel → Ends rest →
    value? fuel (v.chars ++ rest) = some (v, rest)

theorem elements?_elementChars {vs : List Json} (back : ∀ v ∈ vs, ReadsBack v) (nonempty : vs ≠ [])
    (fuel : Nat) (enough : 2 * (elementChars vs).length + 1 ≤ fuel) :
    elements? fuel (elementChars vs ++ ']' :: rest) = some (vs, rest) := by
  induction vs generalizing fuel with
  | nil => exact absurd rfl nonempty
  | cons v vs ih =>
    obtain ⟨head, tail⟩ := List.forall_mem_cons.mp back
    obtain _ | fuel := fuel
    · omega
    cases vs with
    | nil =>
      simp only [elementChars] at enough
      have here := head fuel (']' :: rest) (by omega) (by simp [Ends])
      simp [elementChars, elements?, here, skipSpace_cons, isSpace]
    | cons w ws =>
      simp only [elementChars, List.length_append, List.length_cons] at enough
      have here := head fuel (',' :: (elementChars (w :: ws) ++ ']' :: rest)) (by omega) (by simp [Ends])
      have there := ih tail (by simp) fuel (by omega)
      simp [elementChars, elements?, here, there, skipSpace_cons, isSpace]

theorem members?_memberChars {ms : List (Option String × Json)} (keys : ∀ m ∈ ms, m.1.isSome)
    (back : ∀ m ∈ ms, ReadsBack m.2) (nonempty : ms ≠ [])
    (fuel : Nat) (enough : 2 * (memberChars ms).length + 1 ≤ fuel) :
    members? fuel (memberChars ms ++ '\x7d' :: rest) = some (ms, rest) := by
  induction ms generalizing fuel with
  | nil => exact absurd rfl nonempty
  | cons m ms ih =>
    obtain ⟨_ | k, v⟩ := m
    · exact absurd (keys _ List.mem_cons_self) (by simp)
    obtain ⟨head : ReadsBack v, tail⟩ := List.forall_mem_cons.mp back
    obtain _ | fuel := fuel
    · omega
    cases ms with
    | nil =>
      simp only [memberChars, quoted, List.length_append, List.length_cons] at enough
      have here := head fuel ('\x7d' :: rest) (by omega) (by simp [Ends])
      simp [memberChars, quoted, members?, string?_quoted, here, skipSpace_cons, isSpace]
    | cons w ws =>
      simp only [memberChars, quoted, List.length_append, List.length_cons] at enough
      have here := head fuel (',' :: (memberChars (w :: ws) ++ '\x7d' :: rest)) (by omega)
        (by simp [Ends])
      have there := ih (fun m h => keys m (List.mem_cons_of_mem _ h)) tail (by simp) fuel (by omega)
      simp [memberChars, quoted, members?, string?_quoted, here, there, skipSpace_cons, isSpace]

theorem head_signed (n : Int) : ∃ c cs, signed n = c :: cs ∧ (c.isDigit ∨ c = '-') := by
  cases n with
  | negSucc n => exact ⟨_, _, rfl, .inr rfl⟩
  | ofNat n =>
    cases shape : digits n with
    | nil => exact absurd shape digits_ne_nil
    | cons d ds => exact ⟨d, ds, shape, .inl (isDigit_of_mem_digits (shape ▸ List.mem_cons_self))⟩

theorem isSpace_of_number {c : Char} (start : c.isDigit ∨ c = '-') : isSpace c = false := by
  rcases start with digit | rfl
  · simp only [isSpace, Bool.or_eq_false_iff, decide_eq_false_iff_not]
    refine ⟨⟨⟨?_, ?_⟩, ?_⟩, ?_⟩ <;> rintro rfl <;> cases digit
  · rfl

theorem head_of_written {v : Json} (written : Written v) :
    ∃ c cs, v.chars = c :: cs ∧ isSpace c = false ∧ c ≠ ']' := by
  cases written with
  | bool b => cases b <;> exact ⟨_, _, rfl, rfl, by decide⟩
  | int n =>
    obtain ⟨c, cs, shape, start⟩ := head_signed n
    refine ⟨c, cs, shape, isSpace_of_number start, ?_⟩
    rintro rfl
    rcases start with digit | minus
    · cases digit
    · cases minus
  | _ => exact ⟨_, _, rfl, rfl, by decide⟩

theorem value?_number {c : Char} {cs : List Char} (start : c.isDigit ∨ c = '-') :
    value? (fuel + 1) (c :: cs) = (number? (c :: cs)).map fun (literal, rest) => (.number literal, rest) := by
  rw [value?, skipSpace_cons (isSpace_of_number start)]
  split <;> simp_all

theorem readsBack_array {vs : List Json} (back : ∀ v ∈ vs, ReadsBack v)
    (starts : ∀ v ∈ vs, ∃ c cs, v.chars = c :: cs ∧ isSpace c = false ∧ c ≠ ']') :
    ReadsBack (.array vs) := by
  intro fuel rest enough ends
  simp only [chars, List.length_append, List.length_cons, List.length_nil] at enough
  obtain _ | fuel := fuel
  · omega
  cases vs with
  | nil => simp [chars, elementChars, value?, skipSpace_cons, isSpace]
  | cons v vs =>
    have inside : elements? fuel (elementChars (v :: vs) ++ ']' :: rest) = some (v :: vs, rest) :=
      elements?_elementChars back (by simp) fuel (by omega)
    have bracket : isSpace '[' = false := rfl
    obtain ⟨c, cs, shape, solid, going⟩ := starts v List.mem_cons_self
    obtain ⟨cs', start⟩ : ∃ cs', elementChars (v :: vs) = c :: cs' := by
      cases vs <;> simp [elementChars, shape]
    rw [start, List.cons_append] at inside
    simp [chars, start, value?, skipSpace_cons, bracket, solid, going, inside]

theorem readsBack_object {ms : List (Option String × Json)} (keys : ∀ m ∈ ms, m.1.isSome)
    (back : ∀ m ∈ ms, ReadsBack m.2) : ReadsBack (.object ms) := by
  intro fuel rest enough ends
  simp only [chars, List.length_append, List.length_cons, List.length_nil] at enough
  obtain _ | fuel := fuel
  · omega
  cases ms with
  | nil => simp [chars, memberChars, value?, skipSpace_cons, isSpace]
  | cons m ms =>
    have inside : members? fuel (memberChars (m :: ms) ++ '\x7d' :: rest) = some (m :: ms, rest) :=
      members?_memberChars keys back (by simp) fuel (by omega)
    obtain ⟨cs, start⟩ : ∃ cs, memberChars (m :: ms) = '"' :: cs := by
      cases ms <;> simp [memberChars, quoted]
    rw [start, List.cons_append] at inside
    simp [chars, start, value?, skipSpace_cons, isSpace, inside]

theorem readsBack_of_written {v : Json} (written : Written v) : ReadsBack v := by
  induction written with
  | array values ih => exact readsBack_array ih fun v member => head_of_written (values v member)
  | object keys values ih => exact readsBack_object keys ih
  | null =>
    intro fuel rest enough ends
    obtain _ | fuel := fuel
    · simp [chars] at enough
    · simp [chars, value?, skipSpace_cons, isSpace]
  | bool b =>
    intro fuel rest enough ends
    obtain _ | fuel := fuel
    · cases b <;> simp [chars] at enough
    · cases b <;> simp [chars, value?, skipSpace_cons, isSpace]
  | int n =>
    intro fuel rest enough ends
    obtain ⟨c, cs, shape, start⟩ := head_signed n
    have literal := number?_signed n ends
    have text : (ofInt n).chars = signed n := rfl
    rw [text, shape] at enough
    rw [shape, List.cons_append] at literal
    obtain _ | fuel := fuel
    · simp at enough
    rw [text, shape, List.cons_append, value?_number start, literal]
    simp [ofInt, shape]
  | string s =>
    intro fuel rest enough ends
    obtain _ | fuel := fuel
    · simp [ofString, chars, quoted] at enough
    · simp [ofString, chars, quoted, value?, string?_quoted, skipSpace_cons, isSpace]

end Parser

open Outbox.Json.Parser in
theorem parse?_text {v : Json} (written : Written v) : parse? v.text = some v := by
  have back := readsBack_of_written written (2 * v.chars.length + 1) [] (by omega) (by simp [Ends])
  rw [List.append_nil] at back
  simp [parse?, text, ofChars?, back, skipSpace]

end Outbox.Json
