import Outbox.Sql.Statement

/-!
SQL text cut into tokens. What stands in quotation marks is one token whatever characters it has, so a text
put together from fragments that do not run into one another has the tokens of its fragments
(`tokens?_fragments`).
-/

namespace Outbox.Sql

inductive Token where
  /-- A key word, a name without quotation marks or a number. -/
  | word (text : String)
  /-- The place of a value: `$1` and so on. -/
  | place (n : Nat)
  | symbol (text : String)
  /-- What a quotation stands for: double marks are put around names, single ones around constants. -/
  | quoted (mark : Char) (text : String)
  deriving DecidableEq

namespace Token

abbrev name (identifier : String) : Token := .quoted '"' identifier

abbrev literal (text : String) : Token := .quoted '\x27' text

def place? : Token → Option Nat
  | .place n => some n
  | _ => none

end Token

def isSpace (c : Char) : Bool := c = ' ' || 9 ≤ c.toNat && c.toNat ≤ 13

def isWordChar (c : Char) : Bool := c.isAlphanum || c = '_' || 128 ≤ c.toNat

def isMark (c : Char) : Bool := c = '"' || c = '\x27'

/-- Characters that are a token each. -/
def isPunctuation (c : Char) : Bool := c ∈ [',', '(', ')', '[', ']', ';', '.']

/-- Characters that make a symbol with those of their kind beside them. -/
def isOperator (c : Char) : Bool :=
  c ∈ ['+', '-', '*', '/', '<', '>', '=', '~', '!', '@', '#', '%', '^', '&', '|', '\x60', '?', ':']

/-- How far a text was read: the token under way and what was read of it. -/
inductive Lexer where
  | between
  | word (text : List Char)
  | place (digits : List Char)
  | symbol (text : List Char)
  | inside (mark : Char) (text : List Char)
  /-- Within a quotation its mark was read: the quotation is over unless the mark comes again. -/
  | marked (mark : Char) (text : List Char)
  deriving DecidableEq

namespace Lexer

def pending? : Lexer → Option (List Token)
  | between => some []
  | word text => some [.word (.ofList text)]
  | place digits => if digits = [] then none else some [.place (Decimal.value digits)]
  | symbol text => some [.symbol (.ofList text)]
  | inside _ _ => none
  | marked mark text => some [.quoted mark (.ofList text)]

def start? (c : Char) : Option (Lexer × List Token) :=
  if isSpace c then some (between, [])
  else if isMark c then some (inside c [], [])
  else if isWordChar c then some (word [c], [])
  else if c = '$' then some (place [], [])
  else if isPunctuation c then some (between, [.symbol (.ofList [c])])
  else if isOperator c then some (symbol [c], [])
  else none

/-- Whether a character cannot belong to the token under way. One that would make a comment, a constant in
dollar marks or a quotation with a prefix out of it neither belongs to the token nor ends it. -/
def ends : Lexer → Char → Bool
  | between, _ => true
  | word _, c => !isWordChar c && c ≠ '$' && !isMark c
  | place _, c => !isWordChar c && c ≠ '$'
  | symbol text, c => !isOperator c && !(text.getLast? = some '&' && isMark c)
  | inside _ _, _ => false
  | marked mark _, c => c ≠ mark

def extend? : Lexer → Char → Option Lexer
  | between, _ => none
  | word text, c => if isWordChar c ∨ c = '$' then some (word (text ++ [c])) else none
  | place digits, c => if c.isDigit then some (place (digits ++ [c])) else none
  | symbol text, c =>
    let comment := text.getLast? = some '-' ∧ c = '-' ∨ text.getLast? = some '/' ∧ c = '*'
    if isOperator c ∧ ¬ comment then some (symbol (text ++ [c])) else none
  | inside mark text, c => if c = mark then some (marked mark text) else some (inside mark (text ++ [c]))
  | marked mark text, c => if c = mark then some (inside mark (text ++ [c])) else none

/-- Reads a character; the tokens are those that it ended. -/
def step (s : Lexer) (c : Char) : Option (Lexer × List Token) :=
  if s.ends c then do
    let done ← s.pending?
    let (s, more) ← start? c
    return (s, done ++ more)
  else (s.extend? c).map (·, [])

def feed (s : Lexer) : List Char → Option (Lexer × List Token)
  | [] => some (s, [])
  | c :: rest => do
    let (s, tokens) ← s.step c
    let (s, more) ← s.feed rest
    return (s, tokens ++ more)

def finish? (s : Lexer) (cs : List Char) : Option (List Token) := do
  let (s, tokens) ← s.feed cs
  let last ← s.pending?
  return tokens ++ last

end Lexer

/-- The tokens of a text, if it is one of whole tokens and has no comments. -/
def tokens? (cs : List Char) : Option (List Token) := Lexer.between.finish? cs

namespace Lexer

theorem feed_append (s : Lexer) (xs ys : List Char) :
    s.feed (xs ++ ys) = (s.feed xs).bind fun (s, tokens) =>
      (s.feed ys).map fun (s, more) => (s, tokens ++ more) := by
  induction xs generalizing s with
  | nil => simp [feed]
  | cons c rest ih =>
    simp only [List.cons_append, feed, ih, bind, Option.bind_assoc, pure]
    cases s.step c with
    | none => rfl
    | some read =>
      simp only [Option.bind_some]
      cases read.1.feed rest with
      | none => rfl
      | some after =>
        simp only [Option.bind_some, Option.map_eq_bind, Option.bind_assoc, Function.comp_def,
          List.append_assoc]

theorem finish?_append {s s' : Lexer} {xs : List Char} {tokens : List Token}
    (read : s.feed xs = some (s', tokens)) (ys : List Char) :
    s.finish? (xs ++ ys) = (s'.finish? ys).map (tokens ++ ·) := by
  simp only [finish?, feed_append, read, bind, pure, Option.bind_some, Option.map_eq_bind, Option.bind_assoc,
    Function.comp_def, List.append_assoc]

/-- A character that ends a token is read as if it were the first. -/
theorem finish?_of_ends {s : Lexer} {c : Char} {done : List Token} (ending : s.ends c)
    (pending : s.pending? = some done) (rest : List Char) :
    s.finish? (c :: rest) = (between.finish? (c :: rest)).map (done ++ ·) := by
  have first : between.ends c := rfl
  have none : between.pending? = some [] := rfl
  simp only [finish?, feed, step, if_pos ending, if_pos first, pending, none, bind, pure, Option.bind_some,
    Option.map_eq_bind, Option.bind_assoc, Function.comp_def, List.append_assoc, List.nil_append]

/-- A quotation is read to its end, also where its mark is part of it. -/
theorem feed_escape (mark : Char) (text cs : List Char) :
    (inside mark text).feed (escape mark cs) = some (inside mark (text ++ cs), []) := by
  induction cs generalizing text with
  | nil => simp [feed, escape]
  | cons c rest ih =>
    have cons : escape mark (c :: rest) = (if c = mark then [mark, mark] else [c]) ++ escape mark rest := rfl
    rw [cons, feed_append]
    by_cases same : c = mark
    · subst same
      simp [feed, step, ends, extend?, ih]
    · simp [feed, step, ends, extend?, ih, same]

theorem feed_quoted {mark : Char} (isMark : isMark mark) (text : String) :
    between.feed (quoted mark text) = some (marked mark text.toList, []) := by
  have opens : start? mark = some (inside mark [], []) := by
    simp only [Sql.isMark, Bool.or_eq_true, decide_eq_true_eq] at isMark
    rcases isMark with rfl | rfl <;> decide
  have first : between.step mark = some (inside mark [], []) := by simp [step, ends, pending?, opens]
  have body : (inside mark []).feed (escape mark text.toList ++ [mark]) =
      some (marked mark text.toList, []) := by
    rw [feed_append, feed_escape]
    simp [feed, step, ends, extend?]
  simp [quoted, feed, first, body]

end Lexer

/-! ### Fragments that do not run into one another -/

namespace Fragment

def tokens : Fragment → List Token
  | .plain text => (tokens? text.toList).getD []
  | .name identifier => [.name identifier]
  | .literal text => [.literal text]

/-- How far a text is read at the end of the fragment, if that is the end of a token. -/
def last? : Fragment → Option Lexer
  | .plain text => (Lexer.between.feed text.toList).bind fun (s, _) => s.pending?.map fun _ => s
  | .name identifier => some (.marked '"' identifier.toList)
  | .literal text => some (.marked '\x27' text.toList)

def first? : Fragment → Option Char
  | .plain text => text.toList.head?
  | .name _ => some '"'
  | .literal _ => some '\x27'

/-- The second fragment starts with a character that ends the last token of the first. -/
def apart (f g : Fragment) : Bool :=
  match f.last?, g.first? with
  | some s, some c => s.ends c
  | _, _ => false

end Fragment

def apart : List Fragment → Bool
  | [] => true
  | [f] => f.last?.isSome
  | f :: g :: rest => f.apart g && apart (g :: rest)

theorem Fragment.feed_chars {f : Fragment} {s : Lexer} (last : f.last? = some s) :
    ∃ tokens done, Lexer.between.feed f.chars = some (s, tokens) ∧ s.pending? = some done ∧
      tokens ++ done = f.tokens := by
  cases f with
  | plain text =>
    simp only [last?, Option.bind_eq_some_iff, Option.map_eq_some_iff] at last
    obtain ⟨⟨s', tokens⟩, read, done, pending, rfl⟩ := last
    refine ⟨tokens, done, read, pending, ?_⟩
    simp [Fragment.tokens, tokens?, Lexer.finish?, read, pending]
  | name identifier =>
    cases last
    exact ⟨[], _, Lexer.feed_quoted rfl identifier, rfl, by simp [Fragment.tokens]⟩
  | literal text =>
    cases last
    exact ⟨[], _, Lexer.feed_quoted rfl text, rfl, by simp [Fragment.tokens]⟩

theorem Fragment.chars_of_first? {f : Fragment} {c : Char} (first : f.first? = some c) :
    ∃ rest, f.chars = c :: rest := by
  cases f with
  | plain text => exact List.head?_eq_some_iff.mp first
  | name _ | literal _ =>
    cases first
    exact ⟨_, rfl⟩

/-- Fragments that are apart have the tokens that they have alone. -/
theorem tokens?_fragments {fragments : List Fragment} (h : apart fragments) :
    tokens? (fragments.flatMap Fragment.chars) = some (fragments.flatMap Fragment.tokens) := by
  induction fragments with
  | nil => rfl
  | cons f rest ih =>
    cases rest with
    | nil =>
      obtain ⟨s, last⟩ := Option.isSome_iff_exists.mp h
      obtain ⟨tokens, done, read, pending, both⟩ := f.feed_chars last
      simp [tokens?, Lexer.finish?, read, pending, both]
    | cons g rest =>
      obtain ⟨boundary, h⟩ := Bool.and_eq_true_iff.mp h
      unfold Fragment.apart at boundary
      split at boundary
      · rename_i s c last first
        obtain ⟨tokens, done, read, pending, both⟩ := f.feed_chars last
        obtain ⟨tail, starts⟩ := g.chars_of_first? first
        have next : (g :: rest).flatMap Fragment.chars = c :: (tail ++ rest.flatMap Fragment.chars) := by
          rw [List.flatMap_cons, starts, List.cons_append]
        have ih := ih h
        rw [tokens?, next] at ih
        rw [tokens?, List.flatMap_cons, next, Lexer.finish?_append read,
          Lexer.finish?_of_ends boundary pending, ih]
        simp [← both]
      · cases boundary

end Outbox.Sql
