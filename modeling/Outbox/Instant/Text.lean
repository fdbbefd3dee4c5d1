import Outbox.Instant
import Outbox.Text.Decimal
import Outbox.Text.Blank

/-!
Instants as RFC 3339 text. Written in UTC with the fewest of 0, 3, 6 or 9 digits of fraction that
are exact; years outside 0000 to 9999 carry a sign. Read with any offset and in any spacing.
-/

namespace Outbox.Instant

open Decimal (padded value)

/-- Four digits, with a sign for the years outside 0 to 9999. -/
def yearText (y : Int) : List Char :=
  if 0 ≤ y ∧ y ≤ 9999 then padded 4 y.toNat
  else (if y < 0 then '-' else '+') :: padded 4 y.natAbs

/-- The fewest of 0, 3, 6 or 9 digits that are exact. -/
def fractionText (nano : Nat) : List Char :=
  if nano = 0 then []
  else if nano % 1000000 = 0 then '.' :: padded 3 (nano / 1000000)
  else if nano % 1000 = 0 then '.' :: padded 6 (nano / 1000)
  else '.' :: padded 9 nano

def date (t : Instant) : Date := .ofDayNumber (t.second / 86400)

def clock (t : Instant) : Nat := (t.second % 86400).toNat

/-- A leap second is written as second 60. -/
def chars (t : Instant) : List Char :=
  let d := t.date
  let s := t.clock
  let leap := if t.isLeap then 1 else 0
  yearText d.year ++ '-' :: padded 2 d.month ++ '-' :: padded 2 d.day
    ++ 'T' :: padded 2 (s / 3600) ++ ':' :: padded 2 (s / 60 % 60) ++ ':' :: padded 2 (s % 60 + leap)
    ++ fractionText (t.nano - leap * 1000000000) ++ ['Z']

def text (t : Instant) : String := .ofList t.chars

namespace Reader

def mark? (c : Char) (cs : List Char) : Option (List Char) :=
  match skipBlanks cs with
  | d :: rest => if d = c then some rest else none
  | [] => none

/-- Blanks, then a number of one or two digits. -/
def pair? (cs : List Char) : Option (Nat × List Char) := Decimal.read? 2 (skipBlanks cs)

/-- Blanks, then up to four digits, or any number of digits after a sign. -/
def year? (cs : List Char) : Option (Int × List Char) :=
  match skipBlanks cs with
  | '+' :: rest => (Decimal.read? rest.length rest).map fun (n, rest) => ((n : Int), rest)
  | '-' :: rest => (Decimal.read? rest.length rest).map fun (n, rest) => (-(n : Int), rest)
  | rest => (Decimal.read? 4 rest).map fun (n, rest) => ((n : Int), rest)

/-- An optional point and digits; those after the ninth are dropped. -/
def fraction? : List Char → Option (Nat × List Char)
  | '.' :: rest =>
    match Decimal.run 9 rest with
    | ([], _) => none
    | (ds, rest) => some (value ds * Nat.pow 10 (9 - ds.length), rest.dropWhile Char.isDigit)
  | rest => some (0, rest)

/-- Minutes east of UTC: `Z`, `UTC`, or a sign, two digits of hours and two of minutes. -/
def offset? (cs : List Char) : Option (Int × List Char) :=
  match cs with
  | 'Z' :: rest | 'z' :: rest => some (0, rest)
  | u :: t :: c :: rest =>
    if u.toUpper = 'U' ∧ t.toUpper = 'T' ∧ c.toUpper = 'C' then some (0, rest) else signed cs
  | _ => signed cs
where
  signed : List Char → Option (Int × List Char)
    | '+' :: rest => magnitude rest
    | '-' :: rest | '−' :: rest => (magnitude rest).map fun (n, rest) => (-n, rest)
    | _ => none
  magnitude : List Char → Option (Int × List Char)
    | a :: b :: rest =>
      if a.isDigit && b.isDigit then
        match rest.dropWhile fun c => c = ':' || isBlank c with
        | c :: d :: rest =>
          if c.isDigit && d.isDigit && c < '6' && value [a, b] < 24 then
            some (value [a, b] * 60 + value [c, d], rest)
          else none
        | _ => none
      else none
    | _ => none

end Reader

open Reader in
/-- Reads a date, `T`, `t` or a blank, a time of day and an offset. Second 60 is a leap second.
The date as written and the instant in UTC both have to be in the calendar. -/
def ofChars? (cs : List Char) : Option Instant := do
  let (year, cs) ← year? cs
  let cs ← mark? '-' cs
  let (month, cs) ← pair? cs
  let cs ← mark? '-' cs
  let (day, cs) ← pair? cs
  let cs ← match cs with
    | 'T' :: cs | 't' :: cs | ' ' :: cs => some cs
    | _ => none
  let (hour, cs) ← pair? cs
  let cs ← mark? ':' cs
  let (minute, cs) ← pair? cs
  let cs ← mark? ':' cs
  let (second, cs) ← pair? cs
  let (nano, cs) ← fraction? cs
  let (offset, cs) ← offset? (skipBlanks cs)
  let date : Date := { year, month, day }
  if date.isValid ∧ (ofDay? date.dayNumber).isSome ∧ hour < 24 ∧ minute < 60 ∧ second ≤ 60
      ∧ skipBlanks cs = [] then
    let seconds := date.dayNumber * 86400 + hour * 3600 + (minute - offset) * 60
    if second = 60 then make? (seconds + 59) (nano + 1000000000) else make? (seconds + second) nano
  else none

def ofText? (s : String) : Option Instant := ofChars? s.toList

end Outbox.Instant
