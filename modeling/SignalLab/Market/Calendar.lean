import SignalLab.Decimal.Read
import SignalLab.Text.Blank

/-!
# Dates

A date is written as year, month and day with hyphens between them. The year has up to four digits, or
any number of digits behind a sign; month and day have up to two. Blanks may stand before each number.

## Which fault is reported

A text is read from the front and the first thing that goes wrong is reported: the text ends early,
another character stands there, or a number is out of the range of its part. What follows a complete
date is a fault of its own, which comes before the question whether such a day exists.

## What is assumed

Dates are read by the package `chrono`, which is not part of this repository. The form above, the order
and the texts of the faults, and the first and the last year of the calendar are assumed of it. Which
rows of a market are kept asks for nothing but the order of the dates.
-/

namespace SignalLab

/-! ## Dates -/

/-- A day of the calendar. -/
structure Date where
  year : Int
  month : Nat
  day : Nat
  deriving DecidableEq, Repr

/-- Why a text is not a date. -/
inductive DateFault
  | endsEarly
  | unexpected
  | outOfRange
  | trailing
  deriving DecidableEq, Repr

/-- The text of a fault. -/
def DateFault.message : DateFault → String
  | .endsEarly => "premature end of input"
  | .unexpected => "input contains invalid characters"
  | .outOfRange => "input is out of range"
  | .trailing => "trailing input"

namespace Date

/-- Whether a date comes no later than another. -/
def le (a b : Date) : Bool :=
  a.year < b.year || (a.year == b.year &&
    (a.month < b.month || (a.month == b.month && a.day ≤ b.day)))

/-- Whether a year has a leap day. -/
def isLeapYear (year : Int) : Bool :=
  year % 4 == 0 && (year % 100 != 0 || year % 400 == 0)

/-- The number of days of a month. -/
def daysInMonth (year : Int) (month : Nat) : Nat :=
  match month with
  | 2 => if isLeapYear year then 29 else 28
  | 4 | 6 | 9 | 11 => 30
  | _ => 31

/-- The first year of the calendar. -/
def firstYear : Int := -262143

/-- The last year of the calendar. -/
def lastYear : Int := 262142

/-- The day with the given parts, if there is one. -/
def ofParts? (year : Int) (month day : Nat) : Option Date :=
  if firstYear ≤ year ∧ year ≤ lastYear ∧ 1 ≤ month ∧ month ≤ 12 ∧ 1 ≤ day
      ∧ day ≤ daysInMonth year month then some ⟨year, month, day⟩
  else none

/-! ## Reading -/

/-- The largest number that the digits of any part may write. -/
def mostDigitsValue : Nat := 0x7fffffffffffffff

/-- The least and the greatest year that may be written. -/
def yearBound : Nat := 0x80000000

/-- Reads at least one digit and at most `most` of them. -/
def readNumber (most : Nat) (cs : List Char) : Except DateFault (Nat × List Char) :=
  let digits := (cs.take most).takeWhile Char.isDigit
  if cs.isEmpty then .error .endsEarly
  else if digits.isEmpty then .error .unexpected
  else if mostDigitsValue < Decimal.ofDigits digits then .error .outOfRange
  else .ok (Decimal.ofDigits digits, cs.drop digits.length)

/-- Reads a year. -/
def readYear (cs : List Char) : Except DateFault (Int × List Char) := do
  let (year, rest) ← match cs with
    | '-' :: rest => do
      let (n, rest) ← readNumber rest.length rest
      pure (-(n : Int), rest)
    | '+' :: rest => do
      let (n, rest) ← readNumber rest.length rest
      pure ((n : Int), rest)
    | cs => do
      let (n, rest) ← readNumber 4 cs
      pure ((n : Int), rest)
  if year < -(yearBound : Int) ∨ (yearBound : Int) ≤ year then .error .outOfRange
  else .ok (year, rest)

/-- Reads a number of up to two digits that lies between one and a bound. -/
def readPart (most : Nat) (cs : List Char) : Except DateFault (Nat × List Char) := do
  let (n, rest) ← readNumber 2 cs
  if n = 0 ∨ most < n then .error .outOfRange else .ok (n, rest)

/-- Passes a hyphen. -/
def readHyphen : List Char → Except DateFault (List Char)
  | [] => .error .endsEarly
  | '-' :: rest => .ok rest
  | _ => .error .unexpected

/-- Passes blanks. -/
def skipBlanks (cs : List Char) : List Char := cs.dropWhile Text.isBlank

/-- The date that a text writes. -/
def ofText (s : String) : Except DateFault Date := do
  let (year, rest) ← readYear (skipBlanks s.toList)
  let rest ← readHyphen rest
  let (month, rest) ← readPart 12 (skipBlanks rest)
  let rest ← readHyphen rest
  let (day, rest) ← readPart 31 (skipBlanks rest)
  if !rest.isEmpty then .error .trailing
  else
    match ofParts? year month day with
    | none => .error .outOfRange
    | some date => .ok date

end Date

end SignalLab
