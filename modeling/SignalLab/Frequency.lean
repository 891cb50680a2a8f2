import SignalLab.Decimal.Read
import SignalLab.Number

/-!
# Sampling frequencies

A market is sampled every so many units of time. A frequency is written as a whole number from 1 to
2^32 - 1 and the letters of its unit, as in `15m` or `3mo`, with nothing before, between or after.

All units but the month have a fixed length. A year has twelve months, and 365.25 days of every other
unit. A length of time is a whole number of seconds, of which there is a largest one: lengths of time
are those of the package `chrono`, which is not part of this repository, and that they end there
(`longestLength`, `lengthOf?`) is assumed of it.
-/

namespace SignalLab

/-! ## Units -/

/-- A unit of time. -/
inductive TimeUnit
  | seconds
  | minutes
  | hours
  | days
  | weeks
  | months
  deriving DecidableEq, Repr

namespace TimeUnit

/-- The letters of a unit. -/
def letters : TimeUnit → String
  | .seconds => "s"
  | .minutes => "m"
  | .hours => "h"
  | .days => "d"
  | .weeks => "w"
  | .months => "mo"

/-- The unit with the given letters. -/
def ofLetters? : String → Option TimeUnit
  | "s" => some .seconds
  | "m" => some .minutes
  | "h" => some .hours
  | "d" => some .days
  | "w" => some .weeks
  | "mo" => some .months
  | _ => none

/-- The length of a unit in seconds, if it has a fixed one. -/
def seconds? : TimeUnit → Option Nat
  | .seconds => some 1
  | .minutes => some 60
  | .hours => some 3600
  | .days => some 86400
  | .weeks => some 604800
  | .months => none

end TimeUnit

/-! ## Frequencies -/

/-- How often a market is sampled. -/
structure Frequency where
  amount : UInt32
  unit : TimeUnit
  deriving DecidableEq, Repr

/-- Why a text is not a frequency. -/
inductive FrequencyFault
  | noNumber (text : String)
  | badAmount (text : String) (fault : Decimal.WholeFault)
  | zeroAmount (text : String)
  | unknownUnit (text letters : String)
  deriving DecidableEq, Repr

/-- The text of a fault. -/
def FrequencyFault.message : FrequencyFault → String
  | .noNumber text => s!"'{text}' must start with a number"
  | .badAmount text fault =>
    let reason := fault.message
    s!"'{text}' has an invalid amount: {reason}"
  | .zeroAmount text => s!"'{text}' must have an amount above zero"
  | .unknownUnit text letters => s!"'{text}' has unknown unit '{letters}' (use s, m, h, d, w, mo)"

/-- The number of days in a year, in seconds. -/
def secondsPerYear : Nat := 31557600

/-- The number of months in a year. -/
def monthsPerYear : Nat := 12

/-- The longest length of time in seconds: its milliseconds fit a signed word of 64 bits. -/
def longestLength : Nat := 9223372036854775

/-- The length of as many units of so many seconds, unless it is too long. -/
def lengthOf? (count seconds : Nat) : Option Nat :=
  if count * seconds ≤ longestLength then some (count * seconds) else none

namespace Frequency

/-- Once a day. -/
def daily : Frequency := ⟨1, .days⟩

/-- The frequency that a text writes. -/
def ofText (text : String) : Except FrequencyFault Frequency :=
  let digits := text.toList.takeWhile Char.isDigit
  let letters := String.ofList (text.toList.dropWhile Char.isDigit)
  if digits.isEmpty then .error (.noNumber text)
  else
    match Decimal.readDigits (UInt32.size - 1) .tooLarge 0 digits with
    | .error fault => .error (.badAmount text fault)
    | .ok 0 => .error (.zeroAmount text)
    | .ok amount =>
      match TimeUnit.ofLetters? letters with
      | none => .error (.unknownUnit text letters)
      | some unit => .ok ⟨amount.toUInt32, unit⟩

/-- The text of a frequency. -/
def text (f : Frequency) : String := toString f.amount.toNat ++ f.unit.letters

/-- The length of one step in seconds, if it is fixed. -/
def period? (f : Frequency) : Option Nat :=
  match f.unit with
  | .seconds => lengthOf? f.amount.toNat 1
  | .minutes => lengthOf? f.amount.toNat 60
  | .hours => lengthOf? f.amount.toNat 3600
  | .days => lengthOf? f.amount.toNat 86400
  | .weeks => lengthOf? f.amount.toNat 604800
  | .months => none

/-- How many steps a year has. -/
def periodsPerYear {α : Type} [Number α] (f : Frequency) : α :=
  let amount : α := Number.ofCount f.amount.toNat
  match f.unit.seconds? with
  | none => Number.ofCount monthsPerYear / amount
  | some seconds => Number.ofCount secondsPerYear / (amount * Number.ofCount seconds)

end Frequency

end SignalLab
