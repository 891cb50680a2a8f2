/-!
# Reading numbers

`readFloat` reads a floating-point number and `readWhole` a whole number between two bounds.

## The form of a floating-point number

An optional sign is followed by digits with at most one point among them and at least one digit, and
then by an optional exponent: the letter e, an optional sign and at least one digit. In place of the
digits may stand the words `inf`, `infinity` and `nan`, in any case. Nothing else may follow.

The value is the floating-point number nearest to the decimal. A decimal beyond the largest number
reads as infinity and one far below the smallest as zero, so the exponent may have any length.
-/

namespace SignalLab.Decimal

/-! ## Digits -/

/-- The value of a digit. -/
def digitValue (c : Char) : Nat := c.toNat - '0'.toNat

/-- The number that a list of digits writes, the most significant first. -/
def ofDigits (ds : List Char) : Nat :=
  ds.foldl (fun n d => 10 * n + digitValue d) 0

/-- Whether a character is a plus or a minus sign. -/
def isSign (c : Char) : Bool := c == '+' || c == '-'

/-- Splits a sign off the front; its absence counts as plus. The flag says whether it is a minus. -/
def splitSign : List Char → Bool × List Char
  | '+' :: rest => (false, rest)
  | '-' :: rest => (true, rest)
  | cs => (false, cs)

/-! ## Floating-point numbers -/

/-- Why a text is not a floating-point number. -/
inductive FloatFault
  | empty
  | malformed
  deriving DecidableEq, Repr

/-- The text of a fault. -/
def FloatFault.message : FloatFault → String
  | .empty => "cannot parse float from empty string"
  | .malformed => "invalid float literal"

/-- A decimal with this many digits before its point, or more, is beyond every floating-point
number. -/
def mostPlaces : Int := 310

/-- A decimal with so many zeros after its point is below half of the smallest floating-point
number. -/
def leastPlaces : Int := -330

/-- The floating-point number nearest to `m * 10 ^ e`. -/
def nearest (m : Nat) (e : Int) : Float :=
  let places := (Nat.toDigits 10 m).length + e
  if m = 0 || places < leastPlaces then 0.0
  else if mostPlaces < places then 1.0 / 0.0
  else if 0 ≤ e then Float.ofScientific m false e.toNat
  else Float.ofScientific m true (-e).toNat

/-- Reads the exponent at the end of a number; an empty text is the exponent zero. -/
def readExponent? : List Char → Option Int
  | [] => some 0
  | c :: rest =>
    if c == 'e' || c == 'E' then
      let (negative, digits) := splitSign rest
      if digits.isEmpty || !digits.all Char.isDigit then none
      else some (if negative then -(ofDigits digits : Int) else ofDigits digits)
    else none

/-- Reads an unsigned decimal. -/
def readMagnitude? (cs : List Char) : Option Float :=
  let whole := cs.takeWhile Char.isDigit
  let afterWhole := cs.dropWhile Char.isDigit
  let (fraction, rest) := match afterWhole with
    | '.' :: more => (more.takeWhile Char.isDigit, more.dropWhile Char.isDigit)
    | _ => ([], afterWhole)
  if whole.isEmpty && fraction.isEmpty then none
  else
    (readExponent? rest).map fun e => nearest (ofDigits (whole ++ fraction)) (e - fraction.length)

/-- Reads one of the words that stand for a number without digits. -/
def readWord? (cs : List Char) : Option Float :=
  match String.ofList (cs.map Char.toLower) with
  | "inf" | "infinity" => some (1.0 / 0.0)
  | "nan" => some (0.0 / 0.0)
  | _ => none

/-- Reads a floating-point number from the characters of a text. -/
def readFloatChars (cs : List Char) : Except FloatFault Float :=
  if cs.isEmpty then .error .empty
  else
    let (negative, unsigned) := splitSign cs
    match (readMagnitude? unsigned).or (readWord? unsigned) with
    | none => .error .malformed
    | some x => .ok (if negative then -x else x)

/-- Reads a floating-point number. -/
def readFloat (s : String) : Except FloatFault Float :=
  readFloatChars s.toList

/-! ## Whole numbers -/

/-- Why a text is not a whole number within its bounds. -/
inductive WholeFault
  | empty
  | notDigit
  | tooLarge
  | tooSmall
  deriving DecidableEq, Repr

/-- The text of a fault. -/
def WholeFault.message : WholeFault → String
  | .empty => "cannot parse integer from empty string"
  | .notDigit => "invalid digit found in string"
  | .tooLarge => "number too large to fit in target type"
  | .tooSmall => "number too small to fit in target type"

/-- Reads digits after a number `n` already read. The first character that is not a digit, or that
carries the number over the limit, decides the fault. -/
def readDigits (limit : Nat) (overflow : WholeFault) : Nat → List Char → Except WholeFault Nat
  | n, [] => .ok n
  | n, c :: rest =>
    if c.isDigit then
      let next := 10 * n + digitValue c
      if limit < next then .error overflow else readDigits limit overflow next rest
    else .error .notDigit

/-- Reads a whole number from `-below` to `above`; a minus sign is a fault if `below` is zero. -/
def readWhole (below above : Nat) (s : String) : Except WholeFault Int :=
  match s.toList with
  | [] => .error .empty
  | ['+'] | ['-'] => .error .notDigit
  | '+' :: digits => (readDigits above .tooLarge 0 digits).map fun n => (n : Int)
  | '-' :: digits =>
    if below = 0 then .error .notDigit
    else (readDigits below .tooSmall 0 digits).map fun n => -(n : Int)
  | digits => (readDigits above .tooLarge 0 digits).map fun n => (n : Int)

end SignalLab.Decimal
