import SignalLab.Decimal.Shortest

/-!
# Numbers written out in full

The plain text of a floating-point number is its shortest decimal, written with all its zeros and
never with an exponent. A whole number has no point, a number below one a single zero before it. The
sign of zero is kept, and the numbers without digits have names.
-/

namespace SignalLab.Decimal

/-- A minus sign for a negative number. -/
def signText (negative : Bool) : String :=
  if negative then "-" else ""

/-- The name of not-a-number. -/
def nanText : String := "NaN"

/-- The name of an infinity. -/
def infiniteText (negative : Bool) : String :=
  signText negative ++ "inf"

/-- A run of zeros. -/
def zeros (n : Nat) : String :=
  String.ofList (List.replicate n '0')

/-- Writes `digits / 10 ^ places` with exactly that many places. -/
def withPlaces (digits places : Nat) : String :=
  let text := toString digits
  let padded := zeros (places + 1 - text.length) ++ text
  let whole := padded.toList.take (padded.length - places)
  let fraction := padded.toList.drop (padded.length - places)
  if fraction.isEmpty then String.ofList whole
  else String.ofList whole ++ "." ++ String.ofList fraction

/-- Writes a decimal in full. -/
def Scaled.plain (d : Scaled) : String :=
  if 0 ≤ d.exponent then toString d.digits ++ zeros d.exponent.toNat
  else withPlaces d.digits (-d.exponent).toNat

/-- The plain text of a floating-point number. -/
def plain (x : Float) : String :=
  match Binary64.ofFloat x with
  | .nan => nanText
  | .infinite negative => infiniteText negative
  | .finite negative m q =>
    signText negative ++ if m = 0 then "0" else (shortest m q).plain

end SignalLab.Decimal
