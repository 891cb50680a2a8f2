/-!
# What a floating-point number stands for

A 64-bit floating-point number is not a number, or one of the two infinities, or a sign with a whole
significand times a power of two. `Binary64.ofFloat` takes the bits apart, so that rounding, reading
and printing can be done in exact arithmetic on whole numbers.

## The bits

The top bit is the sign, the next eleven the biased exponent, the other fifty-two the fraction. The
largest biased exponent marks infinities and not-a-number. The smallest one marks the numbers without
a leading one, which share their power of two with the numbers of biased exponent one.
-/

namespace SignalLab

/-- The meaning of a 64-bit floating-point number. -/
inductive Binary64
  /-- Not a number. -/
  | nan
  /-- An infinity, by its sign. -/
  | infinite (negative : Bool)
  /-- A sign and the magnitude `significand * 2 ^ exponent`. -/
  | finite (negative : Bool) (significand : Nat) (exponent : Int)
  deriving DecidableEq, Repr

namespace Binary64

/-- The weight of the leading one that numbers of full precision have. -/
def leadingOne : Nat := 0x10000000000000

/-- The exponent of the smallest steps between numbers. -/
def leastExponent : Int := -1074

/-- Takes the bits of a floating-point number apart. -/
def ofFloat (x : Float) : Binary64 :=
  let bits := x.toBits
  let negative := bits >>> 63 == 1
  let biased := (bits >>> 52 &&& 0x7ff).toNat
  let fraction := (bits &&& 0xfffffffffffff).toNat
  if biased = 0x7ff then
    if fraction = 0 then .infinite negative else .nan
  else if biased = 0 then
    .finite negative fraction leastExponent
  else
    .finite negative (leadingOne + fraction) (leastExponent + biased - 1)

/-- The floating-point number with a given meaning, for significands of at most fifty-three bits and
exponents that floating-point numbers can have. The significand is moved up until its leading one
stands in its place, or as far as the exponent allows. -/
def toFloat : Binary64 → Float
  | .nan => 0.0 / 0.0
  | .infinite negative => if negative then -1.0 / 0.0 else 1.0 / 0.0
  | .finite negative m q =>
    let room := (q - leastExponent).toNat
    let moved := min room (52 - m.log2)
    let significand := m <<< moved
    let biased := if significand < leadingOne then 0 else room - moved + 1
    let magnitude := biased * leadingOne + significand % leadingOne
    let sign := if negative then 0x8000000000000000 else 0
    Float.ofBits (sign + magnitude).toUInt64

end Binary64

/-- The power `2 ^ e` over `2 ^ 0` or under it: the pair of numerator and denominator. -/
def powerOfTwo (e : Int) : Nat × Nat :=
  (Nat.pow 2 e.toNat, Nat.pow 2 (-e).toNat)

end SignalLab
