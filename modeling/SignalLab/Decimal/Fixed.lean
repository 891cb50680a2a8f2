import SignalLab.Decimal.Plain

/-!
# A fixed number of places

`fixed places x` writes a floating-point number with that many digits after the point. The exact
value is rounded to the nearest such decimal and a half goes to the even neighbour. A negative number
keeps its sign even if it rounds to zero.
-/

namespace SignalLab.Decimal

/-- The quotient `n / d` rounded to the nearest whole number, a half to the even neighbour. -/
def roundHalfEven (n d : Nat) : Nat :=
  let below := n / d
  let rest := 2 * (n % d)
  if rest < d then below
  else if d < rest then below + 1
  else if below % 2 = 0 then below
  else below + 1

/-- Writes a floating-point number with the given number of places. -/
def fixed (places : Nat) (x : Float) : String :=
  match Binary64.ofFloat x with
  | .nan => nanText
  | .infinite negative => infiniteText negative
  | .finite negative m q =>
    let (up, down) := powerOfTwo q
    signText negative ++ withPlaces (roundHalfEven (m * Nat.pow 10 places * up) down) places

end SignalLab.Decimal
