import SignalLab.Binary64

/-!
# The shortest decimal that reads back

Every floating-point number owns the interval of reals that round to it: half way to its neighbours,
the ends included exactly when its significand is even. `shortest` finds the decimal `c * 10 ^ p` in
that interval with the fewest digits and, of several of these, the one nearest to the number.

## Why two candidates suffice

The decimals with last place `10 ^ p` form a grid. If any point of the grid lies in the interval, one
of the two grid points next to the number does, for the interval is connected and holds the number.
Coarser grids have fewer digits, so the grids are tried from coarse to fine and the first hit wins.
Seventeen digits always suffice, and the search starts at most a few places too coarse.

All comparisons are made on whole numbers, after both sides have been cleared of denominators.
-/

namespace SignalLab.Decimal

/-- The decimal `digits * 10 ^ exponent`. -/
structure Scaled where
  digits : Nat
  exponent : Int
  deriving DecidableEq, Repr

/-! ## The interval of a number -/

/-- A positive number with the interval that rounds to it, as multiples of `2 ^ exponent`. -/
structure Rounding where
  low : Nat
  value : Nat
  high : Nat
  exponent : Int
  /-- Whether the ends of the interval belong to it. -/
  closed : Bool

/-- The interval of the number `m * 2 ^ q`. The step below a power of two is half the step above it,
except where the steps are the smallest there are. -/
def Rounding.of (m : Nat) (q : Int) : Rounding where
  low := if m = Binary64.leadingOne ∧ Binary64.leastExponent < q then 4 * m - 1 else 4 * m - 2
  value := 4 * m
  high := 4 * m + 2
  exponent := q - 2
  closed := m % 2 = 0

/-! ## Hits on a grid -/

/-- The point next to the number on the grid of `10 ^ p` that lies in the interval, the nearer one if
both do, and the larger one if they are equally near. -/
def Rounding.hit? (r : Rounding) (p : Int) : Option Nat :=
  let unit := Nat.pow 10 p.toNat * Nat.pow 2 (-r.exponent).toNat
  let scale := Nat.pow 2 r.exponent.toNat * Nat.pow 10 (-p).toNat
  let value := r.value * scale
  let inside (c : Nat) : Bool :=
    if r.closed then r.low * scale ≤ c * unit && c * unit ≤ r.high * scale
    else r.low * scale < c * unit && c * unit < r.high * scale
  let below := value / unit
  let above := below + 1
  if inside below && !(inside above && above * unit - value ≤ value - below * unit) then some below
  else if inside above then some above
  else none

/-- An exponent of ten at which the grid is as coarse as the number itself, or coarser: it is
computed from the number's bit length with the logarithm of two rounded up. -/
def coarsest (m : Nat) (q : Int) : Int :=
  (q + m.log2 + 1) * 30103 / 100000 + 1

/-- How many grids the search tries. -/
def gridCount : Nat := 24

/-- The shortest decimal that rounds to the positive number `m * 2 ^ q`, the nearest of these. -/
def shortest (m : Nat) (q : Int) : Scaled :=
  let r := Rounding.of m q
  let start := coarsest m q
  let found := (List.range gridCount).findSome? fun (i : Nat) =>
    let p := start - i
    (r.hit? p).map fun c => (⟨c, p⟩ : Scaled)
  found.getD ⟨m, 0⟩

end SignalLab.Decimal
