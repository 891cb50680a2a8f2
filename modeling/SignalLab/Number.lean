/-!
# The numbers a calculation runs on

Backtests, window aggregates and the synthetic market are written once, over any type with the
operations below. At `Float` they run; at an exact field they state what is being computed.

## Shape of the operations

Comparisons answer a `Bool`, so that a calculation branches the same way at every type, and a number
that compares false with everything (as the not-a-number of floating point does) is allowed for.
Constants enter as counts and as decimal fractions, the two forms in which the calculations use them.
-/

namespace SignalLab

/-- The operations on numbers that this library calculates with. -/
class Number (α : Type) extends Add α, Sub α, Mul α, Div α, Neg α where
  /-- A count as a number. -/
  ofCount : Nat → α
  /-- The decimal fraction `m / 10 ^ k`. -/
  decimal (m k : Nat) : α
  /-- What stands for a result that does not exist. -/
  missing : α
  /-- The distance from zero. -/
  abs : α → α
  /-- The square root. -/
  sqrt : α → α
  /-- Whether a number is neither infinite nor missing. -/
  isFinite : α → Bool
  /-- Whether the first number is less than the second. -/
  lt : α → α → Bool
  /-- Whether two numbers are equal. -/
  eq : α → α → Bool

namespace Number

variable {α : Type} [Number α]

/-- The number zero. -/
@[inline] def zero : α := ofCount 0

/-- The number one. -/
@[inline] def one : α := ofCount 1

/-- The smaller of two numbers, the first one if neither is smaller. -/
@[inline] def smaller (x y : α) : α :=
  if lt y x then y else x

/-- The larger of two numbers, the first one if neither is larger. -/
@[inline] def larger (x y : α) : α :=
  if lt x y then y else x

/-- A finite number as it is, anything else as zero. -/
@[inline] def orZero (x : α) : α :=
  if isFinite x then x else zero

/-- The number nearest to `x` between `low` and `high`. -/
@[inline] def confine (low high x : α) : α :=
  if lt x low then low else if lt high x then high else x

end Number

/-! ## Floating point -/

/-- The not-a-number of floating point. -/
def missingFloat : Float := 0.0 / 0.0

/-- Floating-point numbers, with not-a-number for what is missing. -/
instance : Number Float where
  ofCount := Float.ofNat
  decimal m k := Float.ofScientific m true k
  missing := missingFloat
  abs := Float.abs
  sqrt := Float.sqrt
  isFinite := Float.isFinite
  lt x y := x < y
  eq x y := x == y

end SignalLab
