import SignalLab.Binary64
import SignalLab.Vocabulary.Entry

/-!
# Arithmetic, offset by offset

The functions of this group compute each number of their result from the numbers of their arguments at
the same offset. They follow floating-point arithmetic: what is not a number stays so, also through
the least and the greatest of two numbers.
-/

namespace SignalLab.Arithmetic

/-! ## Functions on numbers -/

/-- Minus one, zero or one. A zero keeps its own sign, and not-a-number has none. -/
def sign (x : Float) : Float :=
  if x == 0.0 || x.isNaN then x else if x < 0.0 then -1.0 else 1.0

/-- The nearest whole number, a half upwards. -/
def nearestWhole (x : Float) : Float :=
  let below := x.floor
  if x - below >= 0.5 then below + 1.0 else below

/-- The smaller of two numbers. -/
def least (x y : Float) : Float :=
  if x.isNaN || y.isNaN then missingFloat else Number.smaller x y

/-- The larger of two numbers. -/
def greatest (x y : Float) : Float :=
  if x.isNaN || y.isNaN then missingFloat else Number.larger x y

/-- At least `low` and, which matters more if they cross, at most `high`. -/
def clamp (x low high : Float) : Float := least (greatest x low) high

/-- What is left of `x` after taking away `y` as often as it fits, with the sign of `x`. The result is
exact: significands are reduced on the finer of the two grids. -/
def remainder (x y : Float) : Float :=
  match Binary64.ofFloat x, Binary64.ofFloat y with
  | .finite negative m q, .finite _ n r =>
    if n = 0 then missingFloat
    else
      let grid := min q r
      let left := (m <<< (q - grid).toNat) % (n <<< (r - grid).toNat)
      Binary64.toFloat (.finite negative left grid)
  | .finite .., .infinite _ => x
  | _, _ => missingFloat

/-! ## Entries -/

/-- An entry of this group. -/
def entry (operation : Operation) (doc : String) : Entry :=
  .ofOperation .arithmetic operation doc

/-- The names of this group. -/
def entries : List (String × Entry) :=
  [("add", entry (.pointwise2 (· + ·)) "add two numbers"),
   ("sub", entry (.pointwise2 (· - ·)) "subtract y from x"),
   ("mul", entry (.pointwise2 (· * ·)) "multiply two numbers"),
   ("div", entry (.pointwise2 (· / ·)) "divide x by y"),
   ("neg", entry (.pointwise (- ·)) "negate x"),
   ("abs", entry (.pointwise Float.abs) "absolute value"),
   ("sign", entry (.pointwise sign) "sign of x (-1, 0, 1)"),
   ("min", entry (.pointwise2 least) "minimum of x and y"),
   ("max", entry (.pointwise2 greatest) "maximum of x and y"),
   ("clamp", (entry (.pointwise3 clamp) "clamp x to [lo, hi]").withParameters ["x", "lo", "hi"]),
   ("sqrt", entry (.pointwise Float.sqrt) "square root"),
   ("exp", entry (.pointwise Float.exp) "e raised to x"),
   ("log", entry (.pointwise Float.log) "natural logarithm"),
   ("pow", entry (.pointwise2 Float.pow) "x raised to y"),
   ("floor", entry (.pointwise Float.floor) "round down"),
   ("ceil", entry (.pointwise Float.ceil) "round up"),
   ("round", entry (.pointwise nearestWhole) "round to nearest integer"),
   ("mod", entry (.pointwise2 remainder) "remainder of x / y"),
   ("sin", entry (.pointwise Float.sin) "sine"),
   ("cos", entry (.pointwise Float.cos) "cosine"),
   ("tan", entry (.pointwise Float.tan) "tangent")]

end SignalLab.Arithmetic
