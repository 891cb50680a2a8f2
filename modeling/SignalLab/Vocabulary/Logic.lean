import SignalLab.Vocabulary.Entry

/-!
# Comparisons and truth, offset by offset

True is one and false is zero. Any number other than zero counts as true, not-a-number included, and
not-a-number compares false with everything but by inequality.
-/

namespace SignalLab.Logic

/-! ## Truth values -/

/-- The number for a truth value. -/
def truth (b : Bool) : Float := if b then 1.0 else 0.0

/-- Whether a number counts as true. -/
def holds (x : Float) : Bool := x != 0.0

/-- The operation that compares the two numbers at every offset. -/
def comparing (p : Float → Float → Bool) : Operation := .pointwise2 fun x y => truth (p x y)

/-- The signal that reads `a` where `c` holds and `b` elsewhere; the other one is not read. -/
def select (c a b : Signal) : Signal := fun t => if holds (c t) then a t else b t

/-! ## Entries -/

/-- An entry of this group. -/
def entry (operation : Operation) (doc : String) : Entry :=
  .ofOperation .logic operation doc

/-- The names of this group. -/
def entries : List (String × Entry) :=
  [("lt", entry (comparing fun x y => x < y) "x < y"),
   ("lte", entry (comparing fun x y => x <= y) "x <= y"),
   ("gt", entry (comparing fun x y => x > y) "x > y"),
   ("gte", entry (comparing fun x y => x >= y) "x >= y"),
   ("eq", entry (comparing fun x y => x == y) "x == y"),
   ("neq", entry (comparing fun x y => x != y) "x != y"),
   ("and", entry (comparing fun x y => holds x && holds y) "logical and"),
   ("or", entry (comparing fun x y => holds x || holds y) "logical or"),
   ("not", entry (.pointwise fun x => truth (!holds x)) "logical not"),
   ("if", (entry (.ternary select) "if c then a else b").withParameters ["c", "a", "b"])]

end SignalLab.Logic
