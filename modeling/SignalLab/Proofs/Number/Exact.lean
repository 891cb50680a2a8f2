import Mathlib.Algebra.Order.Field.Rat
import Mathlib.Data.Rat.Sqrt
import SignalLab.Number

/-!
# Exact numbers

What a calculation computes, apart from rounding, is said at the numbers of an ordered field. All of
them are finite, and a quotient by zero is zero, so that a price of zero is followed by no return as
it is in floating point.

A field need not have square roots. What takes the place of the root is part of an `ExactNumber`;
the rational numbers come with the root of a fraction of two squares.
-/

namespace SignalLab

/-- Numbers that are calculated with exactly: those of an ordered field, with a function in the place
of the square root. -/
class ExactNumber (α : Type) extends Field α, LinearOrder α, IsStrictOrderedRing α where
  root : α → α

instance (priority := low) {α : Type} [ExactNumber α] : Number α where
  ofCount n := n
  decimal m k := m / 10 ^ k
  missing := 0
  abs x := |x|
  sqrt := ExactNumber.root
  isFinite _ := true
  lt x y := decide (x < y)
  eq x y := decide (x = y)

instance : ExactNumber ℚ where
  root := Rat.sqrt

namespace Number

variable {α : Type} [ExactNumber α]

theorem ofCount_eq (n : ℕ) : (ofCount n : α) = n := rfl

theorem decimal_eq (m k : ℕ) : (decimal m k : α) = m / 10 ^ k := rfl

@[simp] theorem zero_eq : (zero : α) = 0 := Nat.cast_zero

@[simp] theorem one_eq : (one : α) = 1 := Nat.cast_one

/-- All exact numbers are finite. -/
@[simp] theorem orZero_eq (x : α) : orZero x = x := rfl

@[simp] theorem smaller_eq (x y : α) : smaller x y = min x y := by
  simp only [smaller, lt, decide_eq_true_eq]
  split_ifs with h
  · rw [min_eq_right h.le]
  · rw [min_eq_left (not_lt.mp h)]

@[simp] theorem larger_eq (x y : α) : larger x y = max x y := by
  simp only [larger, lt, decide_eq_true_eq]
  split_ifs with h
  · rw [max_eq_right h.le]
  · rw [max_eq_left (not_lt.mp h)]

theorem confine_eq {low high : α} (hle : low ≤ high) (x : α) :
    confine low high x = max low (min high x) := by
  simp only [confine, lt, decide_eq_true_eq]
  split_ifs with hlow hhigh
  · rw [min_eq_right (hlow.le.trans hle), max_eq_left hlow.le]
  · rw [min_eq_left hhigh.le, max_eq_right hle]
  · rw [min_eq_right (not_lt.mp hhigh), max_eq_right (not_lt.mp hlow)]

end Number

end SignalLab
