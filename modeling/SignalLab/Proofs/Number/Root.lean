import Mathlib.Analysis.Real.Sqrt
import SignalLab.Proofs.Number.Exact

/-!
# Numbers with square roots

What takes the place of the square root among exact numbers is right about every number that is not
negative where each of these has a root, as among the real numbers. Among the rational numbers only
squares have one, and everything that does without roots is calculated as among the real numbers.
-/

namespace SignalLab

/-- A number that is not negative is the square of its root, which is not negative. -/
class LawfulRoot (α : Type) [ExactNumber α] : Prop where
  root_nonneg : ∀ x : α, 0 ≤ x → 0 ≤ ExactNumber.root x
  sq_root : ∀ x : α, 0 ≤ x → ExactNumber.root x ^ 2 = x

noncomputable instance : ExactNumber ℝ where
  root := Real.sqrt

instance : LawfulRoot ℝ where
  root_nonneg x _ := Real.sqrt_nonneg x
  sq_root _ h := Real.sq_sqrt h

namespace ExactNumber

variable {α : Type} [ExactNumber α] [LawfulRoot α]

theorem root_zero : root (0 : α) = 0 :=
  pow_eq_zero_iff two_ne_zero |>.mp (LawfulRoot.sq_root 0 le_rfl)

/-- A root is positive exactly if the number is. -/
theorem root_pos_iff {x : α} (h : 0 ≤ x) : 0 < root x ↔ 0 < x := by
  rw [(LawfulRoot.root_nonneg x h).lt_iff_ne', ← sq_pos_iff, LawfulRoot.sq_root x h]

end ExactNumber

end SignalLab
