import Mathlib.Algebra.BigOperators.Group.List.Basic
import Mathlib.Data.List.Induction
import Mathlib.Tactic.FieldSimp
import Mathlib.Tactic.LinearCombination
import Mathlib.Tactic.Ring
import SignalLab.Proofs.Number.Exact
import SignalLab.Proofs.Number.Zero
import SignalLab.Series.Welford

/-!
# What one pass finds out about the mean and the deviation

Calculated exactly, one pass finds what two passes would: the mean of the samples (`mean_ofList`),
and the sum of their squared distances from this mean (`squares_ofList`), although the mean was
another one at each sample that went into the sum.

The induction adds a sample at the end. The sum of squared distances from the mean is the sum of the
squares less the square of the mean as often as there are samples (`sum_squares_from`), and in this
form one more sample adds to it what `push` adds.

In floating point neither holds, but samples at no distance from the mean add nothing
(`squares_add_eq_zero`), and then there is no deviation.
-/

namespace SignalLab.Welford

variable {α : Type}

/-! ## One more sample at the end -/

section

variable [Number α]

theorem ofList_concat (xs : List α) (x : α) : ofList (xs ++ [x]) = (ofList xs).push x := by
  rw [ofList, List.foldl_append]
  rfl

@[simp] theorem count_ofList (xs : List α) : (ofList xs).count = xs.length := by
  induction xs using List.reverseRecOn with
  | nil => rfl
  | append_singleton xs x ih =>
    rw [ofList_concat, List.length_append]
    exact congrArg (· + 1) ih

end

section

variable [ExactNumber α]

theorem mean_push (w : Welford α) (x : α) :
    (w.push x).mean = w.mean + (x - w.mean) / (w.count + 1 : ℕ) := rfl

theorem squares_push (w : Welford α) (x : α) :
    (w.push x).squares = w.squares + (x - w.mean) * (x - (w.push x).mean) := rfl

/-! ## The mean and the squares -/

/-- The mean counted once for each sample is the sum of the samples. -/
theorem length_mul_mean (xs : List α) : xs.length * (ofList xs).mean = xs.sum := by
  induction xs using List.reverseRecOn with
  | nil => simp
  | append_singleton xs x ih =>
    have hcount : ((xs.length : α) + 1) ≠ 0 := Nat.cast_add_one_ne_zero xs.length
    rw [ofList_concat, mean_push, count_ofList, List.sum_append, ← ih]
    push_cast [List.length_append, List.length_singleton, List.sum_singleton]
    field_simp
    ring

/-- **The mean** of the samples, zero if there are none. -/
theorem mean_ofList (xs : List α) : (ofList xs).mean = xs.sum / xs.length := by
  rcases xs with _ | ⟨x, xs⟩
  · simp [ofList, empty]
  · have hlength : (((x :: xs).length : ℕ) : α) ≠ 0 := by simp [Nat.cast_add_one_ne_zero]
    rw [← length_mul_mean, mul_div_cancel_left₀ _ hlength]

/-- The sum of squared distances from any number. -/
theorem sum_squares_from (c : α) (xs : List α) :
    (xs.map fun x => (x - c) ^ 2).sum =
      (xs.map (· ^ 2)).sum - 2 * c * xs.sum + xs.length * c ^ 2 := by
  induction xs with
  | nil => simp
  | cons x xs ih =>
    simp only [List.map_cons, List.sum_cons, List.length_cons, ih]
    push_cast
    ring

/-- What one pass adds up is the sum of the squares less that of the mean in the place of each. -/
theorem squares_ofList_eq_sub (xs : List α) :
    (ofList xs).squares = (xs.map (· ^ 2)).sum - xs.length * (ofList xs).mean ^ 2 := by
  induction xs using List.reverseRecOn with
  | nil => simp [ofList, empty]
  | append_singleton xs x ih =>
    -- both means are told by the sums they are means of
    have hbefore := length_mul_mean xs
    have hafter := length_mul_mean (xs ++ [x])
    rw [ofList_concat, List.sum_append, ← hbefore] at hafter
    rw [ofList_concat, squares_push, ih]
    push_cast [List.length_append, List.length_singleton, List.sum_singleton, List.map_append,
      List.sum_append, List.map_singleton] at hafter ⊢
    linear_combination (((ofList xs).push x).mean + (ofList xs).mean) * hafter

/-- **The sum of the squared distances** from the mean of all samples. -/
theorem squares_ofList (xs : List α) :
    (ofList xs).squares = (xs.map fun x => (x - (ofList xs).mean) ^ 2).sum := by
  rw [squares_ofList_eq_sub, sum_squares_from]
  linear_combination (-2 * (ofList xs).mean) * length_mul_mean xs

end

/-! ## Without deviation -/

section

variable {w : Welford Float}

/-- Distances that are zeros add nothing to the sum of their squares. -/
theorem squares_add_eq_zero {first second : Float} (hsquares : w.squares = 0)
    (hfirst : first.isFinite = true) (hsecond : Floating.IsZero second) :
    w.squares + first * second = 0 := by
  rw [hsquares]
  exact Floating.zero_add (hsecond.finite_mul hfirst)

theorem deviation_eq_zero (hsquares : w.squares = 0) (hcount : 0 < w.count) : w.deviation = 0 := by
  have hquotient : (0 : Float) / Number.ofCount w.count = 0 := Floating.zero_div_count hcount
  rw [deviation, hsquares, hquotient]
  rfl

end

end SignalLab.Welford
