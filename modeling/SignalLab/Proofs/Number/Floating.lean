import Mathlib
import SignalLab.Number

/-!
# Floating-point numbers

A floating-point number is one of the two infinities, a zero of either sign, a sign with a significand
and an exponent, or not a number. These parts decide it (`Floating.parts_inj`), and every operation is
one on the parts, followed by a rounding to what a word of sixty-four bits holds.

Every number has a place (`Floating.place`), and the places stand in one linear order. What is not a
number is neither less than anything nor greater; all else compares as the places do (`lt_iff`,
`le_iff`). The laws of comparison that hold in the presence of not-a-number follow from this.
-/

namespace SignalLab.Floating

open Float.Model (UnpackedFloat)

/-! ## Parts -/

/-- What a floating-point number is made of. -/
def parts (x : Float) : UnpackedFloat := x.toModel.unpack

/-- The parts of what is packed into a word. -/
def repack (u : UnpackedFloat) : UnpackedFloat := (Float.Model.pack u).unpack

theorem parts_inj {x y : Float} : parts x = parts y ↔ x = y := by
  rw [← Float.toBits_inj, ← UInt64.toBitVec_inj]
  exact UnpackedFloat.unpack_inj_of_valid x.toModel.valid y.toModel.valid

theorem isNaN_eq_parts (x : Float) : x.isNaN = (parts x).isNaN := rfl

theorem isFinite_eq_parts (x : Float) : x.isFinite = (parts x).isFinite := rfl

theorem parts_add (x y : Float) :
    parts (x + y) = repack (UnpackedFloat.add .binary64 (parts x) (parts y)) := rfl

theorem parts_sub (x y : Float) :
    parts (x - y) = repack (UnpackedFloat.sub .binary64 (parts x) (parts y)) := rfl

theorem parts_mul (x y : Float) :
    parts (x * y) = repack (UnpackedFloat.mul .binary64 (parts x) (parts y)) := rfl

theorem parts_div (x y : Float) :
    parts (x / y) = repack (UnpackedFloat.div .binary64 (parts x) (parts y)) := rfl

theorem parts_abs (x : Float) : parts x.abs = repack (parts x).abs := rfl

/-! ## Places -/

/-- The place of a number with the given parts: first its kind, from minus infinity to infinity, and
among the finite numbers of one sign the exponent and then the significand. -/
def placeOf : UnpackedFloat → ℤ ×ₗ ℤ ×ₗ ℤ
  | .infinity .negative => toLex (-2, toLex (0, 0))
  | .finite .negative m e _ => toLex (-1, toLex (-e, -m))
  | .zero _ | .notANumber => toLex (0, toLex (0, 0))
  | .finite .positive m e _ => toLex (1, toLex (e, m))
  | .infinity .positive => toLex (2, toLex (0, 0))

/-- The place of a number in the order of all numbers. -/
def place (x : Float) : ℤ ×ₗ ℤ ×ₗ ℤ := placeOf (parts x)

theorem compare_neg (a b : ℤ) : compare (-a) (-b) = compare b a := by
  have hneg : StrictAnti fun a : ℤ => -a := fun _ _ h => Int.neg_lt_neg h
  simpa only [cmp_eq_compare] using hneg.cmp_map_eq a b

theorem compare_natCast (a b : ℕ) : compare (a : ℤ) b = compare a b := by
  have hcast : StrictMono fun a : ℕ => (a : ℤ) := fun _ _ h => Int.ofNat_lt.mpr h
  simpa only [cmp_eq_compare] using hcast.cmp_map_eq a b

/-- Numbers compare as their places do, and nothing compares with what is not a number. -/
theorem compare_parts (u v : UnpackedFloat) :
    u.compare v =
      if u.isNaN ∨ v.isNaN then none else some (compare (placeOf u) (placeOf v)) := by
  rcases u with (_ | _) | _ | _ | ⟨_ | _, m, e, hm⟩ <;>
    rcases v with (_ | _) | _ | _ | ⟨_ | _, n, f, hn⟩ <;>
    simp [UnpackedFloat.compare, UnpackedFloat.isNaN, placeOf, Prod.Lex.compare_def, compareLex,
      compareOn, compare_neg, compare_natCast, Ordering.swap_then, Int.compare_swap,
      Nat.compare_swap]
  -- what is left compares kinds or signs
  all_goals rfl

theorem lt_iff {x y : Float} :
    x < y ↔ x.isNaN = false ∧ y.isNaN = false ∧ place x < place y := by
  have hparts : x < y ↔ (parts x).lt (parts y) = true := decide_eq_true_iff
  rw [hparts, isNaN_eq_parts, isNaN_eq_parts, UnpackedFloat.lt, compare_parts, place, place, ← compare_lt_iff_lt]
  split_ifs with h
  · rcases h with h | h <;> simp [h]
  · rw [not_or] at h
    simp [h]

theorem le_iff {x y : Float} :
    x ≤ y ↔ x.isNaN = false ∧ y.isNaN = false ∧ place x ≤ place y := by
  have hparts : x ≤ y ↔ (parts x).le (parts y) = true := decide_eq_true_iff
  rw [hparts, isNaN_eq_parts, isNaN_eq_parts, UnpackedFloat.le, compare_parts, place, place, ← compare_le_iff_le]
  split_ifs with h
  · rcases h with h | h <;> simp [h]
  · rw [not_or] at h
    simp [h, Ordering.isLE_iff_ne_gt]

/-! ## Laws of comparison -/

variable {x y z : Float}

theorem lt_irrefl (x : Float) : ¬ x < x := fun h => (lt_iff.mp h).2.2.false

theorem lt_trans (hxy : x < y) (hyz : y < z) : x < z := by
  rw [lt_iff] at hxy hyz ⊢
  exact ⟨hxy.1, hyz.2.1, hxy.2.2.trans hyz.2.2⟩

theorem le_of_lt_of_le (hxy : x < y) (hyz : y ≤ z) : x ≤ z := by
  rw [lt_iff] at hxy
  rw [le_iff] at hyz ⊢
  exact ⟨hxy.1, hyz.2.1, hxy.2.2.le.trans hyz.2.2⟩

theorem not_lt_of_le (h : x ≤ y) : ¬ y < x :=
  fun hlt => (lt_iff.mp hlt).2.2.not_ge (le_iff.mp h).2.2

/-- Of two numbers the one that is not greater is less or equal. -/
theorem le_of_not_lt (hx : x.isNaN = false) (hy : y.isNaN = false) (h : ¬ y < x) : x ≤ y := by
  rw [lt_iff, not_and, not_and, not_lt] at h
  exact le_iff.mpr ⟨hx, hy, h hy hx⟩

theorem isNaN_of_isFinite (h : x.isFinite = true) : x.isNaN = false := by
  rw [isFinite_eq_parts] at h
  rw [isNaN_eq_parts]
  cases hx : parts x <;> simp_all [UnpackedFloat.isFinite, UnpackedFloat.isNaN]

/-! ## What is missing -/

theorem isNaN_missing : missingFloat.isNaN = true := by decide +kernel

/-- What is missing stays missing, whatever it is divided by. -/
theorem missing_div (y : Float) : missingFloat / y = missingFloat := by
  have hmissing : parts missingFloat = .notANumber := UnpackedFloat.isNaN_iff.mp isNaN_missing
  have hdiv (u : UnpackedFloat) : UnpackedFloat.div .binary64 .notANumber u = .notANumber := by
    cases u <;> rfl
  rw [← parts_inj, parts_div, hmissing, hdiv]
  exact @UnpackedFloat.unpack_packedNaN .binary64

/-! ## The operations of a calculation -/

theorem zero_eq : (Number.zero : Float) = 0 := rfl

theorem one_eq : (Number.one : Float) = 1 := rfl

theorem isFinite_eq (x : Float) : Number.isFinite x = x.isFinite := rfl

theorem lt_eq_true_iff {x y : Float} : Number.lt x y = true ↔ x < y := decide_eq_true_iff

theorem smaller_eq (x y : Float) : Number.smaller x y = if y < x then y else x :=
  if_congr lt_eq_true_iff rfl rfl

theorem larger_eq (x y : Float) : Number.larger x y = if x < y then y else x :=
  if_congr lt_eq_true_iff rfl rfl

end SignalLab.Floating
