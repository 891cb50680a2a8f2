import SignalLab.Proofs.Number.Canonical

/-!
# What numbers stand for

A finite floating-point number stands for a rational number, its significand times a power of two
with its sign (`Floating.value`). Finite numbers compare as what they stand for (`lt_iff_value_lt`,
`le_iff_value_le`).

Places compare exponents before significands. This is the order of the magnitudes because numbers
are in canonical form: of two exponents the greater one is not the least of all, so its significand
has all of its bits and outweighs every other at the smaller exponent (`magnitude_lt`).
-/

namespace SignalLab.Floating

open Float.Model
open Float.Model.UnpackedFloat

variable {x y : Float}

/-! ## Values -/

/-- What a number with the given parts stands for; zero if it is not finite. -/
def valueOf : UnpackedFloat → ℚ
  | .finite .negative m e _ => -(m * 2 ^ e)
  | .finite .positive m e _ => m * 2 ^ e
  | .zero _ | .infinity _ | .notANumber => 0

/-- The rational number that a finite number stands for. -/
def value (x : Float) : ℚ := valueOf (parts x)

theorem isFinite_ofNat {n : ℕ} (h : n < 2 ^ 53) : (Float.ofNat n).isFinite = true := by
  by_cases hzero : n = 0
  · subst hzero
    decide +kernel
  · rw [isFinite_eq_parts, parts_ofNat (Nat.pos_of_ne_zero hzero) h]
    rfl

/-- A whole number below `2 ^ 53` stands for itself. -/
theorem value_ofNat {n : ℕ} (h : n < 2 ^ 53) : value (Float.ofNat n) = n := by
  by_cases hzero : n = 0
  · subst hzero
    have hparts : parts (Float.ofNat 0) = .zero .positive := rfl
    rw [value, hparts, valueOf, Nat.cast_zero]
  · rw [value, parts_ofNat (Nat.pos_of_ne_zero hzero) h, valueOf]
    push_cast
    rw [zpow_neg, zpow_natCast, mul_assoc, mul_inv_cancel₀ (by positivity), mul_one]

/-! ## Order -/

/-- Magnitudes in canonical form compare by their exponents first. -/
theorem magnitude_lt {m n : ℕ} {e f : ℤ} (hm : 0 < m) (hn : 0 < n) (h : Canonical m e)
    (h' : Canonical n f) (hlt : e < f ∨ e = f ∧ m < n) : (m * 2 ^ e : ℚ) < n * 2 ^ f := by
  obtain hexponent | ⟨rfl, hsignificand⟩ := hlt
  · have hbits : m < 2 ^ 53 := (Nat.log2_lt hm.ne').mp (Nat.lt_succ_of_le h.1)
    have hfull : 2 ^ 52 ≤ n := by
      refine (Nat.le_log2 hn.ne').mp (h'.2.2.resolve_right fun hleast => ?_).ge
      have := h.2.1
      omega
    calc (m * 2 ^ e : ℚ) < 2 ^ 53 * 2 ^ e := by gcongr; exact_mod_cast hbits
      _ = 2 ^ 52 * 2 ^ (e + 1) := by rw [zpow_add_one₀ (by norm_num)]; ring
      _ ≤ n * 2 ^ f := by
        gcongr
        · exact_mod_cast hfull
        · norm_num
        · omega
  · gcongr

/-- What stands in a higher place stands for a greater number. -/
theorem value_lt_value (hx : x.isFinite = true) (hy : y.isFinite = true) (h : place x < place y) :
    value x < value y := by
  have hpos {m : ℕ} (e : ℤ) (hm : 0 < m) : (0 : ℚ) < m * 2 ^ e := by positivity
  rw [isFinite_eq_parts] at hx hy
  rw [place, place] at h
  rw [value, value]
  rcases hparts : parts x with _ | _ | _ | ⟨_ | _, m, e, hm⟩ <;>
    rcases hparts' : parts y with _ | _ | _ | ⟨_ | _, n, f, hn⟩ <;>
    rw [hparts] at hx h <;> rw [hparts'] at hy h <;>
    -- the kinds decide unless both numbers are positive or both are negative
    simp only [UnpackedFloat.isFinite, Bool.false_eq_true, placeOf, valueOf,
      Prod.Lex.toLex_lt_toLex, Int.reduceLT, Int.reduceEq, false_and, or_self, true_and, false_or,
      true_or, neg_inj, Int.neg_lt_neg_iff, Nat.cast_lt] at hx hy h ⊢
  case zero.finite.positive => exact hpos f hn
  case finite.negative.zero => exact neg_neg_of_pos (hpos e hm)
  case finite.negative.finite.positive => exact (neg_neg_of_pos (hpos e hm)).trans (hpos f hn)
  case finite.positive.finite.positive =>
    exact magnitude_lt hm hn (canonical_of_parts hparts) (canonical_of_parts hparts') h
  case finite.negative.finite.negative =>
    refine neg_lt_neg (magnitude_lt hn hm (canonical_of_parts hparts')
      (canonical_of_parts hparts) ?_)
    rwa [eq_comm (a := f)]

theorem value_eq_value (hx : x.isFinite = true) (hy : y.isFinite = true) (h : place x = place y) :
    value x = value y := by
  rw [isFinite_eq_parts] at hx hy
  rw [place, place] at h
  rw [value, value]
  generalize parts x = u at hx h ⊢
  generalize parts y = v at hy h ⊢
  rcases u with _ | _ | _ | ⟨_ | _, m, e, hm⟩ <;>
    rcases v with _ | _ | _ | ⟨_ | _, n, f, hn⟩ <;>
    simp_all [UnpackedFloat.isFinite, placeOf, valueOf]

theorem place_lt_iff (hx : x.isFinite = true) (hy : y.isFinite = true) :
    place x < place y ↔ value x < value y := by
  refine ⟨value_lt_value hx hy, fun h => ?_⟩
  by_contra hle
  obtain hlt | heq := (not_lt.mp hle).lt_or_eq
  · exact h.not_gt (value_lt_value hy hx hlt)
  · exact h.ne' (value_eq_value hy hx heq)

/-- **Finite numbers compare as what they stand for.** -/
theorem lt_iff_value_lt (hx : x.isFinite = true) (hy : y.isFinite = true) :
    x < y ↔ value x < value y := by
  rw [lt_iff, place_lt_iff hx hy, and_iff_right (isNaN_of_isFinite hx),
    and_iff_right (isNaN_of_isFinite hy)]

theorem le_iff_value_le (hx : x.isFinite = true) (hy : y.isFinite = true) :
    x ≤ y ↔ value x ≤ value y := by
  rw [le_iff, ← not_lt, place_lt_iff hy hx, not_lt, and_iff_right (isNaN_of_isFinite hx),
    and_iff_right (isNaN_of_isFinite hy)]

end SignalLab.Floating
