import SignalLab.Proofs.Number.Nearest
import SignalLab.Proofs.Number.Whole

/-!
# Decimals are read as the nearest number

A decimal in the interval of a number is read as this number (`parts_nearest_of_holds`). It is computed
as one product or one quotient with a power of ten, which is rounded once: small powers are numbers
themselves (`exists_parts_powerOfTen`), and for the others the factors are not rounded.
-/

namespace SignalLab

namespace Floating

open Float.Model
open Float.Model.UnpackedFloat
open Decimal (Rounding)

/-! ## The factors -/

/-- Each of the small powers of ten is a number, a power of five with zeros behind it. -/
theorem exists_parts_powerOfTen {k : ℕ} (hk : k < Float.exactlyRepresentablePowersOfTen.size) :
    ∃ (m : ℕ) (e : ℤ) (hm : 0 < m),
      parts Float.exactlyRepresentablePowersOfTen[k] = .finite .positive m e hm ∧
      (m : ℚ) * 2 ^ e = 10 ^ k := by
  have htable : ∀ k : Fin 23, Binary64.ofFloat Float.exactlyRepresentablePowersOfTen[k] =
      .finite false (5 ^ (k : ℕ) * 2 ^ (52 - (5 ^ (k : ℕ)).log2))
        ((k : ℕ) - (52 - (5 ^ (k : ℕ)).log2 : ℕ)) := by
    decide +kernel
  refine ⟨_, _, by positivity, parts_of_ofFloat _ (htable ⟨k, hk⟩), ?_⟩
  rw [zpow_sub₀ (by norm_num), zpow_natCast, zpow_natCast]
  push_cast
  rw [show (10 : ℚ) = 5 * 2 by norm_num, mul_pow]
  field_simp

/-- A whole number of at most fifty-three bits is not rounded. -/
theorem exists_parts_toFloat {m : ℕ} (hm : 0 < m) (hlt : m < 2 ^ 53) :
    ∃ (n : ℕ) (e : ℤ) (hn : 0 < n), parts m.toUInt64.toFloat = .finite .positive n e hn ∧
      2 ^ 52 ≤ n ∧ (n : ℚ) * 2 ^ e = m := by
  have hdecimal : Float.ofNat m = m.toUInt64.toFloat * 1 := by
    change Float.ofScientific m false 0 = _
    rw [Float.ofScientific, dif_pos ⟨hlt, by decide⟩]
    rfl
  rw [Floating.mul_one] at hdecimal
  have hlog : m.log2 ≤ 52 := Nat.le_of_lt_succ ((Nat.log2_lt hm.ne').mpr hlt)
  refine ⟨_, _, _, hdecimal ▸ parts_ofNat hm hlt, ?_, ?_⟩
  · calc 2 ^ 52 = 2 ^ m.log2 * 2 ^ (52 - m.log2) := by rw [← pow_add, Nat.add_sub_cancel' hlog]
      _ ≤ m * 2 ^ (52 - m.log2) := Nat.mul_le_mul_right _ (Nat.log2_self_le hm.ne')
  · rw [zpow_neg, zpow_natCast]
    push_cast
    field_simp

/-! ## Products and quotients with powers of ten -/

variable {M : ℕ} {q : ℤ} {m k : ℕ}

/-- A decimal that is a whole number. -/
theorem parts_ofScientific_of_holds (h : Canonical M q) (hq : q ≤ 971) (hM : 0 < M) (hm : 0 < m)
    (hk : k ≤ 2048) (hy : (Rounding.of M q).Holds (m * 10 ^ k)) :
    parts (Float.ofScientific m false k) = .finite .positive M q hM := by
  rw [Float.ofScientific]
  by_cases hsmall : m < 2 ^ 53 ∧ k ≤ 22
  · have hsize : k < Float.exactlyRepresentablePowersOfTen.size := Nat.lt_succ_of_le hsmall.2
    obtain ⟨n, e, hn, hparts, hfull, hvalue⟩ := exists_parts_toFloat hm hsmall.1
    obtain ⟨n', e', hn', hparts', hvalue'⟩ := exists_parts_powerOfTen hsize
    have hbits : 52 ≤ (n * n').log2 :=
      (Nat.le_log2 (by positivity)).mpr (hfull.trans (Nat.le_mul_of_pos_right _ hn'))
    rw [← hvalue, ← hvalue'] at hy
    rw [dif_pos hsmall, if_neg (by decide), parts_mul, hparts, hparts',
      mul_of_holds h hM hn hn' hy hbits]
    exact repack_of_canonical h hq _ hM
  · have hfull : 2 ^ 53 ≤ m * 2 ^ 53 * 10 ^ k :=
      (Nat.le_mul_of_pos_left _ hm).trans (Nat.le_mul_of_pos_right _ (by positivity))
    have hbits : 52 ≤ (m * 2 ^ 53 * 10 ^ k).log2 :=
      (Nat.le_log2 (by positivity)).mpr (hfull.trans' (by decide))
    have hvalue : ((m * 2 ^ 53 : ℕ) : ℚ) * 2 ^ (-53 : ℤ) * ((10 ^ k : ℕ) * 2 ^ (0 : ℤ)) =
        m * 10 ^ k := by
      rw [zpow_neg, zpow_zero, mul_one]
      push_cast
      field_simp
    rw [← hvalue] at hy
    rw [dif_neg hsmall]
    change repack (UnpackedFloat.ofScientific .binary64 m (k : ℤ)) = _
    have hmost : ¬ (k : ℤ) > 2 ^ Format.binary64.exponentBits := by
      change ¬ (k : ℤ) > 2 ^ 11
      omega
    have hleast : ¬ (k : ℤ) < -((2 ^ Format.binary64.exponentBits : ℤ) + m.log2) := by
      change ¬ (k : ℤ) < -((2 ^ 11 : ℤ) + m.log2)
      omega
    rw [UnpackedFloat.ofScientific, dif_neg hm.ne', if_neg hmost, if_neg hleast, if_pos (by omega)]
    simp only [Nat.shiftLeft_eq, Int.toNat_natCast]
    rw [← repack_of_canonical h hq .positive hM]
    exact congrArg repack (mul_of_holds h hM _ _ hy hbits)

/-- A decimal with a fraction. -/
theorem parts_ofScientific_neg_of_holds (h : Canonical M q) (hq : q ≤ 971) (hM : 0 < M) (hm : 0 < m)
    (hpos : 0 < k) (hk : k ≤ 2048 + m.log2) (hy : (Rounding.of M q).Holds (m / 10 ^ k)) :
    parts (Float.ofScientific m true k) = .finite .positive M q hM := by
  rw [Float.ofScientific]
  by_cases hsmall : m < 2 ^ 53 ∧ k ≤ 22
  · have hsize : k < Float.exactlyRepresentablePowersOfTen.size := Nat.lt_succ_of_le hsmall.2
    obtain ⟨n, e, hn, hparts, -, hvalue⟩ := exists_parts_toFloat hm hsmall.1
    obtain ⟨n', e', hn', hparts', hvalue'⟩ := exists_parts_powerOfTen hsize
    rw [← hvalue, ← hvalue'] at hy
    rw [dif_pos hsmall, if_pos rfl, parts_div, hparts, hparts', div_of_holds h hM hn hn' hy]
    exact repack_of_canonical h hq _ hM
  · have hvalue : (m : ℚ) * 2 ^ (0 : ℤ) / ((10 ^ k : ℕ) * 2 ^ (0 : ℤ)) = m / 10 ^ k := by
      rw [zpow_zero, mul_one, mul_one, Nat.cast_pow, Nat.cast_ofNat]
    rw [← hvalue] at hy
    have hneg : Int.negOfNat k = -(k : ℤ) := by cases k <;> rfl
    rw [dif_neg hsmall]
    change repack (UnpackedFloat.ofScientific .binary64 m (Int.negOfNat k)) = _
    have hmost : ¬ -(k : ℤ) > 2 ^ Format.binary64.exponentBits := by
      change ¬ -(k : ℤ) > 2 ^ 11
      omega
    have hleast : ¬ -(k : ℤ) < -((2 ^ Format.binary64.exponentBits : ℤ) + m.log2) := by
      change ¬ -(k : ℤ) < -((2 ^ 11 : ℤ) + m.log2)
      omega
    rw [hneg, UnpackedFloat.ofScientific, dif_neg hm.ne', if_neg hmost, if_neg hleast,
      if_neg (by omega)]
    simp only [neg_neg, Int.toNat_natCast]
    rw [← repack_of_canonical h hq .positive hM]
    exact congrArg repack (div_of_holds h hM _ _ hy)

/-- The intervals of all numbers lie in a range of powers of two. -/
theorem range_of_holds (h : Canonical M q) (hq : q ≤ 971) (hM : 0 < M) {y : ℚ}
    (hy : (Rounding.of M q).Holds y) : 2 ^ (-1075 : ℤ) ≤ y ∧ y < 2 ^ (1024 : ℤ) := by
  obtain ⟨hlog, hleast, -⟩ := h
  have hnear := isNearest_of_holds hM hy
  have hlow := hnear.least
  have hhigh := hnear.greatest
  constructor
  · have hone : (1 : ℚ) ≤ M := by exact_mod_cast hM
    have hhalf : (2 : ℚ) ^ (q - 1 - q) ≤ y / 2 ^ q := by
      rw [sub_sub_cancel_left, zpow_neg_one]
      linarith
    exact (zpow_le_zpow_right₀ one_le_two (by omega)).trans (le_div_zpow_iff.mp hhalf)
  · have hbits : (M : ℚ) + 1 ≤ 2 ^ 53 := by
      exact_mod_cast (Nat.log2_lt hM.ne').mp (Nat.lt_succ_of_le hlog)
    have hfull : y / 2 ^ q < 2 ^ (q + 53 - q) := by
      rw [add_sub_cancel_left]
      exact_mod_cast (by linarith : y / 2 ^ q < 2 ^ 53)
    exact (div_zpow_lt_iff.mp hfull).trans_le (zpow_le_zpow_right₀ one_le_two (by omega))

end Floating

namespace Decimal

open Floating

variable {M : ℕ} {q : ℤ} {m : ℕ} {e : ℤ}

/-! ## Decimals -/

theorem lt_ten_pow_length (m : ℕ) : m < 10 ^ (Nat.toDigits 10 m).length :=
  (Nat.length_toDigits_le_iff (by decide) Nat.length_toDigits_pos).mp le_rfl

theorem ten_pow_length_le (hm : 0 < m) : 10 ^ ((Nat.toDigits 10 m).length - 1) ≤ m := by
  by_contra hlt
  have hpos := Nat.length_toDigits_pos (b := 10) (n := m)
  by_cases hone : (Nat.toDigits 10 m).length - 1 = 0
  · rw [hone, pow_zero] at hlt
    omega
  · have hshort := (Nat.length_toDigits_le_iff (b := 10) (by decide) (Nat.pos_of_ne_zero hone)).mpr
      (Nat.not_le.mp hlt)
    omega

/-- There are no more decimal digits than binary ones. -/
theorem length_toDigits_le_log2 (m : ℕ) : (Nat.toDigits 10 m).length ≤ m.log2 + 1 :=
  (Nat.length_toDigits_le_iff (by decide) (Nat.succ_pos _)).mpr
    (Nat.lt_log2_self.trans_le (Nat.pow_le_pow_left (by decide) _))

theorem two_pow_lt_ten_pow : 2 ^ 1075 < 10 ^ 331 := by decide +kernel

theorem two_pow_le_ten_pow : 2 ^ 1024 ≤ 10 ^ 310 := by decide +kernel

/-- A decimal in the interval of a number is not taken for too large or too small. -/
theorem places_of_holds (h : Canonical M q) (hq : q ≤ 971) (hM : 0 < M) (hm : 0 < m)
    (hy : (Rounding.of M q).Holds (m * 10 ^ e)) :
    leastPlaces ≤ (Nat.toDigits 10 m).length + e ∧
      (Nat.toDigits 10 m).length + e ≤ mostPlaces := by
  obtain ⟨hleast, hmost⟩ := range_of_holds h hq hM hy
  have hlength := Nat.length_toDigits_pos (b := 10) (n := m)
  have hpower : (0 : ℚ) < 10 ^ e := by positivity
  rw [leastPlaces, mostPlaces]
  constructor
  · by_contra hlt
    have hdigits : (m : ℚ) ≤ 10 ^ ((Nat.toDigits 10 m).length : ℤ) := by
      rw [zpow_natCast]
      exact_mod_cast (lt_ten_pow_length m).le
    have hsmall : (10 : ℚ) ^ (-331 : ℤ) < 2 ^ (-1075 : ℤ) := by
      rw [zpow_neg, zpow_neg, inv_lt_inv₀ (by positivity) (by positivity)]
      exact_mod_cast two_pow_lt_ten_pow
    refine hleast.not_gt (lt_of_le_of_lt ?_ hsmall)
    calc (m : ℚ) * 10 ^ e ≤ 10 ^ ((Nat.toDigits 10 m).length : ℤ) * 10 ^ e :=
          mul_le_mul_of_nonneg_right hdigits hpower.le
      _ = 10 ^ (((Nat.toDigits 10 m).length : ℤ) + e) := (zpow_add₀ (by norm_num) _ _).symm
      _ ≤ 10 ^ (-331 : ℤ) := zpow_le_zpow_right₀ (by norm_num) (by omega)
  · by_contra hlt
    have hdigits : (10 : ℚ) ^ (((Nat.toDigits 10 m).length - 1 : ℕ) : ℤ) ≤ m := by
      rw [zpow_natCast]
      exact_mod_cast ten_pow_length_le hm
    have hlarge : (2 : ℚ) ^ (1024 : ℤ) ≤ 10 ^ (310 : ℤ) := by exact_mod_cast two_pow_le_ten_pow
    refine hmost.not_ge (hlarge.trans ?_)
    calc (10 : ℚ) ^ (310 : ℤ) ≤ 10 ^ ((((Nat.toDigits 10 m).length - 1 : ℕ) : ℤ) + e) :=
          zpow_le_zpow_right₀ (by norm_num) (by omega)
      _ = 10 ^ (((Nat.toDigits 10 m).length - 1 : ℕ) : ℤ) * 10 ^ e := zpow_add₀ (by norm_num) _ _
      _ ≤ m * 10 ^ e := mul_le_mul_of_nonneg_right hdigits hpower.le

/-- **A decimal in the interval of a number is read as this number.** -/
theorem parts_nearest_of_holds (h : Canonical M q) (hq : q ≤ 971) (hM : 0 < M) (hm : 0 < m)
    (hy : (Rounding.of M q).Holds (m * 10 ^ e)) :
    parts (nearest m e) = .finite .positive M q hM := by
  obtain ⟨hleast, hmost⟩ := places_of_holds h hq hM hm hy
  have hlength := Nat.length_toDigits_pos (b := 10) (n := m)
  have hlog := length_toDigits_le_log2 m
  rw [nearest, if_neg (by simpa [hm.ne'] using hleast), if_neg hmost.not_gt]
  rw [leastPlaces] at hleast
  rw [mostPlaces] at hmost
  by_cases he : 0 ≤ e
  · rw [if_pos he]
    obtain ⟨k, rfl⟩ := Int.eq_ofNat_of_zero_le he
    rw [zpow_natCast] at hy
    exact parts_ofScientific_of_holds h hq hM hm (by omega) hy
  · rw [if_neg he]
    obtain ⟨k, rfl⟩ : ∃ k : ℕ, e = -k := ⟨(-e).toNat, by omega⟩
    rw [zpow_neg, zpow_natCast, ← div_eq_mul_inv] at hy
    rw [neg_neg, Int.toNat_natCast]
    exact parts_ofScientific_neg_of_holds h hq hM hm (by omega) (by omega) hy

end Decimal

end SignalLab
