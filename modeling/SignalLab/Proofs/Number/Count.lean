import SignalLab.Proofs.Number.Floating

/-!
# Counts as floating-point numbers

A count of at least one becomes a floating-point number that is at least one as well, or infinite if
the count is too large (`isCount_parts`). So it is a number, and it is positive: whatever is divided
by it keeps its sign, and nothing is divided by zero.

## Shape of the argument

A result is rounded to a significand of fifty-three bits by moving it to the right, twice. What is at
least one, and has all of its bits, still is and has after each move (`shift_atLeastOne`), because the
move stops at the leading one, and rounding never goes below the number that is cut off. Packing the
result into a word of sixty-four bits and unpacking it again keeps it (`repack_full`).
-/

namespace SignalLab.Floating

open Float.Model
open Float.Model.UnpackedFloat

/-! ## Packing and unpacking -/

theorem toNat_leadingOne (fraction : BitVec 52) :
    (1#1 ++ fraction).toNat = 2 ^ 52 + fraction.toNat := by
  rw [BitVec.toNat_append, ← Nat.shiftLeft_add_eq_or_of_lt fraction.isLt]
  rfl

/-- A word whose exponent is neither the least nor the greatest one holds a number of full
precision. -/
theorem unpack_components (s : Sign) (biased : ℕ) (fraction : BitVec 52) (hpos : 0 < biased)
    (hlt : biased < 2047) :
    UnpackedFloat.unpack .binary64
        (packComponents .binary64 s (BitVec.ofNat 11 biased) fraction) =
      .finite s (2 ^ 52 + fraction.toNat) (biased - 1075) (by positivity) := by
  have htoNat : (BitVec.ofNat 11 biased).toNat = biased := by
    rw [BitVec.toNat_ofNat, Nat.mod_eq_of_lt (by omega)]
  have hgreatest : BitVec.ofNat 11 biased ≠ -1#11 := by
    intro h
    have := congrArg BitVec.toNat h
    rw [htoNat] at this
    exact absurd this (by simp; omega)
  have hleast : BitVec.ofNat 11 biased ≠ 0#11 := by
    intro h
    have := congrArg BitVec.toNat h
    rw [htoNat] at this
    exact absurd this (by simp; omega)
  rw [UnpackedFloat.unpack]
  simp only [unpackMantissa_packComponents, unpackExponent_packComponents,
    unpackSign_packComponents, Sign.ofBitVec_toBitVec]
  rw [if_neg hgreatest, if_neg hleast]
  simp only [toNat_leadingOne, htoNat]
  rfl

/-- A finite number of full precision is itself after packing, or infinite if it is too large. -/
theorem repack_full (s : Sign) (m : ℕ) (e : ℤ) (hm : 0 < m) (hfull : 2 ^ 52 ≤ m) (hbits : m < 2 ^ 53)
    (he : -1074 ≤ e) :
    repack (.finite s m e hm) = if 971 < e then .infinity s else .finite s m e hm := by
  have hlog : m.log2 = 52 := by
    have hleast : 52 ≤ m.log2 := (Nat.le_log2 hm.ne').mpr hfull
    have hmost : m.log2 < 53 := (Nat.log2_lt hm.ne').mpr hbits
    omega
  have hbiased : (e + Format.binary64.exponentBias +
      Format.binary64.mantissaBitsWithoutImplicit).toNat = (e + 1075).toNat := by
    change (e + (1023 : ℕ) + (52 : ℕ)).toNat = _
    omega
  change UnpackedFloat.unpack .binary64 (UnpackedFloat.pack .binary64 (.finite s m e hm)) = _
  rw [UnpackedFloat.pack]
  simp only [hlog, hbiased]
  by_cases hlarge : 971 < e
  · rw [if_pos (by omega), if_pos hlarge]
    cases s <;> rfl
  · have hfraction : 2 ^ 52 + (BitVec.ofNat 52 m).toNat = m := by
      rw [BitVec.toNat_ofNat]
      omega
    have hexponent : ((e + 1075).toNat : ℤ) - 1075 = e := by omega
    rw [if_neg (by omega), if_pos (by decide), if_neg hlarge]
    have hunpack := unpack_components s (e + 1075).toNat (BitVec.ofNat 52 m) (by omega) (by omega)
    simp only [hfraction, hexponent] at hunpack
    exact hunpack

/-! ## Rounding -/

theorem mantissa_shiftRight (em : ExtendedMantissa) (k : ℕ) :
    (em >>> k).mantissa = em.mantissa / 2 ^ k := by
  induction k with
  | zero => simp [HShiftRight.hShiftRight, Nat.repeat]
  | succ k ih =>
    change (em >>> k).mantissa / 2 = _
    rw [ih, Nat.div_div_eq_div_mul, Nat.pow_succ]

/-- Rounding never goes below the number that is cut off. -/
theorem mantissa_le_roundedMantissa (em : ExtendedMantissa) : em.mantissa ≤ em.roundedMantissa := by
  rw [ExtendedMantissa.roundedMantissa]
  rcases em.accuracy with _ | _ | _ | _ <;> simp only [Accuracy.roundToNearestEven] <;> omega

/-- Magnitudes of at least one in full precision: a significand of at least fifty-three bits and an
exponent that keeps its leading one before the point. -/
def AtLeastOne (m : ℕ) (e : ℤ) : Prop := 2 ^ 52 ≤ m ∧ 2 ^ (-e).toNat ≤ m

/-- Moving a magnitude to the right until it has fifty-three bits. -/
theorem shift_atLeastOne {m : ℕ} {e : ℤ} (h : AtLeastOne m e) (accuracy : Accuracy) :
    let moved := shiftToTargetExponent .binary64 m e accuracy
    2 ^ 52 ≤ moved.1.mantissa ∧ moved.1.mantissa < 2 ^ 53 ∧ -52 ≤ moved.2 := by
  obtain ⟨hfull, hone⟩ := h
  have hm : m ≠ 0 := (Nat.lt_of_lt_of_le (Nat.two_pow_pos 52) hfull).ne'
  have hlog : 52 ≤ m.log2 := (Nat.le_log2 hm).mpr hfull
  have hpoint : (-e).toNat ≤ m.log2 := (Nat.le_log2 hm).mpr hone
  have htarget : Format.binary64.targetExponent (totalExponent m e) = m.log2 + e - 52 := by
    change max ((m.log2 : ℤ) + 1 + e - 53) (-1074) = _
    omega
  have hmove : ((m.log2 : ℤ) + e - 52 - e).toNat = m.log2 - 52 := by omega
  have hmantissa : (ExtendedMantissa.ofMantissaAndAccuracy m accuracy).mantissa = m := by
    rcases accuracy with _ | _ | _ | _ <;> rfl
  have hpow : 2 ^ m.log2 = 2 ^ 52 * 2 ^ (m.log2 - 52) := by
    rw [← pow_add]
    congr 1
    omega
  have hleast := Nat.log2_self_le hm
  have hmost : m < 2 * 2 ^ m.log2 := by
    have := @Nat.lt_log2_self m
    rwa [pow_succ, mul_comm] at this
  have hpos := Nat.two_pow_pos (m.log2 - 52)
  intro moved
  simp only [moved, shiftToTargetExponent, shiftToExponent, htarget, hmove, mantissa_shiftRight,
    hmantissa]
  refine ⟨?_, ?_, by omega⟩
  · rw [Nat.le_div_iff_mul_le hpos]
    omega
  · rw [Nat.div_lt_iff_lt_mul hpos]
    omega

theorem atLeastOne_of_full {m : ℕ} {e : ℤ} (hfull : 2 ^ 52 ≤ m) (he : -52 ≤ e) :
    AtLeastOne m e :=
  ⟨hfull, (Nat.pow_le_pow_right (by decide) (by omega)).trans hfull⟩

/-- What is at least one is at least one after rounding. -/
theorem roundWithAccuracy_atLeastOne {m : ℕ} {e : ℤ} (h : AtLeastOne m e) (s : Sign)
    (accuracy : Accuracy) :
    ∃ n f hn, roundWithAccuracy .binary64 s m e accuracy = .finite s n f hn ∧
      2 ^ 52 ≤ n ∧ n < 2 ^ 53 ∧ -52 ≤ f := by
  obtain ⟨hcut, -, hexponent⟩ := shift_atLeastOne h accuracy
  have hrounded := hcut.trans (mantissa_le_roundedMantissa _)
  -- rounding up may have given one bit too many, and the second move takes it away
  obtain ⟨hfull, hbits, hlast⟩ := shift_atLeastOne (atLeastOne_of_full hrounded hexponent) .exact
  refine ⟨_, _, Nat.lt_of_lt_of_le (Nat.two_pow_pos 52) hfull, ?_, hfull, hbits, hlast⟩
  rw [roundWithAccuracy]
  exact dif_neg (Nat.lt_of_lt_of_le (Nat.two_pow_pos 52) hfull).ne'

/-! ## Counts -/

/-- The parts of a positive number that is at least one, or infinite. -/
def IsCount : UnpackedFloat → Prop
  | .infinity .positive => True
  | .finite .positive m e _ => 2 ^ 52 ≤ m ∧ -52 ≤ e
  | _ => False

theorem isCount_round {m : ℕ} {e : ℤ} (h : AtLeastOne m e) (accuracy : Accuracy) :
    IsCount (repack (roundWithAccuracy .binary64 .positive m e accuracy)) := by
  obtain ⟨n, f, hn, heq, hfull, hbits, hexponent⟩ :=
    roundWithAccuracy_atLeastOne h .positive accuracy
  rw [heq, repack_full .positive n f hn hfull hbits (by omega)]
  split_ifs
  · trivial
  · exact ⟨hfull, hexponent⟩

/-- A product of such numbers. -/
theorem IsCount.mul {u v : UnpackedFloat} (hu : IsCount u) (hv : IsCount v) :
    IsCount (repack (UnpackedFloat.mul .binary64 u v)) := by
  have hinfinite : IsCount (repack (.infinity .positive)) := trivial
  match u, v, hu, hv with
  | .infinity .positive, .infinity .positive, _, _ => exact hinfinite
  | .infinity .positive, .finite .positive _ _ _, _, _ => exact hinfinite
  | .finite .positive _ _ _, .infinity .positive, _, _ => exact hinfinite
  | .finite .positive m e hm, .finite .positive n f hn, ⟨hfull, he⟩, ⟨hfull', hf⟩ =>
    have hproduct : 2 ^ 104 ≤ m * n := by
      rw [show 104 = 52 + 52 from rfl, pow_add]
      exact Nat.mul_le_mul hfull hfull'
    refine isCount_round ⟨?_, ?_⟩ .exact
    · exact (Nat.pow_le_pow_right (by decide) (by decide)).trans hproduct
    · exact (Nat.pow_le_pow_right (by decide) (by omega)).trans hproduct

theorem ofNat_eq_round {n : ℕ} (h : 0 < n) :
    UnpackedFloat.ofNat .binary64 n = UnpackedFloat.round .binary64 .positive n 0 := by
  rw [UnpackedFloat.ofNat, UnpackedFloat.ofInt, UnpackedFloat.normalize,
    Int.compare_eq_gt.mpr (Int.natCast_pos.mpr h)]
  rfl

/-- A whole number is moved to the left first, until it has all of its bits. -/
theorem isCount_ofNat {n : ℕ} (h : 0 < n) : IsCount (repack (UnpackedFloat.ofNat .binary64 n)) := by
  have htarget : Format.binary64.targetExponent (totalExponent n 0) = n.log2 - 52 := by
    change max ((n.log2 : ℤ) + 1 + 0 - 53) (-1074) = _
    omega
  have hmove : ((0 : ℤ) - (n.log2 - 52)).toNat = 52 - n.log2 := by omega
  have hleast := Nat.log2_self_le h.ne'
  have hfull : 2 ^ 52 ≤ n * 2 ^ (52 - n.log2) := by
    calc 2 ^ 52 ≤ 2 ^ (n.log2 + (52 - n.log2)) := Nat.pow_le_pow_right (by decide) (by omega)
      _ = 2 ^ n.log2 * 2 ^ (52 - n.log2) := pow_add _ _ _
      _ ≤ n * 2 ^ (52 - n.log2) := Nat.mul_le_mul_right _ hleast
  rw [ofNat_eq_round h, UnpackedFloat.round]
  simp only [htarget, decreaseExponent, hmove, Nat.shiftLeft_eq]
  refine isCount_round ⟨hfull, ?_⟩ .exact
  rw [show (-((0 : ℤ) - (52 - n.log2 : ℕ))).toNat = 52 - n.log2 by omega]
  exact Nat.le_mul_of_pos_left _ h

/-- A whole number as a decimal numeral without a fraction. -/
theorem isCount_ofScientific {n : ℕ} (h : 0 < n) :
    IsCount (repack (UnpackedFloat.ofScientific .binary64 n 0)) := by
  have hpower : (0 : ℤ) ≤ 2 ^ Format.binary64.exponentBits := by positivity
  rw [UnpackedFloat.ofScientific, dif_neg h.ne', if_neg hpower.not_gt, if_neg (by omega),
    if_pos le_rfl, UnpackedFloat.mul]
  have hmantissa : 2 ^ 53 ≤ n <<< Format.binary64.mantissaBits * 10 ^ (0 : ℤ).toNat := by
    rw [Nat.shiftLeft_eq, show (0 : ℤ).toNat = 0 from rfl, pow_zero, mul_one]
    exact Nat.le_mul_of_pos_left _ h
  have hone : AtLeastOne (n <<< Format.binary64.mantissaBits * 10 ^ (0 : ℤ).toNat) (-53) :=
    ⟨(Nat.pow_le_pow_right (by decide) (by decide)).trans hmantissa, hmantissa⟩
  exact isCount_round hone .exact

theorem isCount_one : IsCount (parts 1) := ⟨by decide, by decide⟩

/-- **A count of at least one is at least one as a floating-point number**, or infinite. -/
theorem isCount_parts {n : ℕ} (h : 0 < n) : IsCount (parts (Float.ofNat n)) := by
  change IsCount (parts (Float.ofScientific n false 0))
  rw [Float.ofScientific]
  by_cases hsmall : n < 2 ^ 53 ∧ 0 ≤ 22
  · have hword : 0 < n.toUInt64.toNat := by
      rw [Nat.toUInt64, UInt64.toNat_ofNat']
      omega
    rw [dif_pos hsmall]
    exact (isCount_ofNat hword).mul isCount_one
  · rw [dif_neg hsmall]
    exact isCount_ofScientific h

end SignalLab.Floating
