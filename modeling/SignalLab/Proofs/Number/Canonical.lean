import SignalLab.Proofs.Number.Zero

/-!
# Calculations without rounding

Among all ways of writing a finite number as a significand and an exponent, one is that of the numbers
themselves (`Canonical`): the significand has fifty-three bits, or the exponent is the least one. A
result that is such a number, only with zeros behind its significand, is not rounded
(`roundWithAccuracy_exact`).

So a number stays what it is when it is multiplied with one, divided by one or has a zero taken away
from it, a number less itself is a zero, and whole numbers below `2 ^ 53` are what they are.
-/

namespace SignalLab.Floating

open Float.Model
open Float.Model.UnpackedFloat

variable {x y : Float}

/-! ## Numbers in canonical form -/

/-- At most fifty-three bits, and all of them unless the exponent is the least one. -/
def Canonical (m : ℕ) (e : ℤ) : Prop := m.log2 ≤ 52 ∧ -1074 ≤ e ∧ (m.log2 = 52 ∨ e = -1074)

/-- A finite number is in canonical form. -/
theorem canonical_of_parts {s : Sign} {m : ℕ} {e : ℤ} {hm : 0 < m}
    (h : parts x = .finite s m e hm) : Canonical m e := by
  have hbits : (@unpackMantissa .binary64 x.toModel.toBits.toBitVec).toNat < 2 ^ 52 :=
    BitVec.isLt _
  have hbias : ((Format.binary64.exponentBias : ℕ) : ℤ) + (52 : ℕ) = 1075 := rfl
  change UnpackedFloat.unpack .binary64 x.toModel.toBits.toBitVec = _ at h
  rw [UnpackedFloat.unpack] at h
  dsimp only at h
  split_ifs at h with hgreatest hfraction hleast hfraction
  · -- the least exponent, which comes without a leading one
    rw [finite.injEq, hleast, hbias] at h
    obtain ⟨-, rfl, rfl⟩ := h
    have hlog := (Nat.log2_lt hm.ne').mpr hbits
    refine ⟨by omega, ?_, .inr ?_⟩ <;> simp
  · rw [finite.injEq, toNat_leadingOne, hbias] at h
    obtain ⟨-, rfl, rfl⟩ := h
    have hpos : 0 < (@unpackExponent .binary64 x.toModel.toBits.toBitVec).toNat := by
      rw [Nat.pos_iff_ne_zero]
      exact fun hzero => hleast (BitVec.toNat_inj.mp hzero)
    have hlog := (Nat.log2_eq_iff (k := 52) hm.ne').mpr ⟨Nat.le_add_right _ _, by omega⟩
    exact ⟨hlog.le, by omega, .inl hlog⟩

/-- The greatest exponent of a finite number. -/
theorem exponent_le_of_parts {s : Sign} {m : ℕ} {e : ℤ} {hm : 0 < m}
    (h : parts x = .finite s m e hm) : e ≤ 971 := by
  have hbias : ((Format.binary64.exponentBias : ℕ) : ℤ) + (52 : ℕ) = 1075 := rfl
  change UnpackedFloat.unpack .binary64 x.toModel.toBits.toBitVec = _ at h
  rw [UnpackedFloat.unpack] at h
  dsimp only at h
  split_ifs at h with hgreatest hfraction hleast hfraction
  · rw [finite.injEq, hleast, hbias] at h
    obtain ⟨-, -, rfl⟩ := h
    simp
  · rw [finite.injEq, hbias] at h
    obtain ⟨-, -, rfl⟩ := h
    have hlt : (@unpackExponent .binary64 x.toModel.toBits.toBitVec).toNat < 2048 := BitVec.isLt _
    have hne : (@unpackExponent .binary64 x.toModel.toBits.toBitVec).toNat ≠ 2047 :=
      fun heq => hgreatest (BitVec.toNat_inj.mp heq)
    omega

/-- The parts of a number are packed and unpacked without a change. -/
theorem repack_of_parts {u : UnpackedFloat} (h : parts x = u) : repack u = u := by
  rw [← h]
  exact congrArg (UnpackedFloat.unpack .binary64) (pack_unpack_of_valid x.toModel.valid)

/-- A finite number without a leading one is itself after packing. -/
theorem repack_subnormal (s : Sign) (m : ℕ) (hm : 0 < m) (hbits : m < 2 ^ 52) :
    repack (.finite s m (-1074) hm) = .finite s m (-1074) hm := by
  have hlog : m.log2 < 52 := (Nat.log2_lt hm.ne').mpr hbits
  have hbiased : ((-1074 : ℤ) + Format.binary64.exponentBias +
      Format.binary64.mantissaBitsWithoutImplicit).toNat = 1 := rfl
  have hfraction : (BitVec.ofNat 52 m).toNat = m := by
    rw [BitVec.toNat_ofNat, Nat.mod_eq_of_lt hbits]
  have hne : BitVec.ofNat 52 m ≠ 0#52 := by
    intro h
    have hzero := congrArg BitVec.toNat h
    rw [hfraction] at hzero
    exact hm.ne' hzero
  change UnpackedFloat.unpack .binary64 (UnpackedFloat.pack .binary64 (.finite s m (-1074) hm)) = _
  rw [UnpackedFloat.pack]
  simp only [hbiased]
  rw [if_neg (by decide), if_neg (by change ¬ m.log2 + 1 = 53; omega), UnpackedFloat.unpack]
  simp only [unpackMantissa_packComponents, unpackExponent_packComponents,
    unpackSign_packComponents, Sign.ofBitVec_toBitVec]
  rw [if_neg (by decide), if_pos trivial, dif_neg hne]
  simp only [hfraction]
  rfl

/-- A finite number in canonical form whose exponent is not too large is itself after packing. -/
theorem repack_of_canonical {m : ℕ} {e : ℤ} (h : Canonical m e) (he : e ≤ 971) (s : Sign)
    (hm : 0 < m) : repack (.finite s m e hm) = .finite s m e hm := by
  obtain ⟨hlog, hleast, hfull⟩ := h
  have hbits : m < 2 ^ 53 := (Nat.log2_lt hm.ne').mp (by omega)
  by_cases hone : 2 ^ 52 ≤ m
  · rw [repack_full s m e hm hone hbits hleast, if_neg (by omega)]
  · obtain rfl : e = -1074 := by
      refine hfull.resolve_left fun heq => hone ?_
      exact (Nat.le_log2 hm.ne').mp heq.ge
    exact repack_subnormal s m hm (by omega)

/-! ## Results that are not rounded -/

theorem targetExponent_eq (m : ℕ) (e : ℤ) :
    Format.binary64.targetExponent (totalExponent m e) = max (m.log2 + e - 52) (-1074) := by
  change max ((m.log2 : ℤ) + 1 + e - 53) (-1074) = _
  omega

theorem log2_mul_two_pow {m : ℕ} (hm : m ≠ 0) (k : ℕ) : (m * 2 ^ k).log2 = m.log2 + k := by
  induction k with
  | zero => rw [pow_zero, Nat.mul_one, Nat.add_zero]
  | succ k ih =>
    have hpos : m * 2 ^ k ≠ 0 := by positivity
    rw [pow_succ, ← Nat.mul_assoc, Nat.mul_comm _ 2, Nat.log2_two_mul hpos, ih, Nat.add_assoc]

/-- Moving a significand to the right over zeros loses nothing. -/
theorem shiftRight_exact (m k : ℕ) :
    (⟨m * 2 ^ k, false, false⟩ : ExtendedMantissa) >>> k = ⟨m, false, false⟩ := by
  induction k generalizing m with
  | zero =>
    rw [pow_zero, Nat.mul_one]
    rfl
  | succ k ih =>
    have hfirst : (⟨m * 2 ^ (k + 1), false, false⟩ : ExtendedMantissa) >>> k =
        ⟨m * 2, false, false⟩ := by
      rw [pow_succ', ← Nat.mul_assoc]
      exact ih (m * 2)
    change ((⟨m * 2 ^ (k + 1), false, false⟩ : ExtendedMantissa) >>> k).shiftRightOne = _
    rw [hfirst, ExtendedMantissa.shiftRightOne]
    simp

theorem shiftToTargetExponent_exact {m : ℕ} {e : ℤ} (h : Canonical m e) (hm : 0 < m) (k : ℕ) :
    shiftToTargetExponent .binary64 (m * 2 ^ k) (e - k) .exact = (⟨m, false, false⟩, e) := by
  have htarget : Format.binary64.targetExponent (totalExponent (m * 2 ^ k) (e - k)) = e := by
    obtain ⟨hlog, hleast, hfull⟩ := h
    rw [targetExponent_eq, log2_mul_two_pow hm.ne']
    omega
  have hmove : (e - (e - k)).toNat = k := by omega
  simp only [shiftToTargetExponent, shiftToExponent, htarget, hmove, sub_add_cancel]
  rw [ExtendedMantissa.ofMantissaAndAccuracy, shiftRight_exact]

/-- **What is in canonical form, but for zeros behind its significand, is not rounded.** -/
theorem roundWithAccuracy_exact {m : ℕ} {e : ℤ} (h : Canonical m e) (hm : 0 < m) (s : Sign)
    (k : ℕ) : roundWithAccuracy .binary64 s (m * 2 ^ k) (e - k) .exact = .finite s m e hm := by
  have hagain : shiftToTargetExponent .binary64 m e .exact = (⟨m, false, false⟩, e) := by
    have hshift := shiftToTargetExponent_exact h hm 0
    rwa [pow_zero, Nat.mul_one, Nat.cast_zero, Int.sub_zero] at hshift
  rw [roundWithAccuracy]
  simp only [shiftToTargetExponent_exact h hm k, ExtendedMantissa.roundedMantissa,
    ExtendedMantissa.accuracy, Accuracy.roundToNearestEven, hagain]
  exact dif_neg hm.ne'

/-! ## Products with one, quotients by one -/

theorem parts_one : parts 1 = .finite .positive (2 ^ 52) (-52) (by decide) := rfl

theorem sign_mul_positive (s : Sign) : s * .positive = s := by cases s <;> rfl

theorem sign_div_positive (s : Sign) : s / .positive = s := by cases s <;> rfl

protected theorem mul_one (x : Float) : x * 1 = x := by
  rw [← parts_inj, parts_mul, parts_one]
  rcases hx : parts x with s | _ | s | ⟨s, m, e, hm⟩
  · cases s <;> exact repack_of_parts hx
  · exact repack_of_parts hx
  · cases s <;> exact repack_of_parts hx
  · have hmul : UnpackedFloat.mul .binary64 (.finite s m e hm)
        (.finite .positive (2 ^ 52) (-52) (by decide)) = .finite s m e hm := by
      rw [UnpackedFloat.mul, sign_mul_positive]
      exact roundWithAccuracy_exact (canonical_of_parts hx) hm s 52
    rw [hmul, repack_of_parts hx]

/-- A significand divided by that of one is itself, with one more zero behind it if there is room
for a smaller exponent. -/
theorem div_parts_one {m : ℕ} {e : ℤ} (h : Canonical m e) (hm : 0 < m) (s : Sign) :
    UnpackedFloat.div .binary64 (.finite s m e hm)
      (.finite .positive (2 ^ 52) (-52) (by decide)) = .finite s m e hm := by
  have htarget : Format.binary64.targetExponent
      (totalExponent m e - totalExponent (2 ^ 52) (-52)) = max (m.log2 + e - 53) (-1074) := by
    have hone : totalExponent (2 ^ 52) (-52) = 1 := by
      rw [totalExponent, Nat.log2_two_pow]
      rfl
    rw [hone]
    change max ((m.log2 : ℤ) + 1 + e - 1 - 53) (-1074) = _
    omega
  obtain ⟨k, hexponent⟩ : ∃ k : ℕ, min (e - -52) (Format.binary64.targetExponent
      (totalExponent m e - totalExponent (2 ^ 52) (-52))) = e - k := by
    obtain ⟨hlog, hleast, hfull⟩ := h
    refine ⟨(e - max (m.log2 + e - 53) (-1074)).toNat, ?_⟩
    rw [htarget]
    omega
  have hmove : (e - -52 - (e - k)).toNat = 52 + k := by omega
  have hquotient : m <<< (52 + k) = m * 2 ^ k * 2 ^ 52 := by
    rw [Nat.shiftLeft_eq, pow_add, Nat.mul_comm (2 ^ 52), Nat.mul_assoc]
  rw [UnpackedFloat.div]
  simp only [divCore, hexponent, hmove, hquotient, accuracyOfFraction]
  rw [Nat.mul_div_cancel _ (by decide), Nat.mul_mod_left, if_pos rfl, sign_div_positive]
  exact roundWithAccuracy_exact h hm s k

protected theorem div_one (x : Float) : x / 1 = x := by
  rw [← parts_inj, parts_div, parts_one]
  rcases hx : parts x with s | _ | s | ⟨s, m, e, hm⟩
  · cases s <;> exact repack_of_parts hx
  · exact repack_of_parts hx
  · cases s <;> exact repack_of_parts hx
  · rw [div_parts_one (canonical_of_parts hx) hm s, repack_of_parts hx]

/-! ## Zeros in sums and differences -/

protected theorem sub_zero (x : Float) : x - 0 = x := by
  rw [← parts_inj, parts_sub]
  change repack (UnpackedFloat.sub .binary64 (parts x) (.zero .positive)) = parts x
  rcases hx : parts x with s | _ | s | ⟨s, m, e, hm⟩
  · exact repack_of_parts hx
  · exact repack_of_parts hx
  · cases s <;> exact repack_of_parts hx
  · exact repack_of_parts hx

protected theorem add_comm (x y : Float) : x + y = y + x := by
  rw [← parts_inj, parts_add, parts_add]
  congr 1
  rcases parts x with (_ | _) | _ | (_ | _) | ⟨s, m, e, hm⟩ <;>
    rcases parts y with (_ | _) | _ | (_ | _) | ⟨s', n, f, hn⟩ <;>
    simp [UnpackedFloat.add, min_comm, Int.add_comm]

/-- Numbers that compare equal are the same or zeros. -/
theorem eq_or_isZero_of_beq (h : (x == y) = true) : x = y ∨ IsZero x ∧ IsZero y := by
  have hpositive : IsZero 0 := ⟨.positive, rfl⟩
  have hnegative : IsZero (-0) := ⟨.negative, rfl⟩
  obtain ⟨-, -, rfl | ⟨rfl, rfl⟩ | ⟨rfl, rfl⟩⟩ := Float.beq_iff_ne_nan_and_eq.mp h
  · exact .inl rfl
  · exact .inr ⟨hpositive, hnegative⟩
  · exact .inr ⟨hnegative, hpositive⟩

theorem beq_of_isZero (hx : IsZero x) (hy : IsZero y) : (x == y) = true :=
  PartialEquivBEq.trans (isZero_iff.mp hx) (PartialEquivBEq.symm (isZero_iff.mp hy))

theorem isFinite_of_beq (h : (x == y) = true) (hy : y.isFinite = true) : x.isFinite = true := by
  obtain rfl | ⟨hx, -⟩ := eq_or_isZero_of_beq h
  · exact hy
  · exact hx.isFinite

/-- A zero that is added to a number changes at most the sign of a zero. -/
theorem add_beq (hx : x.isNaN = false) (hy : IsZero y) : (x + y == x) = true := by
  by_cases hzero : IsZero x
  · exact beq_of_isZero (hzero.add hy) hzero
  · have hsum : x + y = x := by
      obtain ⟨s', hs'⟩ := hy
      rw [← parts_inj, parts_add, hs']
      rcases hparts : parts x with s | _ | s | ⟨s, m, e, hm⟩
      · exact repack_of_parts hparts
      · exact repack_of_parts hparts
      · exact absurd ⟨s, hparts⟩ hzero
      · exact repack_of_parts hparts
    rw [Float.isNaN_eq_decide_eq_nan, decide_eq_false_iff_not] at hx
    rw [hsum]
    exact Float.beq_self_iff.mpr hx

theorem isZero_sub_self (hx : x.isFinite = true) : IsZero (x - x) := by
  rw [isFinite_eq_parts] at hx
  rw [IsZero, parts_sub]
  rcases hparts : parts x with s | _ | s | ⟨s, m, e, hm⟩
  · rw [hparts] at hx
    cases hx
  · rw [hparts] at hx
    cases hx
  · cases s <;> exact ⟨_, repack_zero _⟩
  · rw [UnpackedFloat.sub]
    dsimp only
    rw [Int.sub_self]
    exact ⟨_, repack_zero _⟩

/-- **The difference of finite numbers that compare equal is a zero.** -/
theorem isZero_sub_of_beq (h : (x == y) = true) (hy : y.isFinite = true) : IsZero (x - y) := by
  obtain rfl | ⟨hx, hzero⟩ := eq_or_isZero_of_beq h
  · exact isZero_sub_self hy
  · exact hx.sub hzero

/-! ## Whole numbers -/

/-- **A whole number below `2 ^ 53` is exact**: its significand is moved to the left until it has all
of its bits. -/
theorem parts_ofNat {n : ℕ} (hpos : 0 < n) (hlt : n < 2 ^ 53) :
    parts (Float.ofNat n) = .finite .positive (n * 2 ^ (52 - n.log2)) (-(52 - n.log2 : ℕ))
      (by positivity) := by
  have hlog : n.log2 ≤ 52 := Nat.le_of_lt_succ ((Nat.log2_lt hpos.ne').mpr hlt)
  have hfull : (n * 2 ^ (52 - n.log2)).log2 = 52 := by
    rw [log2_mul_two_pow hpos.ne']
    omega
  have hcanonical : Canonical (n * 2 ^ (52 - n.log2)) (-(52 - n.log2 : ℕ)) :=
    ⟨hfull.le, by omega, .inl hfull⟩
  have hround : UnpackedFloat.ofNat .binary64 n = .finite .positive (n * 2 ^ (52 - n.log2))
      (-(52 - n.log2 : ℕ)) (by positivity) := by
    have hmove : (-max ((n.log2 : ℤ) + 0 - 52) (-1074)).toNat = 52 - n.log2 := by omega
    have hexact := roundWithAccuracy_exact hcanonical (by positivity) .positive 0
    rw [pow_zero, Nat.mul_one, Nat.cast_zero, Int.sub_zero] at hexact
    rw [ofNat_eq_round hpos, UnpackedFloat.round, targetExponent_eq]
    simp only [decreaseExponent, Int.zero_sub, hmove, Nat.shiftLeft_eq]
    exact hexact
  have hword : n.toUInt64.toNat = n := by
    rw [Nat.toUInt64, UInt64.toNat_ofNat']
    omega
  have hfloat : parts n.toUInt64.toFloat = repack (UnpackedFloat.ofNat .binary64 n) := by
    conv_rhs => rw [← hword]
    rfl
  have hdecimal : Float.ofNat n = n.toUInt64.toFloat * 1 := by
    change Float.ofScientific n false 0 = _
    rw [Float.ofScientific, dif_pos ⟨hlt, by decide⟩]
    rfl
  have hbits := (Nat.log2_eq_iff (k := 52) (by positivity)).mp hfull
  rw [hdecimal, Floating.mul_one, hfloat, hround, repack_full _ _ _ _ hbits.1 hbits.2 (by omega),
    if_neg (by omega)]

end SignalLab.Floating
