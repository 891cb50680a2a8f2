import SignalLab.Decimal.Shortest
import SignalLab.Proofs.Number.Canonical

/-!
# Rounding to the nearest number

A result is computed as a significand with two bits behind it: whether the number is a half or more of
the last place above the significand, and whether there is anything beyond that (`Tells`). These bits
are kept when the significand is moved to the right (`Tells.shiftRight`), so that what comes out at the
end is the whole number nearest to the moved result (`Tells.isNearest`), the even one of two.

Every number has an interval around it, given by `Decimal.Rounding`, half way to its two neighbours. A
result in this interval is rounded to the number (`roundWithAccuracy_of_holds`). The one case in
which the result is not cut off where the number ends is that of a power of two and a result below it:
there the result is cut off one place behind, is rounded up to one bit more than fits, and is moved
once more. Products and quotients of significands are results of this kind (`mul_of_holds`,
`div_of_holds`).
-/

namespace SignalLab

/-- What lies in the interval of a number. -/
def Decimal.Rounding.Holds (r : Rounding) (y : ℚ) : Prop :=
  if r.closed then r.low * 2 ^ r.exponent ≤ y ∧ y ≤ r.high * 2 ^ r.exponent
  else r.low * 2 ^ r.exponent < y ∧ y < r.high * 2 ^ r.exponent

namespace Floating

open Float.Model
open Float.Model.UnpackedFloat
open Decimal (Rounding)

/-! ## Significands with residual bits -/

/-- A significand and its residual bits tell of a number, in units of the last place. -/
def Tells : ExtendedMantissa → ℚ → Prop
  | ⟨m, false, false⟩, x => x = m
  | ⟨m, false, true⟩, x => m < x ∧ x < m + 1 / 2
  | ⟨m, true, false⟩, x => x = m + 1 / 2
  | ⟨m, true, true⟩, x => m + 1 / 2 < x ∧ x < m + 1

variable {em : ExtendedMantissa} {x : ℚ}

/-- The significand is what is before the point. -/
theorem Tells.bounds (h : Tells em x) : em.mantissa ≤ x ∧ x < em.mantissa + 1 := by
  obtain ⟨m, _ | _, _ | _⟩ := em
  all_goals
    simp only [Tells] at h ⊢
    constructor <;> linarith

/-- The bit that is moved out becomes the first of the residual bits. -/
theorem Tells.shiftRightOne (h : Tells em x) : Tells em.shiftRightOne (x / 2) := by
  obtain ⟨m, roundBit, stickyBit⟩ := em
  obtain ⟨n, rfl | rfl⟩ := Nat.even_or_odd' m
  · have hhalf : 2 * n / 2 = n := by omega
    cases roundBit <;> cases stickyBit <;>
      simp only [ExtendedMantissa.shiftRightOne, Tells, hhalf, Nat.mul_mod_right, bne_self_eq_false,
        Bool.or_self, Bool.or_true, Bool.or_false] at h ⊢ <;>
      push_cast at h <;>
      first | linarith | constructor <;> linarith
  · have hhalf : (2 * n + 1) / 2 = n := by omega
    have hodd : ((2 * n + 1) % 2 != 0) = true := by
      rw [bne_iff_ne]
      omega
    cases roundBit <;> cases stickyBit <;>
      simp only [ExtendedMantissa.shiftRightOne, Tells, hhalf, hodd, Bool.or_self, Bool.or_true,
        Bool.or_false] at h ⊢ <;>
      push_cast at h <;>
      first | linarith | constructor <;> linarith

theorem Tells.shiftRight (h : Tells em x) (k : ℕ) : Tells (em >>> k) (x / 2 ^ k) := by
  induction k with
  | zero =>
    rw [pow_zero, div_one]
    exact h
  | succ k ih =>
    rw [pow_succ, ← div_div]
    exact ih.shiftRightOne

/-! ## Nearest whole numbers -/

/-- The whole number nearest to a number, the even one of two. -/
structure IsNearest (x : ℚ) (n : ℕ) : Prop where
  least : n - 1 / 2 ≤ x
  greatest : x ≤ n + 1 / 2
  even_of_least : n - 1 / 2 = x → n % 2 = 0
  even_of_greatest : x = n + 1 / 2 → n % 2 = 0

/-- Only one number is nearest. -/
theorem IsNearest.unique {n n' : ℕ} (h : IsNearest x n) (h' : IsNearest x n') : n = n' := by
  by_contra hne
  wlog hlt : n < n' generalizing n n'
  · exact this h' h (Ne.symm hne) (by omega)
  -- half way between two neighbours both would be even
  have hnext : (n : ℚ) + 1 ≤ n' := by exact_mod_cast hlt
  have hn := h.greatest
  have hn' := h'.least
  have heven := h.even_of_greatest (by linarith)
  have heven' := h'.even_of_least (by linarith)
  have hsame : (n : ℚ) + 1 = n' := by linarith
  have hsucc : n + 1 = n' := by exact_mod_cast hsame
  omega

theorem isNearest_of_lt {n : ℕ} (hleast : n - 1 / 2 < x) (hgreatest : x < n + 1 / 2) :
    IsNearest x n :=
  ⟨hleast.le, hgreatest.le, fun h => absurd h hleast.ne, fun h => absurd h hgreatest.ne⟩

/-- The residual bits decide which whole number is nearest. -/
theorem Tells.isNearest (h : Tells em x) : IsNearest x em.roundedMantissa := by
  obtain ⟨m, _ | _, _ | _⟩ := em
  · change x = m at h
    change IsNearest x m
    exact isNearest_of_lt (by linarith) (by linarith)
  · obtain ⟨hleast, hmost⟩ := h
    change IsNearest x m
    exact isNearest_of_lt (by linarith) hmost
  · change x = m + 1 / 2 at h
    change IsNearest x (m + m % 2)
    obtain heven | hodd := Nat.mod_two_eq_zero_or_one m
    · rw [heven, Nat.add_zero]
      exact ⟨by linarith, h.le, fun _ => heven, fun _ => heven⟩
    · rw [hodd]
      have hsucc : (m + 1) % 2 = 0 := by omega
      refine ⟨?_, ?_, fun _ => hsucc, fun _ => hsucc⟩ <;> push_cast <;> linarith
  · obtain ⟨hleast, hmost⟩ := h
    change IsNearest x (m + 1)
    refine isNearest_of_lt ?_ ?_ <;> push_cast <;> linarith

/-! ## The interval of a number -/

variable {M : ℕ} {q : ℤ} {y : ℚ}

/-- A quarter of the last place is the unit in which the interval of a number is given. -/
theorem quarters (n : ℕ) (q : ℤ) : (n : ℚ) * 2 ^ (q - 2) = n / 4 * 2 ^ q := by
  rw [zpow_sub₀ (by norm_num)]
  ring

/-- The interval in units of the last place. -/
theorem holds_iff : (Rounding.of M q).Holds y ↔
    if M % 2 = 0 then (Rounding.of M q).low / 4 ≤ y / 2 ^ q ∧ y / 2 ^ q ≤ M + 1 / 2
    else (Rounding.of M q).low / 4 < y / 2 ^ q ∧ y / 2 ^ q < M + 1 / 2 := by
  have hq : (0 : ℚ) < 2 ^ q := by positivity
  have hhigh : ((Rounding.of M q).high : ℚ) / 4 = M + 1 / 2 := by
    change ((4 * M + 2 : ℕ) : ℚ) / 4 = M + 1 / 2
    push_cast
    ring
  have hclosed : (Rounding.of M q).closed = decide (M % 2 = 0) := rfl
  have hexponent : (Rounding.of M q).exponent = q - 2 := rfl
  rw [Rounding.Holds, hclosed, hexponent, quarters, quarters, hhigh, le_div_iff₀ hq, div_le_iff₀ hq,
    lt_div_iff₀ hq, div_lt_iff₀ hq]
  simp only [decide_eq_true_eq]

/-- The interval reaches at most half way to the neighbours. -/
theorem isNearest_of_holds (hM : 0 < M) (h : (Rounding.of M q).Holds y) :
    IsNearest (y / 2 ^ q) M := by
  have hlow : (M : ℚ) - 1 / 2 ≤ (Rounding.of M q).low / 4 := by
    have hquarters : 4 * M ≤ (Rounding.of M q).low + 2 := by
      simp only [Rounding.of]
      split_ifs <;> omega
    have hcast : (4 : ℚ) * M ≤ (Rounding.of M q).low + 2 := by exact_mod_cast hquarters
    linarith
  rw [holds_iff] at h
  split_ifs at h with heven
  · exact ⟨hlow.trans h.1, h.2, fun _ => heven, fun _ => heven⟩
  · exact isNearest_of_lt (hlow.trans_lt h.1) h.2

/-- Below a power of two it reaches half as far, for the steps are half as long. -/
theorem le_of_holds_leadingOne (hq : -1074 < q) (h : (Rounding.of (2 ^ 52) q).Holds y) :
    2 ^ 52 - 1 / 4 ≤ y / 2 ^ q := by
  have hlow : (Rounding.of (2 ^ 52) q).low = 4 * 2 ^ 52 - 1 := if_pos ⟨rfl, hq⟩
  rw [holds_iff, if_pos (by decide), hlow] at h
  refine le_trans ?_ h.1
  norm_num

/-! ## Results that are rounded -/

/-- An exponent at which a result may be cut off: the result has fifty-three bits at most, and all of
them unless the exponent is the least one. -/
structure CutOff (y : ℚ) (t : ℤ) : Prop where
  least : -1074 ≤ t
  bits : y < 2 ^ (t + 53)
  full : t = -1074 ∨ 2 ^ (t + 52) ≤ y

theorem div_zpow_lt_iff {t : ℤ} : y / 2 ^ q < 2 ^ (t - q) ↔ y < 2 ^ t := by
  rw [div_lt_iff₀ (by positivity), ← zpow_add₀ (by norm_num), sub_add_cancel]

theorem le_div_zpow_iff {t : ℤ} : 2 ^ (t - q) ≤ y / 2 ^ q ↔ 2 ^ t ≤ y := by
  rw [le_div_iff₀ (by positivity), ← zpow_add₀ (by norm_num), sub_add_cancel]

theorem two_pow_le_zpow {n : ℕ} {t : ℤ} (h : n ≤ t) : (2 : ℚ) ^ n ≤ 2 ^ t := by
  rw [← zpow_natCast]
  exact zpow_le_zpow_right₀ one_le_two h

theorem zpow_le_two_pow {n : ℕ} {t : ℤ} (h : t ≤ n) : (2 : ℚ) ^ t ≤ 2 ^ n := by
  rw [← zpow_natCast]
  exact zpow_le_zpow_right₀ one_le_two h

/-- A result in the interval of a number is cut off where the number ends, or one place behind if it
lies below a power of two. -/
theorem Canonical.nearest_at (h : Canonical M q) (hM : 0 < M) (hy : (Rounding.of M q).Holds y)
    {t : ℤ} (ht : CutOff y t) : ∃ k : ℕ, t = q - k ∧ IsNearest (y / 2 ^ t) (M * 2 ^ k) := by
  obtain ⟨hlog, hleast, hfull⟩ := h
  obtain ⟨hleast', hbits', hfull'⟩ := ht
  rw [← div_zpow_lt_iff (q := q)] at hbits'
  rw [← le_div_zpow_iff (q := q)] at hfull'
  have hnear := isNearest_of_holds hM hy
  have hlow := hnear.least
  have hhigh := hnear.greatest
  have hbits : (M : ℚ) + 1 ≤ 2 ^ 53 := by
    exact_mod_cast (Nat.log2_lt hM.ne').mp (Nat.lt_succ_of_le hlog)
  have hmost : t ≤ q := by
    by_contra hlt
    have hlarge := hfull'.resolve_left (by omega)
    have hpower : (2 : ℚ) ^ 53 ≤ 2 ^ (t + 52 - q) := two_pow_le_zpow (by omega)
    linarith
  obtain rfl | hlt := hmost.eq_or_lt
  · exact ⟨0, by simp, by simpa using hnear⟩
  · -- the result has fewer places before the point than the number
    have hpower : (2 : ℚ) ^ (t + 53 - q) ≤ 2 ^ 52 := zpow_le_two_pow (by omega)
    obtain rfl : M = 2 ^ 52 := by
      have hleastM := (Nat.le_log2 hM.ne').mp (hfull.resolve_right (by omega)).ge
      have hmostM : (M : ℚ) < 2 ^ 52 + 1 := by linarith
      have hmostM' : M < 2 ^ 52 + 1 := by exact_mod_cast hmostM
      omega
    have hlow' := le_of_holds_leadingOne (by omega) hy
    have ht : t = q - 1 := by
      by_contra hne
      have hpower' : (2 : ℚ) ^ (t + 53 - q) ≤ 2 ^ 51 := zpow_le_two_pow (by omega)
      linarith
    have htwice : y / 2 ^ t = 2 * (y / 2 ^ q) := by
      rw [ht, zpow_sub_one₀ (by norm_num)]
      field_simp
    refine ⟨1, by rw [ht]; rfl, ?_, ?_, fun _ => rfl, fun _ => rfl⟩ <;>
      rw [htwice] <;> push_cast <;> linarith

theorem mantissa_ofMantissaAndAccuracy (m : ℕ) (accuracy : Accuracy) :
    (ExtendedMantissa.ofMantissaAndAccuracy m accuracy).mantissa = m := by
  rcases accuracy with _ | _ | _ | _ <;> rfl

variable {m : ℕ} {e : ℤ} {accuracy : Accuracy}

/-- Rounding cuts a result off at such an exponent, provided that it has bits enough. -/
theorem Tells.cutOff (h : Tells (.ofMantissaAndAccuracy m accuracy) (y / 2 ^ e))
    (hbits : 52 ≤ m.log2 ∨ e ≤ -1074) : CutOff y (max (m.log2 + e - 52) (-1074)) := by
  obtain ⟨hleast, hmost⟩ := h.bounds
  rw [mantissa_ofMantissaAndAccuracy] at hleast hmost
  refine ⟨le_max_right _ _, ?_, ?_⟩
  · rw [← div_zpow_lt_iff (q := e)]
    have hlog : (m : ℚ) + 1 ≤ 2 ^ (m.log2 + 1) := by exact_mod_cast @Nat.lt_log2_self m
    exact hmost.trans_le (hlog.trans (two_pow_le_zpow (by push_cast; omega)))
  · by_cases hend : max ((m.log2 : ℤ) + e - 52) (-1074) = -1074
    · exact .inl hend
    · have hm : m ≠ 0 := by
        rintro rfl
        rw [Nat.log2_zero] at hbits hend
        omega
      have hlog : (2 : ℚ) ^ m.log2 ≤ m := by exact_mod_cast Nat.log2_self_le hm
      rw [← le_div_zpow_iff (q := e)]
      exact .inr ((zpow_le_two_pow (by omega)).trans (hlog.trans hleast))

/-- **What lies in the interval of a number is rounded to it.** -/
theorem roundWithAccuracy_of_holds (h : Canonical M q) (hM : 0 < M)
    (hy : (Rounding.of M q).Holds y)
    (htells : Tells (.ofMantissaAndAccuracy m accuracy) (y / 2 ^ e))
    (hbits : 52 ≤ m.log2 ∨ e ≤ -1074) (s : Sign) :
    roundWithAccuracy .binary64 s m e accuracy = .finite s M q hM := by
  obtain ⟨k, hcut, hnearest⟩ := h.nearest_at hM hy (htells.cutOff hbits)
  have hmove : (((q - k - e).toNat : ℕ) : ℤ) = q - k - e := by omega
  have hmoved := htells.shiftRight (q - k - e).toNat
  rw [div_div, ← zpow_natCast, ← zpow_add₀ (by norm_num), hmove, add_sub_cancel] at hmoved
  rw [hcut] at hnearest
  have hrounded := hmoved.isNearest.unique hnearest
  have hfirst : shiftToTargetExponent .binary64 m e accuracy =
      (ExtendedMantissa.ofMantissaAndAccuracy m accuracy >>> (q - k - e).toNat, q - k) := by
    rw [shiftToTargetExponent, targetExponent_eq, hcut, shiftToExponent, hmove, add_sub_cancel]
  rw [roundWithAccuracy]
  simp only [hfirst, hrounded, shiftToTargetExponent_exact h hM k]
  exact dif_neg hM.ne'

/-! ## Products and quotients -/

variable {s₁ s₂ : Sign} {m₁ m₂ : ℕ} {e₁ e₂ : ℤ}

/-- A product in the interval of a number is the number. -/
theorem mul_of_holds (h : Canonical M q) (hM : 0 < M) (h₁ : 0 < m₁) (h₂ : 0 < m₂)
    (hy : (Rounding.of M q).Holds (m₁ * 2 ^ e₁ * (m₂ * 2 ^ e₂))) (hbits : 52 ≤ (m₁ * m₂).log2) :
    UnpackedFloat.mul .binary64 (.finite s₁ m₁ e₁ h₁) (.finite s₂ m₂ e₂ h₂) =
      .finite (s₁ * s₂) M q hM := by
  refine roundWithAccuracy_of_holds h hM hy ?_ (.inl hbits) _
  change (m₁ : ℚ) * 2 ^ e₁ * (m₂ * 2 ^ e₂) / 2 ^ (e₁ + e₂) = ((m₁ * m₂ : ℕ) : ℚ)
  rw [zpow_add₀ (by norm_num), Nat.cast_mul]
  field_simp

/-- The remainder of a division gives the residual bits. -/
theorem tells_quotient (m : ℕ) {n : ℕ} (hn : 0 < n) :
    Tells (.ofMantissaAndAccuracy (m / n) (accuracyOfFraction (m % n) n)) (m / n) := by
  have hn' : (0 : ℚ) < n := by exact_mod_cast hn
  have hsplit : (m : ℚ) / n = (m / n : ℕ) + (m % n : ℕ) / n := by
    rw [div_eq_iff hn'.ne', add_mul, div_mul_cancel₀ _ hn'.ne', mul_comm]
    exact_mod_cast (Nat.div_add_mod m n).symm
  have hlt : ((m % n : ℕ) : ℚ) / n < 1 := by
    rw [div_lt_one hn']
    exact_mod_cast Nat.mod_lt m hn
  rw [hsplit, accuracyOfFraction]
  generalize m / n = d at *
  generalize m % n = r at *
  by_cases hzero : r = 0
  · rw [if_pos hzero, hzero, Nat.cast_zero, zero_div, add_zero]
    exact rfl
  · have hpos : 0 < (r : ℚ) / n := div_pos (by exact_mod_cast Nat.pos_of_ne_zero hzero) hn'
    rw [if_neg hzero]
    rcases hcompare : compare (2 * r) n with _ | _ | _
    · have hless : (r : ℚ) / n < 1 / 2 := by
        rw [div_lt_div_iff₀ hn' (by norm_num), mul_comm, one_mul]
        exact_mod_cast Nat.compare_eq_lt.mp hcompare
      exact ⟨by linarith, by linarith⟩
    · have hhalf : (r : ℚ) / n = 1 / 2 := by
        rw [div_eq_div_iff hn'.ne' (by norm_num), mul_comm, one_mul]
        exact_mod_cast Nat.compare_eq_eq.mp hcompare
      change (d : ℚ) + r / n = d + 1 / 2
      rw [hhalf]
    · have hmore : 1 / 2 < (r : ℚ) / n := by
        rw [div_lt_div_iff₀ (by norm_num) hn', mul_comm _ 2, one_mul]
        exact_mod_cast Nat.compare_eq_gt.mp hcompare
      exact ⟨by linarith, by linarith⟩

/-- A quotient in the interval of a number is the number. -/
theorem div_of_holds (h : Canonical M q) (hM : 0 < M) (h₁ : 0 < m₁) (h₂ : 0 < m₂)
    (hy : (Rounding.of M q).Holds (m₁ * 2 ^ e₁ / (m₂ * 2 ^ e₂))) :
    UnpackedFloat.div .binary64 (.finite s₁ m₁ e₁ h₁) (.finite s₂ m₂ e₂ h₂) =
      .finite (s₁ / s₂) M q hM := by
  have htarget : Format.binary64.targetExponent (totalExponent m₁ e₁ - totalExponent m₂ e₂) =
      max ((m₁.log2 : ℤ) + e₁ - (m₂.log2 + e₂) - 53) (-1074) := by
    change max ((m₁.log2 : ℤ) + 1 + e₁ - (m₂.log2 + 1 + e₂) - 53) (-1074) = _
    omega
  rw [UnpackedFloat.div]
  simp only [divCore, htarget]
  generalize ht : min (e₁ - e₂) (max ((m₁.log2 : ℤ) + e₁ - (m₂.log2 + e₂) - 53) (-1074)) = t
  obtain ⟨k, hk⟩ : ∃ k : ℕ, e₁ - e₂ - t = k := ⟨(e₁ - e₂ - t).toNat, by omega⟩
  rw [hk, Int.toNat_natCast, Nat.shiftLeft_eq]
  refine roundWithAccuracy_of_holds h hM hy ?_ ?_ _
  · have hvalue : (m₁ : ℚ) * 2 ^ e₁ / (m₂ * 2 ^ e₂) / 2 ^ t = (m₁ * 2 ^ k : ℕ) / m₂ := by
      have he : (2 : ℚ) ^ e₁ = 2 ^ k * 2 ^ e₂ * 2 ^ t := by
        rw [← zpow_natCast, ← zpow_add₀ (by norm_num), ← zpow_add₀ (by norm_num), ← hk]
        congr 1
        omega
      rw [he, Nat.cast_mul, Nat.cast_pow, Nat.cast_two]
      field_simp
    rw [hvalue]
    exact tells_quotient _ h₂
  · by_cases hleast : t ≤ -1074
    · exact .inr hleast
    · -- the numerator has been moved far enough for fifty-three bits
      have hmoved : m₂.log2 + 53 ≤ m₁.log2 + k := by omega
      have hquotient : 2 ^ 52 ≤ m₁ * 2 ^ k / m₂ := by
        rw [Nat.le_div_iff_mul_le h₂]
        calc 2 ^ 52 * m₂ ≤ 2 ^ 52 * 2 ^ (m₂.log2 + 1) := Nat.mul_le_mul_left _ Nat.lt_log2_self.le
          _ = 2 ^ (m₂.log2 + 53) := by rw [← pow_add, Nat.add_comm]
          _ ≤ 2 ^ (m₁.log2 + k) := Nat.pow_le_pow_right (by decide) hmoved
          _ = 2 ^ m₁.log2 * 2 ^ k := pow_add _ _ _
          _ ≤ m₁ * 2 ^ k := Nat.mul_le_mul_right _ (Nat.log2_self_le h₁.ne')
      have hpos : m₁ * 2 ^ k / m₂ ≠ 0 := (hquotient.trans_lt' (by decide)).ne'
      exact .inl ((Nat.le_log2 hpos).mpr hquotient)

end Floating

end SignalLab
