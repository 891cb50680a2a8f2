import SignalLab.Proofs.Number.Value
import SignalLab.Proofs.Number.Whole
import SignalLab.Vocabulary.Rolling

/-!
# How long a window is

The length that a number asks for is computed from a significand and an exponent. It is the whole
number nearest to what the number stands for, a half upwards (`roundHalfUp_eq`), kept between the
least length and the greatest one (`windowLength_of_isFinite`).

Bounds, order and nearness are read off this. A number up to the least length is rounded to at most
the least length, so that the bound from below is what it asks for; a number from there to
`maxWindow` is rounded to a whole number between the two, so that neither bound moves it.
-/

namespace SignalLab

open Floating (value)

variable {n n' : Float} {least : ℕ}

/-! ## Rounding -/

/-- The rounding of a significand and an exponent is that of the number. -/
theorem roundHalfUp_eq (m : ℕ) (q : ℤ) : roundHalfUp m q = ⌊(m * 2 ^ q + 1 / 2 : ℚ)⌋₊ := by
  have hpower : (2 : ℚ) ^ q = 2 ^ q.toNat / 2 ^ (-q).toNat := by
    rw [← zpow_natCast, ← zpow_natCast, ← zpow_sub₀ (by norm_num)]
    congr 1
    omega
  have hquotient : (m * 2 ^ q + 1 / 2 : ℚ) =
      (2 * (m * 2 ^ q.toNat) + 2 ^ (-q).toNat : ℕ) / (2 * 2 ^ (-q).toNat : ℕ) := by
    push_cast
    rw [hpower]
    field_simp
  rw [hquotient, Nat.floor_div_eq_div]
  rfl

/-- What is not finite asks for the least length. -/
theorem windowLength_of_not_isFinite (h : n.isFinite = false) (least : ℕ) :
    windowLength n least = least := by
  rw [Floating.isFinite_eq_parts] at h
  rw [windowLength, Floating.ofFloat_eq]
  generalize Floating.parts n = u at h ⊢
  rcases u with _ | _ | _ | _
  · rfl
  · rfl
  · cases h
  · cases h

/-- **A finite number asks for the nearest whole number**, a half upwards, as far as it is between
the least length and the greatest one. -/
theorem windowLength_of_isFinite (h : n.isFinite = true) (least : ℕ) :
    windowLength n least = max least (min ⌊value n + 1 / 2⌋₊ maxWindow) := by
  -- what is not positive is rounded to zero
  have hleast {v : ℚ} (hv : v ≤ 0) : max least (min ⌊v + 1 / 2⌋₊ maxWindow) = least := by
    rw [Nat.floor_eq_zero.mpr (by linarith), Nat.zero_min, Nat.max_zero]
  rw [Floating.isFinite_eq_parts] at h
  rw [windowLength, Floating.ofFloat_eq, value]
  generalize Floating.parts n = u at h ⊢
  rcases u with _ | _ | s | ⟨s, m, e, hm⟩
  case infinity | notANumber => cases h
  case zero =>
    cases s with
    | negative => exact (hleast le_rfl).symm
    | positive =>
      change max least (min (roundHalfUp 0 (-1074)) maxWindow) = _
      rw [roundHalfUp_eq, Nat.cast_zero, zero_mul]
      rfl
  case finite =>
    cases s with
    | negative =>
      have hpos : (0 : ℚ) < m * 2 ^ e := by positivity
      exact (hleast (neg_nonpos_of_nonneg hpos.le)).symm
    | positive =>
      change max least (min (roundHalfUp m e) maxWindow) = _
      rw [roundHalfUp_eq]
      rfl

/-! ## Bounds, order and nearness -/

/-- A number up to the least length asks for the least length. -/
theorem windowLength_eq_least (h : least ≤ maxWindow) (hn : n ≤ Float.ofNat least) :
    windowLength n least = least := by
  cases hfinite : n.isFinite with
  | false => exact windowLength_of_not_isFinite hfinite least
  | true =>
    have hexact : least < 2 ^ 53 := h.trans_lt (by decide)
    have hvalue := (Floating.le_iff_value_le hfinite (Floating.isFinite_ofNat hexact)).mp hn
    rw [Floating.value_ofNat hexact] at hvalue
    have hfloor : ⌊value n + 1 / 2⌋₊ < least + 1 := by
      rw [Nat.floor_lt' (Nat.succ_ne_zero least)]
      push_cast
      linarith
    rw [windowLength_of_isFinite hfinite]
    omega

/-- A greater number does not ask for a shorter window. -/
theorem windowLength_mono (hn : n.isFinite = true) (hn' : n'.isFinite = true) (h : n ≤ n')
    (least : ℕ) : windowLength n least ≤ windowLength n' least := by
  have hvalue := (Floating.le_iff_value_le hn hn').mp h
  rw [windowLength_of_isFinite hn, windowLength_of_isFinite hn']
  gcongr

/-- Between the least length and the greatest one, no whole number is nearer, and a half goes up. -/
theorem windowLength_nearest (h : least ≤ maxWindow) (hleast : Float.ofNat least < n)
    (hmost : n ≤ Float.ofNat maxWindow) (hn : n.isFinite = true) :
    windowLength n least - 1 / 2 ≤ value n ∧ value n < windowLength n least + 1 / 2 := by
  have hexact : least < 2 ^ 53 := h.trans_lt (by decide)
  have hexact' : maxWindow < 2 ^ 53 := by decide
  rw [Floating.lt_iff_value_lt (Floating.isFinite_ofNat hexact) hn,
    Floating.value_ofNat hexact] at hleast
  rw [Floating.le_iff_value_le hn (Floating.isFinite_ofNat hexact'),
    Floating.value_ofNat hexact'] at hmost
  have hlength : windowLength n least = ⌊value n + 1 / 2⌋₊ := by
    have hlow : least ≤ ⌊value n + 1 / 2⌋₊ := Nat.le_floor (by linarith)
    have hhigh : ⌊value n + 1 / 2⌋₊ < maxWindow + 1 := by
      rw [Nat.floor_lt' (Nat.succ_ne_zero _)]
      push_cast
      linarith
    rw [windowLength_of_isFinite hn]
    omega
  have hpos : (0 : ℚ) ≤ value n := (Nat.cast_nonneg least).trans hleast.le
  have hfloor := Nat.floor_le (show 0 ≤ value n + 1 / 2 by linarith)
  have hceil := Nat.lt_floor_add_one (value n + 1 / 2)
  rw [hlength]
  constructor <;> linarith

/-- A window of an aggregate holds a sample, and the number of its samples is positive as a
floating-point number as well. -/
theorem ofCount_windowLength_pos (n : Float) : (0 : Float) < Number.ofCount (windowLength n 1) := by
  have hpos : 1 ≤ windowLength n 1 := le_windowLength n 1
  have hexact : windowLength n 1 < 2 ^ 53 := (windowLength_le (by decide) n).trans_lt (by decide)
  change Float.ofNat 0 < Float.ofNat (windowLength n 1)
  rw [Floating.lt_iff_value_lt (Floating.isFinite_ofNat (by decide))
    (Floating.isFinite_ofNat hexact), Floating.value_ofNat (by decide),
    Floating.value_ofNat hexact]
  exact_mod_cast hpos

/-- **The length that a number asks for.** It is between the least length and `maxWindow`. It is the
least length for what is not finite and for every number up to it; a greater finite number asks for
no shorter window; and from the least length to `maxWindow` it is the whole number nearest to what
the number stands for, a half upwards. So the windows of the aggregates hold a sample: the
exponential average has an oldest one to start from, and the mean is no quotient by zero. -/
theorem windowLength_bounded_monotone_nearest (h : least ≤ maxWindow) (n : Float) :
    (least ≤ windowLength n least ∧ windowLength n least ≤ maxWindow) ∧
    (n.isFinite = false ∨ n ≤ Float.ofNat least → windowLength n least = least) ∧
    (∀ n' : Float, n.isFinite = true → n'.isFinite = true → n ≤ n' →
      windowLength n least ≤ windowLength n' least) ∧
    (n.isFinite = true → Float.ofNat least < n → n ≤ Float.ofNat maxWindow →
      windowLength n least - 1 / 2 ≤ value n ∧ value n < windowLength n least + 1 / 2) ∧
    ∀ (x lengths : Signal) (t : Offset),
      let k := windowLength (lengths t) 1
      k - 1 + 1 = k ∧ (0 : Float) < Number.ofCount k ∧
      Rolling.windowed Window.exponential x lengths t = Window.exponential x t k ∧
      Rolling.windowed Window.mean x lengths t = Window.sum x t k / Number.ofCount k := by
  refine ⟨⟨le_windowLength n least, windowLength_le h n⟩, ?least, ?mono, ?nearest, ?aggregates⟩
  case least =>
    rintro (hn | hn)
    · exact windowLength_of_not_isFinite hn least
    · exact windowLength_eq_least h hn
  case mono => exact fun n' hn hn' hle => windowLength_mono hn hn' hle least
  case nearest => exact fun hn hleast hmost => windowLength_nearest h hleast hmost hn
  case aggregates =>
    intro x lengths t k
    exact ⟨Nat.sub_add_cancel (le_windowLength _ 1), ofCount_windowLength_pos _, rfl, rfl⟩

theorem windowLength_twoAndHalf :
    1 ≤ maxWindow ∧ Float.ofNat 1 < 2.5 ∧ windowLength 2.5 1 = 3 ∧
      (windowLength 2.5 1 : ℚ) - 1 / 2 ≤ value 2.5 ∧ value 2.5 < windowLength 2.5 1 + 1 / 2 :=
  ⟨by decide, by decide +kernel, by decide +kernel,
    (windowLength_bounded_monotone_nearest (by decide) 2.5).2.2.2.1 (by decide +kernel)
      (by decide +kernel) (by decide +kernel)⟩

end SignalLab
