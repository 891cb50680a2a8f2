import SignalLab.Proofs.Number.Nearest

/-!
# The shortest decimal lies in the interval

The search for the shortest decimal tries the grids of powers of ten from coarse to fine. A grid is
hit only by a point in the interval of the number (`Rounding.holds_of_hit?`), and a grid that is finer
than half of a step between numbers is always hit (`Rounding.isSome_hit?`). The last of the grids is
that fine (`ten_zpow_lt`), so the search ends with a hit (`holds_shortest`).
-/

namespace SignalLab.Decimal

open Floating (Canonical)

/-! ## Grids -/

/-- A power with a whole exponent, in terms of those that whole numbers have. -/
theorem pow_toNat_eq {b : ℚ} (hb : b ≠ 0) (e : ℤ) : b ^ e.toNat = b ^ e * b ^ (-e).toNat := by
  rw [← zpow_natCast, ← zpow_natCast, ← zpow_add₀ hb]
  congr 1
  omega

/-- The step of the grid and the unit of the interval, with their denominators cleared. -/
structure Cleared (e p : ℤ) (unit scale : ℕ) (factor : ℚ) : Prop where
  positive : 0 < factor
  unit_eq : (unit : ℚ) = 10 ^ p * factor
  scale_eq : (scale : ℚ) = 2 ^ e * factor

theorem exists_cleared (e p : ℤ) : ∃ factor, Cleared e p
    (Nat.pow 10 p.toNat * Nat.pow 2 (-e).toNat) (Nat.pow 2 e.toNat * Nat.pow 10 (-p).toNat) factor := by
  refine ⟨2 ^ (-e).toNat * 10 ^ (-p).toNat, by positivity, ?_, ?_⟩
  · change ((10 ^ p.toNat * 2 ^ (-e).toNat : ℕ) : ℚ) = _
    push_cast
    rw [pow_toNat_eq (by norm_num) p]
    ring
  · change ((2 ^ e.toNat * 10 ^ (-p).toNat : ℕ) : ℚ) = _
    push_cast
    rw [pow_toNat_eq (by norm_num) e]
    ring

namespace Cleared

variable {e p : ℤ} {unit scale : ℕ} {factor : ℚ}

theorem le_iff (h : Cleared e p unit scale factor) (a c : ℕ) :
    a * scale ≤ c * unit ↔ (a : ℚ) * 2 ^ e ≤ c * 10 ^ p := by
  rw [← Nat.cast_le (α := ℚ), Nat.cast_mul, Nat.cast_mul, h.unit_eq, h.scale_eq, ← mul_assoc,
    ← mul_assoc, mul_le_mul_iff_left₀ h.positive]

theorem ge_iff (h : Cleared e p unit scale factor) (a c : ℕ) :
    c * unit ≤ a * scale ↔ (c : ℚ) * 10 ^ p ≤ a * 2 ^ e := by
  rw [← Nat.cast_le (α := ℚ), Nat.cast_mul, Nat.cast_mul, h.unit_eq, h.scale_eq, ← mul_assoc,
    ← mul_assoc, mul_le_mul_iff_left₀ h.positive]

theorem lt_iff (h : Cleared e p unit scale factor) (a c : ℕ) :
    a * scale < c * unit ↔ (a : ℚ) * 2 ^ e < c * 10 ^ p := by
  rw [← not_le, ← not_le, h.ge_iff]

theorem gt_iff (h : Cleared e p unit scale factor) (a c : ℕ) :
    c * unit < a * scale ↔ (c : ℚ) * 10 ^ p < a * 2 ^ e := by
  rw [← not_le, ← not_le, h.le_iff]

end Cleared

/-! ## Hits -/

namespace Rounding

variable {r : Rounding} {p : ℤ} {unit scale c : ℕ} {factor : ℚ}

/-- Whether a point of a grid lies in the interval, with the denominators cleared. -/
def inside (r : Rounding) (unit scale c : ℕ) : Bool :=
  if r.closed then r.low * scale ≤ c * unit && c * unit ≤ r.high * scale
  else r.low * scale < c * unit && c * unit < r.high * scale

/-- The hit on a grid, with the denominators cleared. -/
def hitOn (r : Rounding) (unit scale : ℕ) : Option ℕ :=
  let value := r.value * scale
  let below := value / unit
  let above := below + 1
  if r.inside unit scale below &&
    !(r.inside unit scale above && above * unit - value ≤ value - below * unit) then some below
  else if r.inside unit scale above then some above
  else none

theorem hit?_eq (r : Rounding) (p : ℤ) : r.hit? p = r.hitOn
    (Nat.pow 10 p.toNat * Nat.pow 2 (-r.exponent).toNat)
    (Nat.pow 2 r.exponent.toNat * Nat.pow 10 (-p).toNat) := rfl

theorem inside_iff (h : Cleared r.exponent p unit scale factor) (c : ℕ) :
    r.inside unit scale c = true ↔ r.Holds (c * 10 ^ p) := by
  rw [inside, Holds]
  split_ifs <;>
    simp only [Bool.and_eq_true, decide_eq_true_eq, h.le_iff, h.ge_iff, h.lt_iff, h.gt_iff]

/-- A hit lies in the interval. -/
theorem holds_of_hit? (h : r.hit? p = some c) : r.Holds (c * 10 ^ p) := by
  obtain ⟨factor, hcleared⟩ := exists_cleared r.exponent p
  rw [← inside_iff hcleared]
  rw [hit?_eq, hitOn] at h
  split_ifs at h with hbelow habove
  · cases h
    exact (Bool.and_eq_true_iff.mp hbelow).1
  · cases h
    exact habove

/-- A grid that is finer than the upper half of the interval is hit: the point next above the number
lies in it. -/
theorem isSome_hit? (hlow : r.low < r.value)
    (hfine : (r.value : ℚ) * 2 ^ r.exponent + 10 ^ p < r.high * 2 ^ r.exponent) :
    (r.hit? p).isSome := by
  obtain ⟨factor, hcleared⟩ := exists_cleared r.exponent p
  rw [hit?_eq]
  generalize Nat.pow 10 p.toNat * Nat.pow 2 (-r.exponent).toNat = unit at hcleared ⊢
  generalize Nat.pow 2 r.exponent.toNat * Nat.pow 10 (-p).toNat = scale at hcleared ⊢
  have hunit : 0 < unit := by
    have hpositive := mul_pos (by positivity : (0 : ℚ) < 10 ^ p) hcleared.positive
    rw [← hcleared.unit_eq] at hpositive
    exact_mod_cast hpositive
  have habove : r.inside unit scale (r.value * scale / unit + 1) = true := by
    have hnext : r.value * scale < (r.value * scale / unit + 1) * unit := by
      rw [Nat.mul_comm _ unit]
      exact Nat.lt_mul_div_succ _ hunit
    have hleast : r.low * scale ≤ r.value * scale := Nat.mul_le_mul_right _ hlow.le
    have hmost : (r.value * scale / unit + 1) * unit < r.high * scale := by
      have hbelow := Nat.div_mul_le_self (r.value * scale) unit
      have hstep : r.value * scale + unit < r.high * scale := by
        have hscaled := mul_lt_mul_of_pos_right hfine hcleared.positive
        rw [add_mul, mul_assoc, mul_assoc, ← hcleared.scale_eq, ← hcleared.unit_eq] at hscaled
        exact_mod_cast hscaled
      rw [Nat.add_mul, Nat.one_mul]
      omega
    rw [inside]
    split_ifs <;> simp only [Bool.and_eq_true, decide_eq_true_eq] <;> omega
  simp only [hitOn, habove]
  split_ifs <;> rfl

end Rounding

/-! ## The search -/

/-- The step of the last grid that is tried is less than half of that between numbers. The logarithm
of ten lies between ten thirds and three and three tenths. -/
theorem ten_zpow_lt {e p : ℤ} (hleast : -1073 ≤ e) (hmost : e ≤ 1024)
    (hp : p ≤ e * 30103 / 100000 - 22) : (10 : ℚ) ^ p < 2 ^ (e - 54) := by
  obtain ⟨n, rfl | rfl⟩ := Int.eq_nat_or_neg p
  · refine lt_of_pow_lt_pow_left₀ 3 (by positivity) ?_
    calc ((10 : ℚ) ^ (n : ℤ)) ^ 3 = (10 ^ 3) ^ n := by rw [zpow_natCast, pow_right_comm]
      _ ≤ (2 ^ 10) ^ n := pow_le_pow_left₀ (by norm_num) (by norm_num) n
      _ = 2 ^ (10 * n : ℤ) := by rw [← pow_mul, ← zpow_natCast]; push_cast; rfl
      _ < 2 ^ ((e - 54) * (3 : ℕ)) := zpow_lt_zpow_right₀ one_lt_two (by push_cast; omega)
      _ = (2 ^ (e - 54)) ^ 3 := by rw [zpow_mul, zpow_natCast]
  · refine lt_of_pow_lt_pow_left₀ 10 (by positivity) ?_
    calc ((10 : ℚ) ^ (-(n : ℤ))) ^ 10 = ((10 ^ 10) ^ n)⁻¹ := by
          rw [zpow_neg, zpow_natCast, inv_pow, pow_right_comm]
      _ ≤ ((2 ^ 33) ^ n)⁻¹ :=
          inv_anti₀ (by positivity) (pow_le_pow_left₀ (by norm_num) (by norm_num) n)
      _ = 2 ^ (-(33 * n) : ℤ) := by rw [← pow_mul, zpow_neg, ← zpow_natCast]; push_cast; rfl
      _ < 2 ^ ((e - 54) * (10 : ℕ)) := zpow_lt_zpow_right₀ one_lt_two (by push_cast; omega)
      _ = (2 ^ (e - 54)) ^ 10 := by rw [zpow_mul, zpow_natCast]

variable {m : ℕ} {q : ℤ}

theorem isSome_hit?_last (h : Canonical m q) (hq : q ≤ 971) (hm : 0 < m) :
    ((Rounding.of m q).hit? (coarsest m q - 23)).isSome := by
  obtain ⟨hlog, hleast, -⟩ := h
  refine Rounding.isSome_hit? ?_ ?_
  · simp only [Rounding.of]
    split_ifs <;> omega
  · have hlast : (10 : ℚ) ^ (coarsest m q - 23) < 2 ^ (q + m.log2 + 1 - 54) := by
      refine ten_zpow_lt (by omega) (by omega) ?_
      rw [coarsest]
      omega
    have hhalf : (2 : ℚ) ^ (q + m.log2 + 1 - 54) ≤ 2 * 2 ^ (q - 2) := by
      rw [← zpow_one_add₀ (by norm_num)]
      exact zpow_le_zpow_right₀ one_le_two (by omega)
    change ((4 * m : ℕ) : ℚ) * 2 ^ (q - 2) + _ < ((4 * m + 2 : ℕ) : ℚ) * 2 ^ (q - 2)
    push_cast
    linarith

/-- The search ends with a hit. -/
theorem hit?_shortest (h : Canonical m q) (hq : q ≤ 971) (hm : 0 < m) :
    (Rounding.of m q).hit? (shortest m q).exponent = some (shortest m q).digits := by
  have hfound : ((List.range gridCount).findSome? fun i : ℕ =>
      ((Rounding.of m q).hit? (coarsest m q - i)).map fun c =>
        (⟨c, coarsest m q - i⟩ : Scaled)).isSome := by
    rw [List.findSome?_isSome_iff]
    refine ⟨23, by decide, ?_⟩
    rw [Option.isSome_map]
    exact isSome_hit?_last h hq hm
  obtain ⟨d, hd⟩ := Option.isSome_iff_exists.mp hfound
  have hshortest : shortest m q = d := by
    rw [shortest]
    dsimp only
    rw [hd, Option.getD_some]
  obtain ⟨i, -, hi⟩ := List.exists_of_findSome?_eq_some hd
  obtain ⟨c, hc, rfl⟩ := Option.map_eq_some_iff.mp hi
  rw [hshortest]
  exact hc

/-- **The shortest decimal lies in the interval of the number.** -/
theorem holds_shortest (h : Canonical m q) (hq : q ≤ 971) (hm : 0 < m) :
    (Rounding.of m q).Holds ((shortest m q).digits * 10 ^ (shortest m q).exponent) :=
  Rounding.holds_of_hit? (hit?_shortest h hq hm)

end SignalLab.Decimal
