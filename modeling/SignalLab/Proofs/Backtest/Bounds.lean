import SignalLab.Proofs.Backtest.Prefix
import SignalLab.Proofs.Number.Floating

/-!
# What every backtest keeps to

Prices, signals and cost rates may be anything that a floating-point number can be, and still a
backtest keeps to some bounds (`run_wellFormed`): a position is a finite number between minus one and
one, and the worst drawdown is a number, never above zero, and the drawdown of one of the samples.

## Shape of the argument

Only comparisons keep the equity, which may be infinite or not a number, from the peak and from the
worst drawdown. `Watched` says what a pass knows of the samples it has seen. One more sample keeps it
(`Watched.concat`) whatever the equity there is, because not-a-number is greater than no peak and less
than no drawdown; so do any others (`Watched.append`).
-/

namespace SignalLab.Backtest

open Floating

/-! ## Positions -/

/-- A position is finite and within its limits. -/
theorem position_bounds (x : Float) :
    (position x).isFinite = true ∧ -1 ≤ position x ∧ position x ≤ 1 := by
  rw [position, isFinite_eq]
  split_ifs with hfinite
  · have hnumber : x.isNaN = false := isNaN_of_isFinite hfinite
    simp only [Number.confine, lt_eq_true_iff, one_eq]
    split_ifs with hlow hhigh
    · decide
    · decide
    · exact ⟨hfinite, le_of_not_lt (by decide) hnumber hlow,
        le_of_not_lt hnumber (by decide) hhigh⟩
  · decide

/-! ## Peaks and drawdowns -/

/-- The highest of some equities: a number among them that none of them exceeds. -/
structure IsPeak (peak : Float) (equities : List Float) : Prop where
  mem : peak ∈ equities
  isNaN : peak.isNaN = false
  not_lt : ∀ equity ∈ equities, ¬ peak < equity

/-- How far the equity at sample `i` lies below the highest one so far, as a share of that. -/
def IsDrawdown (equities : List Float) (i : ℕ) (d : Float) : Prop :=
  ∃ equity peak, equities[i]? = some equity ∧ IsPeak peak (equities.take (i + 1)) ∧
    d = equity / peak - 1

theorem IsPeak.concat {peak : Float} {equities : List Float} (h : IsPeak peak equities)
    (equity : Float) : IsPeak (Number.larger peak equity) (equities ++ [equity]) := by
  rw [larger_eq]
  split_ifs with hlt
  · refine ⟨by simp, (lt_iff.mp hlt).2.1, fun other hother => ?_⟩
    rw [List.mem_append, List.mem_singleton] at hother
    rcases hother with hother | rfl
    · exact fun hmore => h.not_lt other hother (lt_trans hlt hmore)
    · exact lt_irrefl _
  · refine ⟨List.mem_append_left _ h.mem, h.isNaN, fun other hother => ?_⟩
    rw [List.mem_append, List.mem_singleton] at hother
    rcases hother with hother | rfl
    · exact h.not_lt other hother
    · exact hlt

theorem IsDrawdown.append {equities : List Float} {i : ℕ} {d : Float} (h : IsDrawdown equities i d)
    (more : List Float) : IsDrawdown (equities ++ more) i d := by
  obtain ⟨equity, peak, hequity, hpeak, hd⟩ := h
  have hi : i < equities.length := (List.getElem?_eq_some_iff.mp hequity).1
  refine ⟨equity, peak, ?_, ?_, hd⟩
  · rw [List.getElem?_append_left hi, hequity]
  · rw [List.take_append_of_le_length hi]
    exact hpeak

/-! ## A pass over an equity curve -/

/-- What a pass knows of the samples it has seen: their peak and their worst drawdown. -/
structure Watched (seen : List Float) (peak worst : Float) : Prop where
  peak : IsPeak peak seen
  le_zero : worst ≤ 0
  attained : worst = 0 ∨ ∃ i, IsDrawdown seen i worst
  least : ∀ i < seen.length, ∃ d, IsDrawdown seen i d ∧ ¬ d < worst

namespace Watched

variable {seen : List Float} {peak worst : Float}

/-- The first sample is its own peak. -/
theorem single : Watched [1] 1 0 where
  peak := ⟨by simp, by decide, by simp [lt_irrefl]⟩
  le_zero := by decide
  attained := .inl rfl
  least i hi := by
    obtain rfl : i = 0 := by simpa using hi
    exact ⟨1 / 1 - 1, ⟨1, 1, rfl, ⟨by simp, by decide, by simp [lt_irrefl]⟩, rfl⟩, by decide⟩

/-- One more sample, whatever the equity there is. -/
theorem concat (h : Watched seen peak worst) (equity : Float) :
    Watched (seen ++ [equity]) (Number.larger peak equity)
      (Number.smaller worst (equity / Number.larger peak equity - Number.one)) := by
  have hpeak := h.peak.concat equity
  have htake : (seen ++ [equity]).take (seen.length + 1) = seen ++ [equity] :=
    List.take_of_length_le (by simp)
  have hlast : IsDrawdown (seen ++ [equity]) seen.length
      (equity / Number.larger peak equity - Number.one) :=
    ⟨equity, _, by simp, by rwa [htake], rfl⟩
  generalize equity / Number.larger peak equity - Number.one = d at hlast
  -- no drawdown is lower than a number that neither the new one nor any of the others is lower than
  have hleast : ∀ low, ¬ d < low → (∀ other, ¬ other < worst → ¬ other < low) →
      ∀ i < (seen ++ [equity]).length, ∃ d, IsDrawdown (seen ++ [equity]) i d ∧ ¬ d < low := by
    intro low hnew hothers i hi
    rw [List.length_append, List.length_singleton, Nat.lt_succ_iff_lt_or_eq] at hi
    rcases hi with hi | rfl
    · obtain ⟨other, hother, hnot⟩ := h.least i hi
      exact ⟨other, hother.append _, hothers other hnot⟩
    · exact ⟨d, hlast, hnew⟩
  rw [smaller_eq]
  split_ifs with hlt
  · exact ⟨hpeak, le_of_lt_of_le hlt h.le_zero, .inr ⟨_, hlast⟩,
      hleast d (lt_irrefl d) fun _ hnot hless => hnot (lt_trans hless hlt)⟩
  · exact ⟨hpeak, h.le_zero, h.attained.imp_right fun ⟨i, hi⟩ => ⟨i, hi.append _⟩,
      hleast worst hlt fun _ hnot => hnot⟩

/-- All the samples that are left. -/
theorem append (h : Watched seen peak worst) (rest : List Float) :
    ∃ highest, Watched (seen ++ rest) highest (worstDrawdown peak worst rest) := by
  induction rest generalizing seen peak worst with
  | nil =>
    rw [List.append_nil]
    exact ⟨peak, h⟩
  | cons equity rest ih =>
    have hall := ih (h.concat equity)
    rw [List.append_assoc] at hall
    exact hall

end Watched

/-! ## Backtests -/

theorem curve_eq_cons {α : Type} [Number α] (equity : α) (steps : List α) :
    curve equity steps = equity :: (curve equity steps).tail := by
  cases steps <;> rfl

/-- The equity starts at one. -/
theorem equity_eq_cons {prices : List Float} (h : prices ≠ []) (output : Signal) (rate : Float) :
    (run prices output rate).equity = 1 :: (run prices output rate).equity.tail := by
  rw [equity_eq h, one_eq]
  exact curve_eq_cons 1 _

/-- A backtest watches its samples from the first one on. -/
theorem watched_run {prices : List Float} (h : prices ≠ []) (output : Signal) (rate : Float) :
    ∃ peak, Watched (run prices output rate).equity peak
      (run prices output rate).metrics.maxDrawdown := by
  have hall := Watched.single.append (run prices output rate).equity.tail
  rw [List.singleton_append, ← equity_eq_cons h] at hall
  exact hall

theorem isSome_sharpe (prices : List Float) (output : Signal) (rate : Float) :
    (run prices output rate).metrics.sharpe.isSome ↔
      0 < (run prices output rate).metrics.volatility := by
  rw [← lt_eq_true_iff, ← zero_eq]
  change (if Number.lt Number.zero (run prices output rate).metrics.volatility then some _
    else none).isSome ↔ _
  split_ifs with h <;> simp [h]

/-- **Every backtest keeps to its bounds**, whatever numbers the prices, the signal and the cost rate
are, infinite ones and not-a-number included. There is one equity and one position for every sample.
The positions are finite and between minus one and one, and the equity starts at one. The worst
drawdown is a number and not above zero. It is zero or the drawdown of a sample, and there is no
sample whose drawdown is worse. A Sharpe ratio exists exactly where the volatility is above zero. -/
theorem run_wellFormed (prices : List Float) (output : Signal) (rate : Float) :
    let b := run prices output rate
    b.equity.length = prices.length ∧ b.positions.length = prices.length ∧
    (∀ p ∈ b.positions, p.isFinite = true ∧ -1 ≤ p ∧ p ≤ 1) ∧
    b.equity.head? = prices.head?.map (fun _ => 1) ∧
    b.metrics.maxDrawdown.isNaN = false ∧ b.metrics.maxDrawdown ≤ 0 ∧
    (b.metrics.maxDrawdown = 0 ∨ ∃ i, IsDrawdown b.equity i b.metrics.maxDrawdown) ∧
    (∀ i < prices.length, ∃ d, IsDrawdown b.equity i d ∧ ¬ d < b.metrics.maxDrawdown) ∧
    (b.metrics.sharpe.isSome ↔ 0 < b.metrics.volatility) := by
  intro b
  have hpositions : ∀ p ∈ b.positions, p.isFinite = true ∧ -1 ≤ p ∧ p ≤ 1 := by
    intro p hp
    obtain ⟨x, -, rfl⟩ := List.mem_map.mp hp
    exact position_bounds x
  have hsharpe := isSome_sharpe prices output rate
  rcases eq_or_ne prices [] with rfl | h
  · have hdrawdown : b.metrics.maxDrawdown = 0 := rfl
    refine ⟨rfl, rfl, hpositions, rfl, ?_, ?_, .inl hdrawdown, by simp, hsharpe⟩
    · rw [hdrawdown]
      decide
    · rw [hdrawdown]
      decide
  · obtain ⟨peak, hwatched⟩ := watched_run h output rate
    have hhead : b.equity.head? = prices.head?.map fun _ => 1 := by
      obtain ⟨price, rest, rfl⟩ := List.exists_cons_of_ne_nil h
      change (run (price :: rest) output rate).equity.head? = some 1
      rw [equity_eq_cons h]
      rfl
    have hlength := length_equity prices output rate
    exact ⟨hlength, length_positions prices output rate, hpositions, hhead,
      (le_iff.mp hwatched.le_zero).1, hwatched.le_zero, hwatched.attained,
      hlength ▸ hwatched.least, hsharpe⟩

/-- A cost rate that turns the equity into a debt, then into an infinite equity, and then into an
infinite debt, so that the drawdown of the last sample is not a number. -/
theorem run_wellFormed_ruined :
    let b := run [100, 1 / 0, 50, -50] (Series.ofArray #[2, missingFloat, -3, 1 / 0]) 1e308
    b.positions = [1, 0, -1, 0] ∧ b.equity = [1, -1e308, 1 / 0, -1 / 0] ∧
      -1 ∈ b.positions ∧ (-1 : Float).isFinite = true ∧ 3 < 4 ∧
      b.metrics.maxDrawdown.isNaN = false ∧ b.metrics.maxDrawdown ≤ 0 ∧
      ∃ d, IsDrawdown b.equity 3 d ∧ ¬ d < b.metrics.maxDrawdown := by
  intro b
  have hpositions : b.positions = [1, 0, -1, 0] := by decide +kernel
  have hshort : -1 ∈ b.positions := by simp [hpositions]
  obtain ⟨-, -, hbounds, -, hnumber, hzero, -, hleast, -⟩ :=
    run_wellFormed [100, 1 / 0, 50, -50] (Series.ofArray #[2, missingFloat, -3, 1 / 0]) 1e308
  exact ⟨hpositions, by decide +kernel, hshort, (hbounds (-1) hshort).1, by decide, hnumber, hzero,
    hleast 3 (by decide)⟩

end SignalLab.Backtest
