import SignalLab.Proofs.Backtest.Bounds
import SignalLab.Proofs.Number.Zero
import SignalLab.Proofs.Series.Welford

/-!
# A flat signal neither gains nor loses

A signal that asks for nothing, or for nothing finite, holds no position. Whatever the prices and the
cost rate are, its steps return nothing and cost nothing, so the equity stays at one, and all figures
are zero (`run_flat`).

Zeros have two signs, and the steps may be of either. The equity and the figures are what they are to
the last bit, for a zero that is added to one leaves it, and one that is added to the positive zero
leaves that.
-/

namespace SignalLab.Backtest

open Floating

/-! ## Steps -/

theorem isFinite_orZero (x : Float) : (Number.orZero x).isFinite = true := by
  rw [Number.orZero, isFinite_eq]
  split_ifs with h
  · exact h
  · decide

theorem isFinite_effectiveCost (rate : Float) : (effectiveCost rate).isFinite = true := by
  rw [effectiveCost]
  split_ifs with h
  · exact (Bool.and_eq_true_iff.mp h).1
  · decide

/-- Nothing is held where nothing is asked for, nor where what is asked for is not finite. -/
theorem isZero_position {x : Float} (h : (x == 0) = true ∨ x.isFinite = false) :
    IsZero (position x) := by
  rw [position, isFinite_eq]
  split_ifs with hfinite
  · have hzero : IsZero x := isZero_iff.mpr (h.resolve_right (by simp [hfinite]))
    rw [Number.confine, if_neg, if_neg]
    · exact hzero
    · rw [lt_eq_true_iff, hzero.lt_right]
      decide
    · rw [lt_eq_true_iff, hzero.lt_left]
      decide
  · exact ⟨.positive, rfl⟩

/-- A step without positions returns nothing and costs nothing. -/
theorem isZero_stepReturn (rate : Float) {held next : Float} (hheld : IsZero held)
    (hnext : IsZero next) (before now : Float) :
    IsZero (stepReturn (effectiveCost rate) held next before now) :=
  (hheld.mul (isFinite_orZero _)).sub
    ((hnext.sub hheld).abs.finite_mul (isFinite_effectiveCost rate))

theorem isZero_of_mem_stepReturns (rate : Float) {samples : List (Float × Float)}
    (h : ∀ sample ∈ samples, IsZero sample.2) :
    ∀ step ∈ stepReturns (effectiveCost rate) samples, IsZero step := by
  induction samples with
  | nil => simp [stepReturns]
  | cons first samples ih =>
    rcases samples with _ | ⟨second, samples⟩
    · simp [stepReturns]
    · rw [List.forall_mem_cons] at h
      rw [stepReturns, List.forall_mem_cons]
      refine ⟨isZero_stepReturn rate h.1 (h.2 second List.mem_cons_self) _ _, ih h.2⟩

/-! ## Equity and figures -/

theorem curve_of_isZero {steps : List Float} (h : ∀ step ∈ steps, IsZero step) :
    curve 1 steps = List.replicate (steps.length + 1) 1 := by
  induction steps with
  | nil => rfl
  | cons step steps ih =>
    rw [List.forall_mem_cons] at h
    have hequity : (1 : Float) * (Number.one + step) = 1 := by
      rw [one_eq, one_add h.1]
      rfl
    rw [curve, hequity, ih h.2, List.length_cons, ← List.replicate_succ]

theorem worstDrawdown_replicate (n : ℕ) : worstDrawdown (1 : Float) 0 (List.replicate n 1) = 0 := by
  induction n with
  | zero => rfl
  | succ n ih =>
    rw [List.replicate_succ, worstDrawdown]
    exact ih

/-- What a pass knows of steps that are zeros: their mean is a zero, and they do not deviate. -/
structure Flat (w : Welford Float) : Prop where
  mean : IsZero w.mean
  squares : w.squares = 0

theorem Flat.push {w : Welford Float} (h : Flat w) {step : Float} (hstep : IsZero step) :
    Flat (w.push step) := by
  have hmean : IsZero (w.push step).mean :=
    h.mean.add ((hstep.sub h.mean).div_count (Nat.succ_pos _))
  exact ⟨hmean,
    Welford.squares_add_eq_zero h.squares (hstep.sub h.mean).isFinite (hstep.sub hmean)⟩

theorem flat_ofList {steps : List Float} (h : ∀ step ∈ steps, IsZero step) :
    Flat (Welford.ofList steps) := by
  have hall : ∀ (w : Welford Float), Flat w → Flat (steps.foldl Welford.push w) := by
    induction steps with
    | nil => exact fun w hw => hw
    | cons step steps ih =>
      rw [List.forall_mem_cons] at h
      exact fun w hw => ih h.2 _ (hw.push h.1)
  exact hall Welford.empty ⟨⟨.positive, rfl⟩, rfl⟩

theorem volatility_of_flat {w : Welford Float} (h : Flat w) : volatility w = 0 := by
  rw [volatility]
  split_ifs with hcount
  · exact Welford.deviation_eq_zero h.squares (by omega)
  · rfl

/-! ## Backtests -/

/-- **A signal that asks for nothing, or for nothing finite, neither gains nor loses nor pays.** The
equity is one at every sample, the total return, the worst drawdown and the volatility are zero, and
there is no Sharpe ratio, whatever the prices and the cost rate are. -/
theorem run_flat (prices : List Float) (output : Signal) (rate : Float)
    (hflat : ∀ t < prices.length,
      (output (Offset.ofNat t) == 0) = true ∨ (output (Offset.ofNat t)).isFinite = false) :
    let b := run prices output rate
    b.equity = List.replicate prices.length 1 ∧ b.metrics.totalReturn = 0 ∧
      b.metrics.maxDrawdown = 0 ∧ b.metrics.volatility = 0 ∧ b.metrics.sharpe = none := by
  intro b
  have hpositions : ∀ p ∈ b.positions, IsZero p := by
    intro p hp
    obtain ⟨x, hx, rfl⟩ := List.mem_map.mp hp
    obtain ⟨t, ht, rfl⟩ := List.mem_map.mp hx
    exact isZero_position (hflat t (by simpa using ht))
  have hsteps : ∀ step ∈ stepReturns (effectiveCost rate) (prices.zip b.positions), IsZero step :=
    isZero_of_mem_stepReturns rate fun sample hsample => hpositions _ (List.of_mem_zip hsample).2
  have hvolatility : b.metrics.volatility = 0 := volatility_of_flat (flat_ofList hsteps)
  have hsharpe : b.metrics.sharpe = none := by
    rw [← Option.not_isSome_iff_eq_none, isSome_sharpe, hvolatility]
    exact lt_irrefl 0
  have hequity : b.equity = List.replicate prices.length 1 := by
    rcases eq_or_ne prices [] with rfl | h
    · rfl
    · have hpos : 0 < prices.length := List.length_pos_iff.mpr h
      rw [equity_eq h, one_eq, curve_of_isZero hsteps, length_stepReturns, List.length_zip,
        length_positions, Nat.min_self, Nat.sub_add_cancel hpos]
  have hdrawdown : b.metrics.maxDrawdown = 0 := by
    change worstDrawdown 1 0 b.equity.tail = 0
    rw [hequity, List.tail_replicate, worstDrawdown_replicate]
  refine ⟨hequity, ?_, hdrawdown, hvolatility, hsharpe⟩
  change b.equity.getLast?.getD 1 - 1 = (0 : Float)
  rw [hequity, List.getLast?_replicate]
  split_ifs <;> rfl

/-- Prices and a cost rate that are not finite, and nothing asked for in four ways. -/
theorem run_flat_notFinite :
    let prices : List Float := [100, 1 / 0, missingFloat, 0]
    let output : Signal := Series.ofArray #[0, missingFloat, -0, -1 / 0]
    (∀ t < prices.length,
        (output (Offset.ofNat t) == 0) = true ∨ (output (Offset.ofNat t)).isFinite = false) ∧
      (run prices output (1 / 0)).equity = [1, 1, 1, 1] ∧
      (run prices output (1 / 0)).metrics.volatility = 0 := by
  intro prices output
  have hflat : ∀ t < prices.length,
      (output (Offset.ofNat t) == 0) = true ∨ (output (Offset.ofNat t)).isFinite = false := by
    decide +kernel
  obtain ⟨hequity, -, -, hvolatility, -⟩ := run_flat prices output (1 / 0) hflat
  exact ⟨hflat, hequity, hvolatility⟩

end SignalLab.Backtest
