import Mathlib.Algebra.BigOperators.Field
import Mathlib.Algebra.BigOperators.Intervals
import Mathlib.Algebra.Order.Hom.Ring
import Mathlib.Data.Finset.Lattice.Fold
import Mathlib.Data.List.GetD
import Mathlib.RingTheory.SimpleRing.Field
import SignalLab.Proofs.Backtest.Cost
import SignalLab.Proofs.Number.Root
import SignalLab.Proofs.Series.Welford

/-!
# The figures of a backtest

A backtest goes through its samples once and keeps a running product, a running peak, a running
minimum, and the running mean and deviation of its steps. Calculated exactly, what it arrives at are
the figures as they are defined, each from all steps at once (`run_textbook`).

## Shape of the argument

The samples are numbered from the oldest on, and every list of a backtest is a function of these
numbers along `List.range' a m`. Each pass over such a list is followed by induction on `m`, from
any `a`; what it carries along is the figure of the samples up to `a`.
-/

namespace SignalLab

namespace Backtest

variable {α : Type} [ExactNumber α]

/-! ## Definitions -/

/-- The price of a sample, the oldest being sample zero. -/
def priceAt (prices : List α) (i : ℕ) : α := prices.getD i 0

/-- The position at a sample: what the signal reads there, or the nearest number between minus one
and one. -/
def heldAt (prices : List α) (output : Series α) (i : ℕ) : α :=
  max (-1) (min 1 (output (Offset.ofNat (prices.length - 1 - i))))

/-- The relative change of the price on the way to a sample, none from a price of zero. -/
def changeAt (prices : List α) (i : ℕ) : α :=
  if priceAt prices (i - 1) = 0 then 0
  else (priceAt prices i - priceAt prices (i - 1)) / priceAt prices (i - 1)

/-- The return of the step to a sample: what the position before it earns, less the cost of the
turnover. -/
def stepAt (prices : List α) (output : Series α) (rate : α) (i : ℕ) : α :=
  heldAt prices output (i - 1) * changeAt prices i -
    rate * |heldAt prices output i - heldAt prices output (i - 1)|

/-- The equity at a sample. -/
def equityAt (s : ℕ → α) (i : ℕ) : α := ∏ j ∈ Finset.Icc 1 i, (1 + s j)

/-- The highest equity up to a sample. -/
def peakAt (s : ℕ → α) (i : ℕ) : α :=
  (Finset.range (i + 1)).sup' Finset.nonempty_range_add_one (equityAt s)

/-- How far the equity at a sample lies below its peak, as a share of the peak. -/
def drawdownAt (s : ℕ → α) (i : ℕ) : α := equityAt s i / peakAt s i - 1

/-- The mean of the steps between `n` samples. -/
def meanStep (s : ℕ → α) (n : ℕ) : α := (∑ j ∈ Finset.Ico 1 n, s j) / (n - 1 : ℕ)

/-- The mean squared distance of the steps between `n` samples from their mean, zero if there is no
step. -/
def stepVariance (s : ℕ → α) (n : ℕ) : α :=
  (∑ j ∈ Finset.Ico 1 n, (s j - meanStep s n) ^ 2) / (n - 1 : ℕ)

/-! ## From one sample to the next -/

variable (s : ℕ → α)

theorem equityAt_zero : equityAt s 0 = 1 := by
  simp [equityAt]

theorem equityAt_succ (i : ℕ) : equityAt s (i + 1) = equityAt s i * (1 + s (i + 1)) :=
  Finset.prod_Icc_succ_top (Nat.le_add_left 1 i) _

theorem peakAt_zero : peakAt s 0 = 1 := by
  simp [peakAt, equityAt_zero]

theorem peakAt_succ (i : ℕ) : peakAt s (i + 1) = max (peakAt s i) (equityAt s (i + 1)) := by
  simp only [peakAt, Finset.range_add_one (n := i + 1)]
  rw [Finset.sup'_insert, max_comm]

/-- The equity begins at one, so its peak is not below. -/
theorem one_le_peakAt (i : ℕ) : 1 ≤ peakAt s i := by
  rw [← equityAt_zero s]
  exact Finset.le_sup' (equityAt s) (Finset.mem_range.mpr (Nat.succ_pos i))

theorem stepVariance_nonneg (n : ℕ) : 0 ≤ stepVariance s n :=
  div_nonneg (Finset.sum_nonneg fun _ _ => sq_nonneg _) (Nat.cast_nonneg _)

/-! ## Samples and steps -/

/-- A position is what is asked for, within the limits. -/
theorem position_eq (x : α) : position x = max (-1) (min 1 x) := by
  simp only [position, Number.isFinite, if_true, Number.one_eq]
  exact Number.confine_eq (by norm_num) x

theorem positions_eq (prices : List α) (output : Series α) (rate : α) :
    (run prices output rate).positions = (List.range prices.length).map (heldAt prices output) := by
  rw [run, Series.latest_eq_map, List.map_map]
  exact List.map_congr_left fun i _ => position_eq _

theorem prices_eq (prices : List α) :
    prices = (List.range prices.length).map (priceAt prices) := by
  refine List.ext_getElem (by simp) fun i hi _ => ?_
  simp [priceAt, hi]

/-- The steps between numbered samples. -/
theorem stepReturns_range' (cost : α) (p h : ℕ → α) (a m : ℕ) :
    stepReturns cost ((List.range' a (m + 1)).map fun i => (p i, h i)) =
      (List.range' (a + 1) m).map fun j => stepReturn cost (h (j - 1)) (h j) (p (j - 1)) (p j) := by
  induction m generalizing a with
  | zero => rfl
  | succ m ih =>
    have htail := ih (a + 1)
    rw [List.range'_succ, List.map_cons] at htail
    rw [List.range'_succ, List.range'_succ, List.map_cons, List.map_cons, stepReturns, htail,
      List.map_cons, Nat.add_sub_cancel]

/-- What the position before a sample earns is nothing where there is no change of the price. -/
theorem stepReturn_eq_stepAt (prices : List α) (output : Series α) (rate : α) (j : ℕ) :
    stepReturn rate (heldAt prices output (j - 1)) (heldAt prices output j) (priceAt prices (j - 1))
      (priceAt prices j) = stepAt prices output rate j := by
  rw [stepReturn_eq, stepAt, changeAt]
  split_ifs with hzero
  · rw [hzero, div_zero]
  · rfl

/-- **The steps of a backtest** over `m + 1` samples. -/
theorem steps_eq {prices : List α} {m : ℕ} (hlength : prices.length = m + 1) (output : Series α)
    {rate : α} (hrate : 0 ≤ rate) :
    steps prices output rate = (List.range' 1 m).map (stepAt prices output rate) := by
  have hpositions : (output.latest prices.length).map position =
      (List.range (m + 1)).map (heldAt prices output) := by
    rw [← hlength]
    exact positions_eq prices output rate
  have hprices := prices_eq prices
  rw [hlength] at hprices
  have hsamples : prices.zip ((List.range (m + 1)).map (heldAt prices output)) =
      (List.range' 0 (m + 1)).map fun i => (priceAt prices i, heldAt prices output i) := by
    rw [← List.range_eq_range', ← List.zip_map', ← hprices]
  rw [steps, effectiveCost_eq, max_eq_right hrate, hpositions, hsamples, stepReturns_range']
  exact List.map_congr_left fun j _ => stepReturn_eq_stepAt prices output rate j

/-! ## Passes -/

/-- The equity of numbered samples. -/
theorem curve_range' (a m : ℕ) :
    curve (equityAt s a) ((List.range' (a + 1) m).map s) =
      (List.range' a (m + 1)).map (equityAt s) := by
  induction m generalizing a with
  | zero => rfl
  | succ m ih =>
    rw [List.range'_succ, List.map_cons, curve, Number.one_eq, ← equityAt_succ, ih,
      List.range'_succ (s := a), List.map_cons]

/-- The worst drawdown up to sample `a + m`, from that up to sample `a`. -/
theorem isLeast_worstDrawdown (a m : ℕ) {worst : α}
    (h : IsLeast {d | ∃ i ≤ a, d = drawdownAt s i} worst) :
    IsLeast {d | ∃ i ≤ a + m, d = drawdownAt s i}
      (worstDrawdown (peakAt s a) worst ((List.range' (a + 1) m).map (equityAt s))) := by
  induction m generalizing a worst with
  | zero => exact h
  | succ m ih =>
    rw [List.range'_succ, List.map_cons, worstDrawdown]
    simp only [Number.larger_eq, Number.smaller_eq, Number.one_eq, ← peakAt_succ]
    rw [Nat.add_comm m 1, ← Nat.add_assoc]
    refine ih (a + 1) ?_
    -- one more sample adds its drawdown to those there were
    have hmore : {d | ∃ i ≤ a + 1, d = drawdownAt s i} =
        insert (drawdownAt s (a + 1)) {d | ∃ i ≤ a, d = drawdownAt s i} := by
      ext d
      simp only [Set.mem_ofPred_eq, Set.mem_insert_iff, Nat.le_succ_iff, or_and_right, exists_or,
        exists_eq_left]
      exact or_comm
    rw [hmore, min_comm]
    exact h.insert (drawdownAt s (a + 1))

/-! ## The spread of the steps -/

/-- A sum over the steps between `m + 1` samples, in the order of a list. -/
theorem sum_range' (f : ℕ → α) (m : ℕ) :
    ((List.range' 1 m).map f).sum = ∑ j ∈ Finset.Ico 1 (m + 1), f j := rfl

theorem mean_ofList_steps (m : ℕ) :
    (Welford.ofList ((List.range' 1 m).map s)).mean = meanStep s (m + 1) := by
  rw [Welford.mean_ofList, sum_range', List.length_map, List.length_range']
  rfl

theorem squares_ofList_steps (m : ℕ) :
    (Welford.ofList ((List.range' 1 m).map s)).squares =
      ∑ j ∈ Finset.Ico 1 (m + 1), (s j - meanStep s (m + 1)) ^ 2 := by
  rw [Welford.squares_ofList, mean_ofList_steps, List.map_map]
  rfl

/-- A single step is its own mean. -/
theorem stepVariance_eq_zero {m : ℕ} (h : m ≤ 1) : stepVariance s (m + 1) = 0 := by
  rcases Nat.le_one_iff_eq_zero_or_eq_one.mp h with rfl | rfl
  · simp [stepVariance]
  · simp [stepVariance, meanStep]

/-- **The volatility** is the root of the variance. -/
theorem volatility_eq_root [LawfulRoot α] (m : ℕ) :
    volatility (Welford.ofList ((List.range' 1 m).map s)) =
      ExactNumber.root (stepVariance s (m + 1)) := by
  have hcount : (Welford.ofList ((List.range' 1 m).map s)).count = m := by simp
  rw [volatility, hcount]
  split_ifs with hm
  · rw [Welford.deviation, squares_ofList_steps, hcount]
    rfl
  · rw [stepVariance_eq_zero s (not_lt.mp hm), ExactNumber.root_zero, Number.zero_eq]

/-! ## Backtests -/

variable {prices : List α} {output : Series α} {rate : α} {m : ℕ}

theorem equity_eq_map (hlength : prices.length = m + 1) (hrate : 0 ≤ rate) :
    (run prices output rate).equity =
      (List.range (m + 1)).map (equityAt (stepAt prices output rate)) := by
  have hprices : prices ≠ [] := List.ne_nil_of_length_eq_add_one hlength
  have hsteps : stepReturns (effectiveCost rate) (prices.zip (run prices output rate).positions) =
      (List.range' 1 m).map (stepAt prices output rate) := steps_eq hlength output hrate
  rw [equity_eq hprices, hsteps, Number.one_eq, ← equityAt_zero (stepAt prices output rate),
    curve_range', List.range_eq_range']

theorem totalReturn_eq_equityAt (hlength : prices.length = m + 1) (hrate : 0 ≤ rate) :
    (run prices output rate).metrics.totalReturn =
      equityAt (stepAt prices output rate) m - 1 := by
  have hmetrics : (run prices output rate).metrics.totalReturn =
      (run prices output rate).equity.getLast?.getD Number.one - Number.one := rfl
  rw [hmetrics, equity_eq_map hlength hrate, List.range_succ, List.map_append]
  simp

theorem isLeast_maxDrawdown (hlength : prices.length = m + 1) (hrate : 0 ≤ rate) :
    IsLeast {d | ∃ i ≤ m, d = drawdownAt (stepAt prices output rate) i}
      (run prices output rate).metrics.maxDrawdown := by
  have hmetrics : (run prices output rate).metrics.maxDrawdown =
      worstDrawdown Number.one Number.zero (run prices output rate).equity.tail := rfl
  -- at the first sample the equity is its own peak
  have hfirst : IsLeast {d | ∃ i ≤ 0, d = drawdownAt (stepAt prices output rate) i} 0 := by
    simp [drawdownAt, equityAt_zero, peakAt_zero, IsLeast, lowerBounds]
  have hall := isLeast_worstDrawdown _ 0 m hfirst
  rw [Nat.zero_add, peakAt_zero] at hall
  rw [hmetrics, equity_eq_map hlength hrate, List.range_eq_range', List.range'_succ, List.map_cons,
    List.tail_cons, Number.one_eq, Number.zero_eq]
  exact hall

/-- The volatility is the root of the variance of the steps. -/
theorem metrics_volatility_eq [LawfulRoot α] (output : Series α) (hlength : prices.length = m + 1)
    (hrate : 0 ≤ rate) :
    (run prices output rate).metrics.volatility =
      ExactNumber.root (stepVariance (stepAt prices output rate) (m + 1)) := by
  have hmetrics : (run prices output rate).metrics.volatility =
      volatility (Welford.ofList (steps prices output rate)) := rfl
  rw [hmetrics, steps_eq hlength output hrate, volatility_eq_root]

/-- The Sharpe ratio is the mean over the volatility, where the variance is positive. -/
theorem metrics_sharpe_eq [LawfulRoot α] (output : Series α) (hlength : prices.length = m + 1)
    (hrate : 0 ≤ rate) :
    (run prices output rate).metrics.sharpe =
      if 0 < stepVariance (stepAt prices output rate) (m + 1) then
        some (meanStep (stepAt prices output rate) (m + 1) /
          (run prices output rate).metrics.volatility)
      else none := by
  have hmetrics : (run prices output rate).metrics.sharpe =
      if Number.lt Number.zero (run prices output rate).metrics.volatility then
        some ((Welford.ofList (steps prices output rate)).mean /
          (run prices output rate).metrics.volatility)
      else none := rfl
  rw [hmetrics, steps_eq hlength output hrate, mean_ofList_steps,
    metrics_volatility_eq output hlength hrate]
  simp only [Number.lt, Number.zero_eq, decide_eq_true_eq,
    ExactNumber.root_pos_iff (stepVariance_nonneg _ _)]

/-! ## In a larger field

The steps may be rational numbers and the root of their variance not. The same backtest in a larger
field has the same steps, and there a volatility. -/

section Embedding

variable {β : Type} [ExactNumber β] (f : α →+*o β)

theorem map_abs_eq (x : α) : f |x| = |f x| := by
  rw [abs_eq_max_neg, abs_eq_max_neg, (OrderHomClass.mono f).map_max, map_neg]

theorem priceAt_map (prices : List α) (i : ℕ) :
    priceAt (prices.map f) i = f (priceAt prices i) := by
  rw [priceAt, priceAt, ← map_zero f, List.getD_map]

theorem heldAt_map (prices : List α) (output : Series α) (i : ℕ) :
    heldAt (prices.map f) (fun t => f (output t)) i = f (heldAt prices output i) := by
  rw [heldAt, heldAt, List.length_map, (OrderHomClass.mono f).map_max,
    (OrderHomClass.mono f).map_min, map_neg, map_one]

theorem changeAt_map (prices : List α) (i : ℕ) :
    changeAt (prices.map f) i = f (changeAt prices i) := by
  simp only [changeAt, priceAt_map, map_eq_zero, apply_ite f, map_zero, map_div₀, map_sub]

/-- The steps of a backtest are the same numbers in a larger field. -/
theorem stepAt_map (prices : List α) (output : Series α) (rate : α) :
    stepAt (prices.map f) (fun t => f (output t)) (f rate) =
      fun i => f (stepAt prices output rate i) := by
  funext i
  simp only [stepAt, heldAt_map, changeAt_map, map_sub, map_mul, map_abs_eq]

theorem meanStep_map (n : ℕ) : meanStep (fun j => f (s j)) n = f (meanStep s n) := by
  simp only [meanStep, map_div₀, map_sum, map_natCast]

theorem stepVariance_map (n : ℕ) : stepVariance (fun j => f (s j)) n = f (stepVariance s n) := by
  simp only [stepVariance, meanStep_map, map_div₀, map_sum, map_natCast, map_pow, map_sub]

variable [LawfulRoot β]

/-- The volatility in a larger field is the root of the variance there. -/
theorem volatility_map (hlength : prices.length = m + 1) (hrate : 0 ≤ rate) :
    (run (prices.map f) (fun t => f (output t)) (f rate)).metrics.volatility =
      ExactNumber.root (f (stepVariance (stepAt prices output rate) (m + 1))) := by
  have hlength' : (prices.map f).length = m + 1 := by rw [List.length_map, hlength]
  rw [metrics_volatility_eq _ hlength' (map_nonneg f hrate), stepAt_map, stepVariance_map]

/-- The Sharpe ratio in a larger field exists where the variance is positive. -/
theorem sharpe_map (hlength : prices.length = m + 1) (hrate : 0 ≤ rate) :
    (run (prices.map f) (fun t => f (output t)) (f rate)).metrics.sharpe =
      if 0 < stepVariance (stepAt prices output rate) (m + 1) then
        some (f (meanStep (stepAt prices output rate) (m + 1)) /
          (run (prices.map f) (fun t => f (output t)) (f rate)).metrics.volatility)
      else none := by
  have hmono : StrictMono f :=
    (OrderHomClass.mono f).strictMono_of_injective f.toRingHom.injective
  have hlength' : (prices.map f).length = m + 1 := by rw [List.length_map, hlength]
  rw [metrics_sharpe_eq _ hlength' (map_nonneg f hrate), stepAt_map, stepVariance_map,
    meanStep_map]
  refine if_congr ?_ rfl rfl
  rw [← map_zero f, hmono.lt_iff_lt]

end Embedding

/-! ## The figures -/

/-- **A backtest computes the figures as they are defined.** Over the rational numbers, as over any
others that are calculated with exactly, the equity is the product of what the steps leave of it,
the total return its last value less one, and the drawdown the least distance from the peak, which
is never below one. Roots may exist in a larger field only, as the real numbers are for the rational
ones. There the square of the volatility is the variance of the steps, and the Sharpe ratio is their
mean over the volatility; it exists if the variance is positive. -/
theorem run_textbook (prices : List α) (output : Series α) (rate : α) (hprices : prices ≠ [])
    (hrate : 0 ≤ rate) :
    let n := prices.length
    let s := stepAt prices output rate
    let b := run prices output rate
    b.positions = (List.range n).map (heldAt prices output) ∧
    b.equity = (List.range n).map (equityAt s) ∧
    b.metrics.totalReturn = equityAt s (n - 1) - 1 ∧
    IsLeast {d | ∃ i < n, d = drawdownAt s i} b.metrics.maxDrawdown ∧
    (∀ i, 1 ≤ peakAt s i) ∧
    ∀ (β : Type) [ExactNumber β] [LawfulRoot β] (f : α →+*o β),
      let r := run (prices.map f) (fun t => f (output t)) (f rate)
      0 ≤ r.metrics.volatility ∧ r.metrics.volatility ^ 2 = f (stepVariance s n) ∧
      r.metrics.sharpe =
        if 0 < stepVariance s n then some (f (meanStep s n) / r.metrics.volatility) else none := by
  intro n s b
  obtain ⟨m, hlength⟩ : ∃ m, prices.length = m + 1 :=
    Nat.exists_eq_add_one.mpr (List.length_pos_iff.mpr hprices)
  have hn : n = m + 1 := hlength
  rw [hn, Nat.add_sub_cancel]
  refine ⟨?_, equity_eq_map hlength hrate, totalReturn_eq_equityAt hlength hrate, ?_,
    one_le_peakAt s, fun β _ _ f => ?_⟩
  · rw [← hlength]
    exact positions_eq prices output rate
  · simp only [Nat.lt_succ_iff]
    exact isLeast_maxDrawdown hlength hrate
  · have hnonneg : 0 ≤ f (stepVariance s (m + 1)) := map_nonneg f (stepVariance_nonneg s _)
    refine ⟨?_, ?_, sharpe_map f hlength hrate⟩
    · rw [volatility_map f hlength hrate]
      exact LawfulRoot.root_nonneg _ hnonneg
    · rw [volatility_map f hlength hrate]
      exact LawfulRoot.sq_root _ hnonneg

/-- A position held while the price rises by a tenth and then falls by a tenth. -/
theorem run_textbook_riseAndFall :
    let prices : List ℚ := [100, 110, 99]
    let output : Series ℚ := Series.constant 1
    let b := run prices output 0
    let f : ℚ →+*o ℝ := ⟨Rat.castHom ℝ, Rat.cast_mono⟩
    let r := run (prices.map f) (fun t => f (output t)) (f 0)
    prices ≠ [] ∧ (0 : ℚ) ≤ 0 ∧ b.equity = [1, 11 / 10, 99 / 100] ∧
      IsLeast {d | ∃ i < 3, d = drawdownAt (stepAt prices output 0) i} (-1 / 10) ∧
      r.metrics.volatility ^ 2 = 1 / 100 ∧ r.metrics.sharpe = some 0 := by
  intro prices output b f r
  have hprices : prices ≠ [] := List.cons_ne_nil _ _
  obtain ⟨-, -, -, hdrawdown, -, hroot⟩ := run_textbook prices output 0 hprices le_rfl
  obtain ⟨-, hvolatility, hsharpe⟩ := hroot ℝ f
  have hmean : meanStep (stepAt prices output 0) 3 = 0 := by decide +kernel
  have hvariance : stepVariance (stepAt prices output 0) 3 = 1 / 100 := by decide +kernel
  have hworst : (run prices output 0).metrics.maxDrawdown = -1 / 10 := by decide +kernel
  refine ⟨hprices, le_rfl, by decide +kernel, hworst ▸ hdrawdown, ?_, ?_⟩
  · rw [hvolatility, show prices.length = 3 from rfl, hvariance]
    norm_num
  · rw [hsharpe, show prices.length = 3 from rfl, hvariance, hmean, map_zero, zero_div]
    norm_num

end Backtest

end SignalLab
