import Mathlib.Algebra.Order.Group.Abs
import Mathlib.Data.List.Forall2
import Mathlib.Tactic.Linarith
import SignalLab.Proofs.Backtest.Prefix
import SignalLab.Proofs.Number.Exact

/-!
# What a higher cost rate does to the total return

Calculated exactly, the equity is multiplied by one plus the step return at every step, and the total
return is the product of these factors less one. A higher cost rate lowers every factor or leaves it.
It lowers the product as well as long as no factor is negative, that is, as long as no step loses more
than all of the equity (`totalReturn_antitone`).

Nothing ends a backtest whose equity is used up, so two steps that each lose more than all of it make
a gain together, and that gain grows with the cost rate (`not_forall_totalReturn_antitone`).
-/

namespace SignalLab.Backtest

variable {α : Type} [ExactNumber α]

/-! ## Steps -/

/-- The returns of the steps of a backtest. -/
def steps (prices : List α) (output : Series α) (rate : α) : List α :=
  stepReturns (effectiveCost rate) (prices.zip ((output.latest prices.length).map position))

theorem effectiveCost_eq (rate : α) : effectiveCost rate = max 0 rate := by
  simp only [effectiveCost, Number.isFinite, Number.lt, Number.zero_eq, Bool.true_and,
    decide_eq_true_eq]
  rcases lt_or_ge 0 rate with h | h
  · rw [if_pos h, max_eq_right h.le]
  · rw [if_neg h.not_gt, max_eq_left h]

theorem stepReturn_eq (cost held next before now : α) :
    stepReturn cost held next before now = held * ((now - before) / before) - cost * |next - held| :=
  rfl

/-- A step returns less at a higher cost, or the same if the position is kept. -/
theorem stepReturn_antitone {low high : α} (h : low ≤ high) (held next before now : α) :
    stepReturn high held next before now ≤ stepReturn low held next before now := by
  rw [stepReturn_eq, stepReturn_eq]
  have hcost : low * |next - held| ≤ high * |next - held| :=
    mul_le_mul_of_nonneg_right h (abs_nonneg _)
  linarith

theorem stepReturns_antitone {low high : α} (h : low ≤ high) (samples : List (α × α)) :
    List.Forall₂ (· ≤ ·) (stepReturns high samples) (stepReturns low samples) := by
  induction samples with
  | nil => exact List.Forall₂.nil
  | cons first samples ih =>
    rcases samples with _ | ⟨second, samples⟩
    · exact List.Forall₂.nil
    · exact List.Forall₂.cons (stepReturn_antitone h _ _ _ _) ih

theorem steps_antitone {low high : α} (h : low ≤ high) (prices : List α) (output : Series α) :
    List.Forall₂ (· ≤ ·) (steps prices output high) (steps prices output low) := by
  refine stepReturns_antitone ?_ _
  rw [effectiveCost_eq, effectiveCost_eq]
  exact max_le_max_left 0 h

/-! ## Growth -/

/-- What an equity of one grows to by some step returns. -/
def growth (steps : List α) : α := (steps.map (1 + ·)).prod

theorem growth_cons (step : α) (steps : List α) : growth (step :: steps) = (1 + step) * growth steps :=
  List.prod_cons

/-- The last equity is the first one times the growth. -/
theorem getLast?_curve (equity : α) (steps : List α) :
    (curve equity steps).getLast? = some (equity * growth steps) := by
  induction steps generalizing equity with
  | nil => simp [curve, growth]
  | cons step steps ih =>
    rw [curve, List.getLast?_cons, ih, growth_cons, Number.one_eq, Option.getD_some, mul_assoc]

/-- **The total return is the growth less one.** -/
theorem totalReturn_eq (prices : List α) (output : Series α) (rate : α) :
    (run prices output rate).metrics.totalReturn = growth (steps prices output rate) - 1 := by
  rcases prices with _ | ⟨price, prices⟩
  · simp [run, metricsOf, steps, stepReturns, growth]
  · have hlast := getLast?_curve 1 (steps (price :: prices) output rate)
    rw [run]
    simp only [metricsOf, List.isEmpty_cons, Bool.false_eq_true, if_false, Number.one_eq]
    rw [show stepReturns _ _ = steps (price :: prices) output rate from rfl, hlast, one_mul,
      Option.getD_some]

/-- Step by step lower returns lead to a lower growth if none of them loses more than everything. -/
theorem growth_mono {lower upper : List α} (h : List.Forall₂ (· ≤ ·) lower upper)
    (hsolvent : ∀ step ∈ lower, -1 ≤ step) : 0 ≤ growth lower ∧ growth lower ≤ growth upper := by
  induction h with
  | nil => simp [growth]
  | @cons step step' lower upper hstep _ ih =>
    obtain ⟨hnonneg, hle⟩ := ih fun other hother => hsolvent other (List.mem_cons_of_mem _ hother)
    have hfactor : 0 ≤ 1 + step := by
      have := hsolvent step List.mem_cons_self
      linarith
    rw [growth_cons, growth_cons]
    refine ⟨mul_nonneg hfactor hnonneg, ?_⟩
    exact mul_le_mul (by linarith) hle hnonneg (by linarith)

/-! ## Total return -/

/-- **A higher cost rate never raises the total return** as long as no step at that rate loses more
than all of the equity. -/
theorem totalReturn_antitone (prices : List α) (output : Series α) (low high : α)
    (hrates : low ≤ high) (hsolvent : ∀ step ∈ steps prices output high, -1 ≤ step) :
    (run prices output high).metrics.totalReturn ≤ (run prices output low).metrics.totalReturn := by
  rw [totalReturn_eq, totalReturn_eq]
  have hgrowth := (growth_mono (steps_antitone hrates prices output) hsolvent).2
  linarith

/-- A position that is opened and turned over while the price rises and falls. -/
theorem totalReturn_antitone_turned :
    let prices : List ℚ := [100, 110, 99]
    let output : Series ℚ := Series.ofArray #[0, 1, -1]
    steps prices output (1 / 10) = [-1 / 10, -3 / 10] ∧
      (run prices output (1 / 10)).metrics.totalReturn ≤
        (run prices output (1 / 100)).metrics.totalReturn := by
  intro prices output
  have hsteps : steps prices output (1 / 10) = [-1 / 10, -3 / 10] := by decide +kernel
  refine ⟨hsteps, totalReturn_antitone prices output (1 / 100) (1 / 10) (by norm_num) ?_⟩
  rw [hsteps]
  decide +kernel

/-- A higher cost rate can raise the total return: at a steady price and the cost rate two, opening a
position turns an equity of one into a debt of one, and turning the position over turns the debt into
an equity of three. -/
theorem not_forall_totalReturn_antitone :
    ¬ ∀ (prices : List ℚ) (output : Series ℚ) (low high : ℚ), 0 ≤ low → low ≤ high →
      (run prices output high).metrics.totalReturn ≤ (run prices output low).metrics.totalReturn := by
  intro h
  have hle := h [100, 100, 100] (Series.ofArray #[0, 1, -1]) 0 2 (by norm_num) (by norm_num)
  have hfree : (run [100, 100, 100] (Series.ofArray #[0, 1, -1]) (0 : ℚ)).metrics.totalReturn = 0 := by
    decide +kernel
  have hdear : (run [100, 100, 100] (Series.ofArray #[0, 1, -1]) (2 : ℚ)).metrics.totalReturn = 2 := by
    decide +kernel
  rw [hfree, hdear] at hle
  norm_num at hle

end SignalLab.Backtest
