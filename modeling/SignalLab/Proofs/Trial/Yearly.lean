import Mathlib
import SignalLab.Proofs.Trial.Outcome

/-!
# Figures for a year

What the figures of a backtest come to in a year is told in both directions: which figure is given, and
when none is (`Annualized.totalReturn_ofMetrics_iff`, `Annualized.sharpe_ofMetrics_iff`). A trial has
always made a step, so in a trial the return of a year is missing only where the return itself is not
finite (`Trial.totalReturn_eq_none_iff`).
-/

namespace SignalLab

namespace Annualized

variable {m : Metrics Float} {steps : ℕ} {f : Frequency} {y : Float}

/-- The return of a year is that of the steps, compounded. Where all is lost, or more than all, it is
minus one. -/
theorem totalReturn_ofMetrics_iff :
    (ofMetrics m steps f).totalReturn = some y ↔
      m.totalReturn.isFinite = true ∧ steps ≠ 0 ∧
        if 1.0 + m.totalReturn ≤ 0.0 then y = -1.0
        else y = (1.0 + m.totalReturn).pow (f.periodsPerYear / Float.ofNat steps) - 1.0 := by
  rw [ofMetrics, yearlyReturn]
  split
  · next hmissing =>
    have hmissing' : m.totalReturn.isFinite = false ∨ steps = 0 := by simpa using hmissing
    rcases hmissing' with hfinite | hsteps
    · simp [hfinite]
    · simp [hsteps]
  · next hgiven =>
    have hgiven' : ¬ (m.totalReturn.isFinite = false ∨ steps = 0) := by simpa using hgiven
    obtain ⟨hfinite, hsteps⟩ := not_or.mp hgiven'
    rw [and_iff_right (Bool.eq_true_of_not_eq_false hfinite), and_iff_right hsteps]
    split
    · exact Option.some_inj.trans eq_comm
    · exact Option.some_inj.trans eq_comm

/-- The return of a year is missing if there is no return to compound, or no step. -/
theorem totalReturn_ofMetrics_eq_none_iff :
    (ofMetrics m steps f).totalReturn = none ↔ m.totalReturn.isFinite = false ∨ steps = 0 := by
  rw [ofMetrics, yearlyReturn]
  split
  · next hmissing => simpa using hmissing
  · next hgiven =>
    have hgiven' : ¬ (m.totalReturn.isFinite = false ∨ steps = 0) := by simpa using hgiven
    split <;> simp [hgiven']

/-- The ratio of a year is that of a step, if it is a finite one, times the root of the number of steps
in a year. -/
theorem sharpe_ofMetrics_iff :
    (ofMetrics m steps f).sharpe = some y ↔
      ∃ ratio, m.sharpe = some ratio ∧ ratio.isFinite = true ∧
        y = ratio * (f.periodsPerYear (α := Float)).sqrt := by
  rw [ofMetrics, yearlySharpe]
  simp only [Option.map_eq_some_iff, Option.filter_eq_some_iff, and_assoc, eq_comm (b := y)]

end Annualized

namespace Trial

variable {v : Vocabulary} {p : Program} {s : Settings} {h : History} {t : Trial}

/-- There is no trial without a step. -/
theorem steps_ne_zero (htrial : ofHistory v p s h = .ok t) : h.size - 1 ≠ 0 := by
  rcases Nat.lt_or_ge h.size Settings.leastLimit with hsize | hsize
  · cases (ofHistory_of_lt hsize).symm.trans htrial
  · have htwo : Settings.leastLimit = 2 := rfl
    omega

/-- What a trial has in a year comes of its figures and of its steps, one less than the samples. -/
theorem annualized_eq (htrial : ofHistory v p s h = .ok t) :
    t.annualized = .ofMetrics t.backtest.metrics (h.size - 1) s.frequency := by
  unfold ofHistory at htrial
  split at htrial
  · cases htrial
  · split at htrial
    · cases htrial
    · cases htrial
      rfl

/-- **In a trial the return of a year is missing only where there is no return to compound.** -/
theorem totalReturn_eq_none_iff (htrial : ofHistory v p s h = .ok t) :
    t.annualized.totalReturn = none ↔ t.backtest.metrics.totalReturn.isFinite = false := by
  rw [annualized_eq htrial, Annualized.totalReturn_ofMetrics_eq_none_iff]
  exact or_iff_left (steps_ne_zero htrial)

end Trial

end SignalLab
