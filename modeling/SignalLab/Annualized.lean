import SignalLab.Backtest
import SignalLab.Frequency

/-!
# Figures per year

The return of a backtest is compounded to a year, and its Sharpe ratio scaled by the root of the number
of steps in a year. A figure that makes no sense is left out: the return if it is not finite or no step
was made, the ratio if there is none or it is not finite. Where all is lost, or more than all, the
return of a year is minus one.
-/

namespace SignalLab

/-- The figures of a backtest per year. -/
structure Annualized where
  totalReturn : Option Float
  sharpe : Option Float

namespace Annualized

/-- A return over some steps as a return over a year. -/
def yearlyReturn (total : Float) (steps : Nat) (f : Frequency) : Option Float :=
  if !total.isFinite || steps = 0 then none
  else if 1.0 + total <= 0.0 then some (-1.0)
  else some ((1.0 + total).pow (f.periodsPerYear / Float.ofNat steps) - 1.0)

/-- A ratio per step as a ratio per year. -/
def yearlySharpe (sharpe : Option Float) (f : Frequency) : Option Float :=
  (sharpe.filter Float.isFinite).map fun s => s * (f.periodsPerYear (α := Float)).sqrt

/-- The figures of a backtest over some steps, per year. -/
def ofMetrics (m : Metrics Float) (steps : Nat) (f : Frequency) : Annualized :=
  ⟨yearlyReturn m.totalReturn steps f, yearlySharpe m.sharpe f⟩

end Annualized

end SignalLab
