import SignalLab.Series.Welford
import SignalLab.Series

/-!
# Backtests

A backtest reads a signal as the position to hold, a share of the equity between minus one and one,
and follows the equity of a trader who does so.

## One step

From one sample to the next the equity grows by the step return. The position chosen at the earlier
sample earns the relative change of the price, and the change to the new position costs the cost rate
per unit of turnover. A change of price that is not finite, as from a price of zero, earns nothing, and
a position that is not finite is no position.

## The figures

The equity starts at one. Its last value less one is the total return. The drawdown at a sample is how
far the equity lies below its peak so far, as a share of the peak, and the worst one is reported. The
volatility is the deviation of the step returns from their mean, and the Sharpe ratio the mean over
the volatility, where there is any.
-/

namespace SignalLab

/-! ## Results -/

/-- The figures of a backtest. -/
structure Metrics (α : Type) where
  totalReturn : α
  maxDrawdown : α
  volatility : α
  sharpe : Option α

/-- The outcome of a backtest; equity and positions are given per sample, the oldest first. -/
structure Backtest (α : Type) where
  equity : List α
  positions : List α
  metrics : Metrics α

namespace Backtest

variable {α : Type} [Number α]

/-! ## Positions, costs and steps -/

/-- The position that a number asks for. -/
def position (x : α) : α :=
  if Number.isFinite x then Number.confine (-Number.one) Number.one x else Number.zero

/-- The cost rate that is charged: not less than zero, and zero for what is not finite. -/
def effectiveCost (rate : α) : α :=
  if Number.isFinite rate && Number.lt Number.zero rate then rate else Number.zero

/-- The relative change of a price. -/
def priceReturn (before now : α) : α := Number.orZero ((now - before) / before)

/-- The return of one step: `held` is the position during it and `next` the one after it. -/
def stepReturn (cost held next before now : α) : α :=
  held * priceReturn before now - cost * Number.abs (next - held)

/-- The returns of the steps between samples, each a price with the position chosen there. -/
def stepReturns (cost : α) : List (α × α) → List α
  | (before, held) :: (now, next) :: rest =>
    stepReturn cost held next before now :: stepReturns cost ((now, next) :: rest)
  | _ => []

/-! ## Equity and drawdown -/

/-- The equity at every sample, from that at the first and the step returns. -/
def curve (equity : α) : List α → List α
  | [] => [equity]
  | step :: rest => equity :: curve (equity * (Number.one + step)) rest

/-- The worst drawdown of a piece of an equity curve, and of what came before it, whose peak and worst
drawdown are given. -/
def worstDrawdown (peak worst : α) : List α → α
  | [] => worst
  | equity :: rest =>
    let peak := Number.larger peak equity
    let drawdown := equity / peak - Number.one
    worstDrawdown peak (Number.smaller worst drawdown) rest

/-! ## Backtests -/

/-- The deviation of the step returns, zero unless there are several. -/
def volatility (w : Welford α) : α :=
  if 1 < w.count then w.deviation else Number.zero

/-- The figures of step returns that lead to an equity curve. -/
def metricsOf (steps equity : List α) : Metrics α :=
  let spread := Welford.ofList steps
  let deviation := volatility spread
  { totalReturn := equity.getLast?.getD Number.one - Number.one
    maxDrawdown := worstDrawdown Number.one Number.zero equity.tail
    volatility := deviation
    sharpe := if Number.lt Number.zero deviation then some (spread.mean / deviation) else none }

/-- The backtest of a signal over the prices of a market, the oldest first. -/
def run (prices : List α) (output : Series α) (costRate : α) : Backtest α :=
  let positions := (output.latest prices.length).map position
  let steps := stepReturns (effectiveCost costRate) (prices.zip positions)
  let equity := if prices.isEmpty then [] else curve Number.one steps
  ⟨equity, positions, metricsOf steps equity⟩

end Backtest

end SignalLab
