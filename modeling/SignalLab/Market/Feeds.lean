import SignalLab.Series

/-!
# The signals that a market feeds into a program

A program reads six signals of one market: a typical price, the traded volume, and the opening,
closing, highest and lowest price of every sample.
-/

namespace SignalLab

/-- The six signals of a market. -/
structure Feeds where
  price : Signal
  volume : Signal
  opening : Signal
  closing : Signal
  high : Signal
  low : Signal

namespace Feeds

/-- The same signal six times. -/
def same (x : Signal) : Feeds := ⟨x, x, x, x, x, x⟩

/-- Six signals that are zero everywhere. -/
def zeros : Feeds := same (Series.constant 0.0)

/-- The names by which programs read the six signals. -/
def names : List String := ["price", "volume", "open", "close", "high", "low"]

/-- The six signals under their names. -/
def named (f : Feeds) : List (String × Signal) :=
  names.zip [f.price, f.volume, f.opening, f.closing, f.high, f.low]

end Feeds

end SignalLab
