import SignalLab.Series.Window
import SignalLab.Vocabulary.Entry

/-!
# Time series

The functions of this group look back. Most take a signal and the length of a window, which is itself
a signal and is read anew at every offset. The two returns compare a sample with the one before it.
-/

namespace SignalLab.Rolling

/-! ## Functions on signals -/

/-- The signal as it was as many samples ago as the other signal says. -/
def lag (x n : Signal) : Signal := fun t => x (t.back (windowLength (n t) 0))

/-- How far the signal has moved since then. -/
def difference (x n : Signal) : Signal := fun t => x t - x (t.back (windowLength (n t) 0))

/-- An aggregate over the window that ends at each offset. A window holds at least one sample. -/
def windowed (aggregate : Signal → Offset → Nat → Float) (x n : Signal) : Signal :=
  fun t => aggregate x t (windowLength (n t) 1)

/-- A comparison of each sample with the one before it; zero where that one is zero. -/
def sincePrevious (f : Float → Float → Float) (x : Signal) : Signal := fun t =>
  let previous := x (t.back 1)
  if previous == 0.0 then 0.0 else f (x t) previous

/-- The change of a sample as a share of the one before it. -/
def simpleReturn (now previous : Float) : Float := (now - previous) / previous

/-- The logarithm of the ratio of a sample to the one before it. -/
def logReturn (now previous : Float) : Float := (now / previous).log

/-! ## Entries -/

/-- An entry of this group for a function of a signal and a length. -/
def windowEntry (f : Signal → Signal → Signal) (doc : String) : Entry :=
  (Entry.ofOperation .timeSeries (.binary f) doc).withParameters ["x", "n"]

/-- An entry of this group for a function of one signal. -/
def signalEntry (f : Signal → Signal) (doc : String) : Entry :=
  .ofOperation .timeSeries (.unary f) doc

/-- The names of this group. -/
def entries : List (String × Entry) :=
  [("lag", windowEntry lag "value lagged by n samples"),
   ("diff", windowEntry difference "x - lag x n"),
   ("sum", windowEntry (windowed Window.sum) "rolling sum over n samples"),
   ("mean", windowEntry (windowed Window.mean) "rolling mean over n samples"),
   ("stdev", windowEntry (windowed Window.deviation) "rolling standard deviation over n samples"),
   ("rolling_min", windowEntry (windowed Window.least) "rolling minimum over n samples"),
   ("rolling_max", windowEntry (windowed Window.greatest) "rolling maximum over n samples"),
   ("ema", windowEntry (windowed Window.exponential) "exponential moving average over n samples"),
   ("zscore", windowEntry (windowed Window.score) "z-score over n samples"),
   ("returns", signalEntry (sincePrevious simpleReturn) "simple return"),
   ("log_returns", signalEntry (sincePrevious logReturn) "log return")]

end SignalLab.Rolling
