import SignalLab.Frequency

/-!
# Requests for data

A run asks a data source for the latest samples of an instrument, at a frequency.
-/

namespace SignalLab

/-- What a run asks of its data source. -/
structure Request where
  instrument : String
  /-- The most samples wanted. -/
  limit : Nat
  frequency : Frequency
  deriving DecidableEq

end SignalLab
