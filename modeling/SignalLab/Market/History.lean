import SignalLab.Market.Calendar
import SignalLab.Market.Feeds

/-!
# The history of a market

A history is a list of samples, the oldest first. Each sample holds six numbers, so the six columns of
a history are of one length by construction; six separate columns make a history only if they agree.

A bar is a sample as a data source records it, with its date and without the typical price, which is
the mean of the highest, the lowest and the closing price.
-/

namespace SignalLab

/-! ## Samples and bars -/

/-- What is known of a market at one time. -/
structure Sample (α : Type) where
  price : α
  volume : α
  opening : α
  closing : α
  high : α
  low : α

/-- A dated record of a market. -/
structure Bar where
  date : Date
  opening : Float
  high : Float
  low : Float
  closing : Float
  volume : Float

namespace Bar

/-- The mean of the highest, the lowest and the closing price. -/
def typicalPrice (b : Bar) : Float := (b.high + b.low + b.closing) / 3.0

/-- The sample that a bar records. -/
def sample (b : Bar) : Sample Float :=
  ⟨b.typicalPrice, b.volume, b.opening, b.closing, b.high, b.low⟩

end Bar

/-! ## Histories -/

/-- The samples of a market, the oldest first. -/
structure History where
  samples : Array (Sample Float)

/-- A column whose length differs from that of the prices. -/
structure ColumnFault where
  column : String
  expected : Nat
  actual : Nat
  deriving DecidableEq, Repr

/-- The text of the fault. -/
def ColumnFault.message (f : ColumnFault) : String :=
  let column := f.column
  let expected := f.expected
  let actual := f.actual
  s!"input series '{column}' has {actual} samples, expected {expected}"

namespace History

/-- The number of samples. -/
def size (h : History) : Nat := h.samples.size

/-- One column of a history. -/
def column (h : History) (part : Sample Float → Float) : Array Float := h.samples.map part

/-- The prices, the oldest first. -/
def prices (h : History) : List Float := (h.column Sample.price).toList

/-- The signals of a history. -/
def feeds (h : History) : Feeds where
  price := Series.ofArray (h.column Sample.price)
  volume := Series.ofArray (h.column Sample.volume)
  opening := Series.ofArray (h.column Sample.opening)
  closing := Series.ofArray (h.column Sample.closing)
  high := Series.ofArray (h.column Sample.high)
  low := Series.ofArray (h.column Sample.low)

/-- The history of some bars, in their order. -/
def ofBars (bars : List Bar) : History := ⟨(bars.map Bar.sample).toArray⟩

/-- The history of six columns; the first one that differs in length from the prices is at fault. -/
def ofColumns (price volume opening closing high low : Array Float) :
    Except ColumnFault History :=
  let columns :=
    [("volume", volume), ("open", opening), ("close", closing), ("high", high), ("low", low)]
  match columns.find? fun (_, xs) => xs.size ≠ price.size with
  | some (name, xs) => .error ⟨name, price.size, xs.size⟩
  | none => .ok ⟨(Array.range price.size).map fun i =>
      ⟨price.getD i missingFloat, volume.getD i missingFloat, opening.getD i missingFloat,
        closing.getD i missingFloat, high.getD i missingFloat, low.getD i missingFloat⟩⟩

end History

end SignalLab
