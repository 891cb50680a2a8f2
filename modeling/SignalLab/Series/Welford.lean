import SignalLab.Number

/-!
# Mean and deviation in one pass

`Welford` keeps the number of samples seen, their mean, and the sum of their squared distances from
the mean. One more sample moves the mean towards itself by its share of the distance, and adds the
product of its distances from the old mean and from the new one to the sum. No sum of squares is ever
formed, so nothing cancels when the samples lie far from zero and close together.
-/

namespace SignalLab

/-- What is known of the samples seen so far. -/
structure Welford (α : Type) where
  count : Nat
  mean : α
  /-- The sum of the squared distances from the mean. -/
  squares : α

namespace Welford

variable {α : Type} [Number α]

/-- No samples. -/
@[inline] def empty : Welford α := ⟨0, Number.zero, Number.zero⟩

/-- One more sample. -/
@[inline] def push (w : Welford α) (x : α) : Welford α :=
  let count := w.count + 1
  let distance := x - w.mean
  let mean := w.mean + distance / Number.ofCount count
  ⟨count, mean, w.squares + distance * (x - mean)⟩

/-- The samples of a list, in its order. -/
def ofList (xs : List α) : Welford α := xs.foldl push empty

/-- The root of the mean squared distance from the mean. -/
@[inline] def deviation (w : Welford α) : α :=
  Number.sqrt (w.squares / Number.ofCount w.count)

end Welford

end SignalLab
