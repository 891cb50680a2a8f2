import SignalLab.Binary64
import SignalLab.Series
import SignalLab.Series.Welford

/-!
# Windows over a series

The window of length `k` at an offset holds the sample there and the `k - 1` samples before it. An
aggregate sums a window up in one number. One sample that is not finite spoils the whole aggregate,
which is then missing; in particular a window that reaches past the first sample is spoiled.

## The length of a window

A program gives the length as a number, which may be anything. `windowLength` rounds it to the nearest
whole number, a half upwards, and keeps it between a least length and `maxWindow`, which bounds the
work spent on one sample. What is not a positive finite number counts as the least length. The
rounding is exact: it is done on the significand and the exponent.

## Reading a window

`foldFinite` reads the samples from the newest to the oldest and stops at the first one that is not
finite, so a window far beyond the samples costs one reading. The exponential average alone goes from
the oldest sample to the newest.
-/

namespace SignalLab

/-! ## Window lengths -/

/-- The longest window that is ever read. -/
def maxWindow : Nat := 100000

/-- The whole number nearest to `m * 2 ^ q`, a half upwards. -/
def roundHalfUp (m : Nat) (q : Int) : Nat :=
  let (up, down) := powerOfTwo q
  (2 * (m * up) + down) / (2 * down)

/-- The length of the window that a number asks for. -/
def windowLength (n : Float) (least : Nat) : Nat :=
  match Binary64.ofFloat n with
  | .finite false m q => max least (min (roundHalfUp m q) maxWindow)
  | _ => least

namespace Window

variable {α β : Type}

/-! ## Reading samples -/

/-- The samples of the window of length `k` at an offset, newest first. -/
def samples (x : Series α) (t : Offset) (k : Nat) : List α :=
  (List.range k).map fun i => x (t.back i)

/-- Folds the samples of a window, newest first; nothing if one of them is not finite. -/
@[specialize] def foldFinite [Number α] (step : β → α → β) (x : Series α) :
    Nat → Offset → β → Option β
  | 0, _, acc => some acc
  | k + 1, t, acc =>
    let v := x t
    if Number.isFinite v then foldFinite step x k (t.back 1) (step acc v) else none

/-- Folds the samples `k - 1`, `k - 2`, ..., 0 of a window, oldest first; nothing if one of them is not
finite. -/
@[specialize] def foldFiniteOldest [Number α] (step : β → α → β) (x : Series α) (t : Offset) :
    Nat → β → Option β
  | 0, acc => some acc
  | k + 1, acc =>
    let v := x (t.back k)
    if Number.isFinite v then foldFiniteOldest step x t k (step acc v) else none

/-! ## Aggregates -/

variable [Number α]

/-- The sum of the samples. -/
@[specialize] def sum (x : Series α) (t : Offset) (k : Nat) : α :=
  (foldFinite (· + ·) x k t Number.zero).getD Number.missing

/-- The mean of the samples. -/
@[specialize] def mean (x : Series α) (t : Offset) (k : Nat) : α :=
  sum x t k / Number.ofCount k

/-- Mean and deviation of the samples. -/
@[specialize] def spread? (x : Series α) (t : Offset) (k : Nat) : Option (Welford α) :=
  foldFinite Welford.push x k t Welford.empty

/-- The deviation of the samples from their mean. -/
@[specialize] def deviation (x : Series α) (t : Offset) (k : Nat) : α :=
  match spread? x t k with
  | none => Number.missing
  | some w => w.deviation

/-- How many deviations the newest sample lies above the mean; zero if the samples do not deviate. -/
@[specialize] def score (x : Series α) (t : Offset) (k : Nat) : α :=
  match spread? x t k with
  | none => Number.missing
  | some w =>
    let deviation := w.deviation
    if Number.eq deviation Number.zero then Number.zero else (x t - w.mean) / deviation

/-- The sample that `choose` prefers to all others, starting from the newest. -/
@[specialize] def extreme (choose : α → α → α) (x : Series α) (t : Offset) (k : Nat) : α :=
  let newest := x t
  if Number.isFinite newest then
    (foldFinite choose x (k - 1) (t.back 1) newest).getD Number.missing
  else Number.missing

/-- The least sample. -/
@[specialize] def least (x : Series α) (t : Offset) (k : Nat) : α :=
  extreme Number.smaller x t k

/-- The greatest sample. -/
@[specialize] def greatest (x : Series α) (t : Offset) (k : Nat) : α :=
  extreme Number.larger x t k

/-- The share of a new sample in an exponential average over `k` samples. -/
@[inline] def smoothing (k : Nat) : α :=
  Number.ofCount 2 / (Number.ofCount k + Number.one)

/-- The exponential average: it starts at the oldest sample, and every newer one draws it towards
itself by the same share. -/
@[specialize] def exponential (x : Series α) (t : Offset) (k : Nat) : α :=
  let share := smoothing k
  let oldest := x (t.back (k - 1))
  if Number.isFinite oldest then
    let step (acc v : α) : α := share * v + (Number.one - share) * acc
    (foldFiniteOldest step x t (k - 1) oldest).getD Number.missing
  else Number.missing

end Window

end SignalLab
