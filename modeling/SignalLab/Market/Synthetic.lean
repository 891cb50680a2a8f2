import SignalLab.Failure
import SignalLab.Market.Request
import SignalLab.Text.Units

/-!
# A market made of numbers

The synthetic market has a history for every name. The name alone decides it: the name is hashed, the
hash seeds a generator, and the generator drives a small random walk, three draws a sample. The first
draw moves the closing price by at most half a percent, down to a floor; the second spreads the highest
and the lowest price around opening and closing price; the third gives the volume. A sample opens where
the one before it closed. A longer history of the same name begins with the shorter ones.

A history of the market can be had of every length but those that no column can have. The columns are
laid out before the first sample is made, so a request for more fails at once. That there is memory
for columns that are not too long is taken for granted.
-/

namespace SignalLab

namespace Synthetic

/-! ## Seeds and draws -/

/-- What the hash starts from. -/
def hashStart : UInt32 := 2166136261

/-- What the hash is multiplied by after each unit. -/
def hashPrime : UInt32 := 16777619

/-- The hash of a name, over its units of sixteen bits. -/
def seedOf (name : String) : UInt32 :=
  (Text.units name).foldl (fun hash unit => (hash ^^^ unit.toUInt32) * hashPrime) hashStart

/-- The next state of the generator. -/
def nextState (state : UInt32) : UInt32 := state * 1664525 + 1013904223

variable {α : Type} [Number α]

/-- The number between zero and one that a state of the generator stands for. -/
def draw (state : UInt32) : α := Number.ofCount state.toNat / Number.ofCount UInt32.size

/-- A draw less one half. -/
def centred (state : UInt32) : α := draw state - Number.decimal 5 1

/-! ## The walk -/

/-- The closing price before the first sample. -/
def startClose : α := Number.ofCount 100

/-- The floor of closing prices. -/
def leastClose : α := Number.decimal 1 1

/-- The sample that follows a closing price, and the state of the generator after its draws. -/
def nextSample (state : UInt32) (opening : α) : Sample α × UInt32 :=
  let first := nextState state
  let second := nextState first
  let third := nextState second
  let drift := centred first * Number.decimal 1 2
  let closing := Number.larger (opening * (Number.one + drift)) leastClose
  let swing := Number.abs (centred second * Number.decimal 2 2)
  let high := Number.larger opening closing * (Number.one + swing)
  let low := Number.smaller opening closing * (Number.one - swing)
  let volume := Number.ofCount 800 + draw third * Number.ofCount 600
  (⟨(high + low + closing) / Number.ofCount 3, volume, opening, closing, high, low⟩, third)

/-- The next samples of a walk. -/
def walk (state : UInt32) (lastClose : α) : Nat → List (Sample α)
  | 0 => []
  | n + 1 =>
    let (sample, state) := nextSample state lastClose
    sample :: walk state sample.closing n

/-- The first samples of the market with a given name. -/
def samples (name : String) (n : Nat) : List (Sample α) :=
  walk (seedOf name) startClose n

end Synthetic

/-- The history of the synthetic market with a given name. -/
def History.synthetic (name : String) (n : Nat) : History :=
  ⟨(Synthetic.samples name n).toArray⟩

namespace Synthetic

/-! ## Requests -/

/-- The most numbers that a column can have: each takes eight bytes, and all of them together no more
than a signed word of 64 bits can count. -/
def longestColumn : Nat := 0x7fffffffffffffff / 8

/-- Fetches a history of the synthetic market. -/
def fetch (r : Request) : Except Failure History :=
  if longestColumn < r.limit then .error .overflow else .ok (.synthetic r.instrument r.limit)

end Synthetic

end SignalLab
