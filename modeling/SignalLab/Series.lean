import SignalLab.Number

/-!
# Series of numbers, read backwards

A series answers with a number for every offset into the past: offset zero is the latest sample and
larger offsets lie further back. A series never fails; where no sample exists the number is missing.

Offsets are the whole numbers of 64 bits. Going further back than the greatest offset stays there, so
an offset is a number with the proof that it is in range, and `Offset.back` is an addition that stops.
-/

namespace SignalLab

/-! ## Offsets -/

/-- The greatest offset, the largest number of 64 bits. -/
def maxOffset : Nat := 0xffffffffffffffff

/-- How far back a sample lies. -/
structure Offset where
  toNat : Nat
  le_max : toNat ≤ maxOffset
  deriving DecidableEq

namespace Offset

/-- The offset nearest to a number. -/
def ofNat (n : Nat) : Offset := ⟨min n maxOffset, Nat.min_le_right _ _⟩

/-- The offset `k` samples further back. -/
def back (t : Offset) (k : Nat) : Offset := ofNat (t.toNat + k)

/-- The offset of the latest sample. -/
def latest : Offset := ofNat 0

theorem ext_toNat {s t : Offset} (h : s.toNat = t.toNat) : s = t := by
  cases s; cases t; simp_all

@[simp] theorem toNat_ofNat (n : Nat) : (ofNat n).toNat = min n maxOffset := rfl

@[simp] theorem toNat_back (t : Offset) (k : Nat) :
    (t.back k).toNat = min (t.toNat + k) maxOffset := rfl

@[simp] theorem back_zero (t : Offset) : t.back 0 = t :=
  ext_toNat (by have := t.le_max; simp; omega)

/-- Going back twice is going back by the sum: where one of the steps stops, so does the sum. -/
theorem back_back (t : Offset) (j k : Nat) : (t.back j).back k = t.back (j + k) :=
  ext_toNat (by simp; omega)

/-- The offset as a floating-point number. -/
def toFloat (t : Offset) : Float := t.toNat.toUInt64.toFloat

end Offset

/-! ## Series -/

/-- A number for every offset. -/
abbrev Series (α : Type) := Offset → α

/-- The series that a program stands for, or reads. -/
abbrev Signal := Series Float

namespace Series

variable {α β : Type}

/-- The series with the same number everywhere. -/
def constant (x : α) : Series α := fun _ => x

/-- The series of recorded samples, the oldest first; beyond them the number is missing. -/
def ofArray [Number α] (samples : Array α) : Series α := fun t =>
  if h : t.toNat < samples.size then samples[samples.size - 1 - t.toNat] else Number.missing

/-- The `n` latest numbers of a series, the oldest first. -/
def latest (x : Series α) (n : Nat) : List α :=
  (List.range n).reverse.map fun t => x (Offset.ofNat t)

end Series

end SignalLab
