import SignalLab.Series

/-!
# Numbers drawn from a seed

`draws seed` is a series of numbers from zero up to one that follow no pattern one would notice. The
offset is spread over all bits by multiplication with an odd number, and the bits are then mixed by
shifting and multiplying. The upper fifty-three of them are the digits of the number.
-/

namespace SignalLab

/-- Mixes the bits of a word, so that each of them depends on all. -/
def mixBits (word : UInt64) : UInt64 :=
  let word := (word ^^^ (word >>> 30)) * 0xbf58476d1ce4e5b9
  let word := (word ^^^ (word >>> 27)) * 0x94d049bb133111eb
  word ^^^ (word >>> 31)

/-- The numbers drawn from a seed, one for every offset. -/
def draws (seed : UInt64) : Signal := fun t =>
  let word := mixBits (seed + (t.toNat.toUInt64 + 1) * 0x9e3779b97f4a7c15)
  (word >>> 11).toFloat / 9007199254740992.0

end SignalLab
