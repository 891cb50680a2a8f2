/-!
# The code units of a text

Some hashes and formats see a text as units of sixteen bits. A character up to 0xffff is one unit, and
any other two: the upper and the lower ten bits of its distance from 0x10000, each in a range that no
character uses.
-/

namespace SignalLab.Text

/-- The units of a character. -/
def charUnits (c : Char) : List Nat :=
  if c.toNat < 0x10000 then [c.toNat]
  else
    let offset := c.toNat - 0x10000
    [0xd800 + offset / 0x400, 0xdc00 + offset % 0x400]

/-- The units of a text. -/
def units (s : String) : List Nat := s.toList.flatMap charUnits

end SignalLab.Text
