/-!
# Blank characters, trimming and lines

Texts that people write by hand carry blanks at their ends. A blank is a character with the Unicode
property White_Space. The property has twenty-five members, so it is written out as a table of
ranges.

`trim` removes the blanks at both ends of a text. `lines` cuts a text at its line feeds; a carriage
return that stands directly before a line feed belongs to the line end, and a line feed at the very
end of the text ends the last line instead of opening an empty one.
-/

namespace SignalLab.Text

/-! ## The blanks -/

/-- The closed ranges of code points with the property White_Space. -/
def blankRanges : List (Nat × Nat) :=
  [(0x09, 0x0d), (0x20, 0x20), (0x85, 0x85), (0xa0, 0xa0), (0x1680, 0x1680), (0x2000, 0x200a),
   (0x2028, 0x2029), (0x202f, 0x202f), (0x205f, 0x205f), (0x3000, 0x3000)]

/-- Whether a character has the property White_Space. -/
def isBlank (c : Char) : Bool :=
  blankRanges.any fun (low, high) => low ≤ c.toNat && c.toNat ≤ high

/-! ## Trimming -/

/-- Drops the characters at the end of a list that satisfy `p`. -/
def dropWhileEnd {α : Type} (p : α → Bool) (cs : List α) : List α :=
  (cs.reverse.dropWhile p).reverse

/-- Removes the blanks at both ends. -/
def trimChars (cs : List Char) : List Char :=
  dropWhileEnd isBlank (cs.dropWhile isBlank)

/-- Removes the blanks at both ends of a text. -/
def trim (s : String) : String :=
  String.ofList (trimChars s.toList)

/-- Trims a text that may be absent; a text of blanks alone counts as absent. -/
def trimmed? (s : Option String) : Option String :=
  match s.map trim with
  | some "" => none
  | other => other

/-! ## Lines -/

/-- Cuts a list of characters at every line feed. -/
def splitLines (cs : List Char) : List (List Char) :=
  cs.splitOn '\n'

/-- Removes one carriage return at the end of a line. -/
def dropLineReturn (line : List Char) : List Char :=
  match line.reverse with
  | '\r' :: rest => rest.reverse
  | _ => line

/-- The lines of a text without their line ends. Only a line that a line feed ends loses a carriage
return, and nothing follows the last line feed if the text ends with it. -/
def lineChars (cs : List Char) : List (List Char) :=
  let pieces := splitLines cs
  let ended := pieces.dropLast.map dropLineReturn
  match pieces.getLast? with
  | none | some [] => ended
  | some last => ended ++ [last]

/-- The lines of a text without their line ends. -/
def lines (s : String) : List String :=
  (lineChars s.toList).map String.ofList

end SignalLab.Text
