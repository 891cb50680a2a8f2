import SignalLab.Text.CaseTable

/-!
# Lower case

`lowercase` lowers the case of a text. Nearly every character is lowered on its own: most have one
character as their lower case, and the capital I with a dot becomes an i followed by a combining dot.
The capital sigma alone looks around itself: at the end of a word it becomes the final sigma, and
anywhere else the ordinary one. It ends a word if a cased letter stands before it and none after it,
where characters that do not separate letters are passed over on both sides.
-/

namespace SignalLab.Text

/-! ## Single characters -/

/-- Whether a closed range of the list holds the character. -/
def inRanges (ranges : List (Nat × Nat)) (c : Char) : Bool :=
  ranges.any fun (low, high) => low ≤ c.toNat && c.toNat ≤ high

/-- The lower case of a character that stands alone. -/
def lowerChar (c : Char) : List Char :=
  if c = 'İ' then ['i', '\u0307']
  else
    match lowerRuns.find? fun (first, last, step, _) =>
        first ≤ c.toNat && c.toNat ≤ last && (c.toNat - first) % step == 0 with
    | none => [c]
    | some (_, _, _, shift) => [Char.ofNat (c.toNat + shift).toNat]

/-! ## The sigma at the end of a word -/

/-- Whether the first character that is not passed over is a cased letter. -/
def meetsLetter (cs : List Char) : Bool :=
  match cs.dropWhile (inRanges ignorableRanges) with
  | [] => false
  | c :: _ => inRanges casedRanges c

/-- The lower case of a capital sigma between the text before it, nearest character first, and the
text after it. -/
def lowerSigma (before after : List Char) : Char :=
  if meetsLetter before && !meetsLetter after then 'ς' else 'σ'

/-! ## Texts -/

/-- Lowers the characters of `cs`, which follow `before`, nearest character first. -/
def lowerFrom (before : List Char) : List Char → List Char
  | [] => []
  | c :: rest =>
    (if c = 'Σ' then [lowerSigma before rest] else lowerChar c) ++ lowerFrom (c :: before) rest

/-- Lowers the case of a text. -/
def lowercase (s : String) : String :=
  String.ofList (lowerFrom [] s.toList)

end SignalLab.Text
