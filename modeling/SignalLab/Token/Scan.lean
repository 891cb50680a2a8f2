import SignalLab.Token
import SignalLab.Diagnostic
import SignalLab.Decimal.Read

/-!
# From characters to tokens

`Token.scan` cuts a source text into pieces from the front. A piece is a gap (a blank, or a comment up
to the end of its line) or a token, and always the longest that begins where it stands:

* a parenthesis, an equals sign or the pipe `|>`;
* a word: a lower-case letter or underscore followed by letters, underscores and digits;
* a numeral: an optional sign, digits, an optional point with more digits, and an optional exponent
  mark with an optional sign and digits.

The digits of a numeral may be absent while it is cut off. Whether it writes a number is decided
afterwards, on the whole of it, so `1e` is refused rather than read as a number and a word.

## Ending

A piece is described by its first character and the number of characters after it. What remains is
therefore always shorter, which is why the scan ends. Places are counted in characters.
-/

namespace SignalLab

/-! ## Classes of characters -/

/-- The characters that separate tokens. -/
def isGapChar (c : Char) : Bool := c == ' ' || c == '\t' || c == '\n' || c == '\r'

/-- The characters at which a comment ends. -/
def isLineEnd (c : Char) : Bool := c == '\n' || c == '\r'

/-- The characters that begin a word. -/
def isWordStart (c : Char) : Bool := c.isLower || c == '_'

/-- The characters that continue a word. -/
def isWordPart (c : Char) : Bool := isWordStart c || c.isDigit

/-- The characters that begin a numeral. -/
def isNumeralStart (c : Char) : Bool := c.isDigit || c == '.' || Decimal.isSign c

/-- The characters that begin the exponent of a numeral. -/
def isExponentMark (c : Char) : Bool := c == 'e' || c == 'E'

/-! ## Words and numerals -/

/-- The kind of token that a word is. -/
def wordKind (word : String) : TokenKind :=
  if word = "let" then .letWord else if word = "in" then .inWord else .reference word

/-- Splits off the first character if it satisfies `p`. -/
def splitOne (p : Char → Bool) : List Char → List Char × List Char
  | [] => ([], [])
  | c :: rest => if p c then ([c], rest) else ([], c :: rest)

/-- The exponent at the front of a text: a mark, an optional sign and digits. -/
def exponentPart (cs : List Char) : List Char :=
  match splitOne isExponentMark cs with
  | ([], _) => []
  | (mark, afterMark) =>
    let (sign, afterSign) := splitOne Decimal.isSign afterMark
    mark ++ sign ++ afterSign.takeWhile Char.isDigit

/-- The numeral at the front of a text. -/
def numeral (cs : List Char) : List Char :=
  let (sign, afterSign) := splitOne Decimal.isSign cs
  let (whole, afterWhole) := afterSign.span Char.isDigit
  let (point, afterPoint) := splitOne (· == '.') afterWhole
  let (fraction, afterFraction) := afterPoint.span Char.isDigit
  sign ++ whole ++ point ++ fraction ++ exponentPart afterFraction

/-! ## Pieces -/

/-- What a source text begins with: a token, or a gap if `kind?` is absent. It consists of the first
character of the text and `more` characters after it. -/
structure Piece where
  kind? : Option TokenKind
  more : Nat

/-- The piece that begins with `c` where `rest` follows, if there is one. -/
def piece? (c : Char) (rest : List Char) : Option Piece :=
  if isGapChar c then some ⟨none, 0⟩
  else if c = '#' then some ⟨none, (rest.takeWhile (!isLineEnd ·)).length⟩
  else if c = '(' then some ⟨some .opening, 0⟩
  else if c = ')' then some ⟨some .closing, 0⟩
  else if c = '=' then some ⟨some .equals, 0⟩
  else if c = '|' then
    if rest.head? = some '>' then some ⟨some .pipe, 1⟩ else none
  else if isWordStart c then
    let tail := rest.takeWhile isWordPart
    some ⟨some (wordKind (String.ofList (c :: tail))), tail.length⟩
  else if isNumeralStart c then
    let text := numeral (c :: rest)
    match Decimal.readFloatChars text with
    | .ok value => some ⟨some (.literal value), text.length - 1⟩
    | .error _ => none
  else none

namespace Token

/-! ## The scan -/

/-- Scans the characters of a text that begin at offset `start`. -/
def scanFrom (start : Nat) : List Char → Except Diagnostic (List Token)
  | [] => .ok [⟨.eof, Span.point start⟩]
  | c :: rest =>
    match piece? c rest with
    | none => .error (.character c (Span.single start))
    | some ⟨kind?, more⟩ =>
      let stop := start + 1 + more
      match kind? with
      | none => scanFrom stop (rest.drop more)
      | some kind => (scanFrom stop (rest.drop more)).map (⟨kind, ⟨start, stop⟩⟩ :: ·)
termination_by cs => cs.length
decreasing_by all_goals simp only [List.length_drop, List.length_cons]; omega

/-- The tokens of a source text, or the first character that begins none. -/
def scan (source : String) : Except Diagnostic (List Token) :=
  scanFrom 0 source.toList

end Token

end SignalLab
