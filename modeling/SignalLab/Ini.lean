import SignalLab.Text.Blank
import SignalLab.Text.Case

/-!
# Configuration texts

A configuration text assigns values to keys in sections, one to a line:

    [section]
    key = value     ; a remark

A line is read without the blanks around it and without what follows the first semicolon or number
sign. A line in brackets begins a section, up to its last closing bracket; what stands before the
first such line belongs to the section `default`. Any other line is split at its first equals sign or
colon, and a line without either assigns nothing to its key. Names of sections and keys are the same
in any case. The last assignment to a key counts.

## What is assumed

Configuration texts are read by the package `configparser`, which is not part of this repository. The
rules above and the texts of its faults are assumed of it. Which settings are accepted does not depend
on them: that is told of any configuration, however it was read (`Settings.ofConfig`).
-/

namespace SignalLab

/-! ## Assignments -/

/-- An assignment to a key; it has no value if the line had neither sign. -/
structure Assignment where
  sectionName : String
  key : String
  value? : Option String
  deriving DecidableEq, Repr

/-- The assignments of a configuration text, the last one first. -/
structure Ini where
  assignments : List Assignment

/-- Why a text is not a configuration. Lines are numbered from one. -/
inductive IniFault
  /-- The bracket that begins a section is not closed. -/
  | openBracket (line : Nat)
  /-- Nothing stands before the sign that ends a key. -/
  | emptyKey (line : Nat)
  deriving DecidableEq, Repr

/-- The text of a fault. An empty key begins its line, so its sign is at index zero. -/
def IniFault.message : IniFault → String
  | .openBracket line =>
    s!"line {line}: Found opening bracket for section name but no closing bracket"
  | .emptyKey line => s!"line {line}:0: Key cannot be empty"

/-! ## Lines -/

/-- What a line does. -/
inductive IniLine
  | nothing
  | beginSection (name : String)
  | assign (key : String) (value? : Option String)
  deriving DecidableEq, Repr

namespace Ini

/-- The section of assignments that stand before all sections. -/
def defaultSection : String := "default"

/-- The form in which a name that stands in a text is kept: without the blanks around it, and in lower
case. -/
def nameForm (s : String) : String := Text.lowercase (Text.trim s)

/-- Whether a character begins a remark. -/
def isRemark (c : Char) : Bool := c == ';' || c == '#'

/-- Whether a character ends a key. -/
def isSeparator (c : Char) : Bool := c == '=' || c == ':'

/-- The name between the brackets of a section line, given what follows the opening one. -/
def sectionName? (cs : List Char) : Option String :=
  let fromEnd := cs.reverse.dropWhile (· != ']')
  match fromEnd with
  | [] => none
  | _ :: name => some (nameForm (String.ofList name.reverse))

/-- What the line with the given number does. -/
def readLine (number : Nat) (line : List Char) : Except IniFault IniLine :=
  match Text.trimChars ((Text.trimChars line).takeWhile (!isRemark ·)) with
  | [] => .ok .nothing
  | '[' :: rest =>
    match sectionName? rest with
    | none => .error (.openBracket number)
    | some name => .ok (.beginSection name)
  | text =>
    let key := nameForm (String.ofList (text.takeWhile (!isSeparator ·)))
    match text.dropWhile (!isSeparator ·) with
    | [] => .ok (.assign key none)
    | _ :: value =>
      if key.isEmpty then .error (.emptyKey number)
      else .ok (.assign key (some (Text.trim (String.ofList value))))

/-! ## Texts -/

/-- Adds the assignments of some lines, numbered from `number`, to those before them. -/
def readLines (sectionName : String) (number : Nat) (known : List Assignment) :
    List (List Char) → Except IniFault (List Assignment)
  | [] => .ok known
  | line :: rest =>
    match readLine number line with
    | .error fault => .error fault
    | .ok .nothing => readLines sectionName (number + 1) known rest
    | .ok (.beginSection name) => readLines name (number + 1) known rest
    | .ok (.assign key value?) =>
      readLines sectionName (number + 1) (⟨sectionName, key, value?⟩ :: known) rest

/-- The assignments of a configuration text. -/
def ofText (text : String) : Except IniFault Ini :=
  (readLines defaultSection 1 [] (Text.lineChars text.toList)).map fun known => ⟨known⟩

/-- The value of a key, asked for in any case. Names with blanks at their ends are asked for in vain,
for no such names are kept. -/
def get? (ini : Ini) (sectionName key : String) : Option String :=
  let wanted := Text.lowercase sectionName
  let name := Text.lowercase key
  match ini.assignments.find? fun a => a.sectionName == wanted && a.key == name with
  | none => none
  | some a => a.value?

end Ini

end SignalLab
