import SignalLab.Text.Blank
import SignalLab.Text.Case

/-!
# The groups of a vocabulary

Every name that a program may use belongs to one of five groups. A group is written with any case, and
with blanks or hyphens for the underscore.
-/

namespace SignalLab

/-- A group of names. -/
inductive Category
  | inputs
  | constants
  | arithmetic
  | logic
  | timeSeries
  deriving DecidableEq, Repr

/-- A text that names no group, as it reads after blanks and case are evened out. -/
structure UnknownCategory where
  text : String
  deriving DecidableEq, Repr

namespace UnknownCategory

/-- The text of the fault. -/
def message (u : UnknownCategory) : String :=
  let text := u.text
  s!"unknown category '{text}' (expected inputs, constants, arithmetic, logic, time_series)"

end UnknownCategory

namespace Category

/-- The groups in the order in which they are listed. -/
def all : List Category := [.inputs, .constants, .arithmetic, .logic, .timeSeries]

/-- The heading of a group. -/
def title : Category → String
  | .inputs => "Inputs"
  | .constants => "Constants"
  | .arithmetic => "Arithmetic"
  | .logic => "Logic"
  | .timeSeries => "Time Series"

/-- Joins words by underscores where blanks or hyphens stand between them. -/
def joinWords (s : String) : String :=
  String.ofList (s.toList.map fun c => if c = '-' ∨ c = ' ' then '_' else c)

/-- The group that a text names. -/
def ofText (s : String) : Except UnknownCategory Category :=
  match joinWords (Text.lowercase (Text.trim s)) with
  | "inputs" => .ok .inputs
  | "constants" => .ok .constants
  | "arithmetic" => .ok .arithmetic
  | "logic" => .ok .logic
  | "time_series" => .ok .timeSeries
  | other => .error ⟨other⟩

end Category

end SignalLab
