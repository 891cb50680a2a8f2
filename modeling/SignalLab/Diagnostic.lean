import SignalLab.Span

/-!
# What can be wrong with a program

A source text fails to become a signal in one of four ways: a character that begins no token, a token
that cannot stand where it stands, a name that means nothing, and a name applied to the wrong number
of arguments. Each carries the span of the text at fault. An instruction list that was not made from a
source text can be malformed in further ways, which have no place in any text.

## Excerpts

`Diagnostic.excerpt` shows a diagnostic under the line it starts in. The line is the first one whose
end, its line feed included, lies at or behind the start of the span; if there is none, the last line.
The carets run under the span as far as the visible part of the line goes, and there is always one.
-/

namespace SignalLab

/-! ## Malformed instruction lists -/

/-- The two roles a name of the vocabulary can have. -/
inductive Role
  | reference
  | function
  deriving DecidableEq, Repr

/-- The word for a role in messages. -/
def Role.text : Role → String
  | .reference => "reference"
  | .function => "function"

/-- Why an instruction list has no value. Instructions are named by their index. -/
inductive ProgramFault
  | empty
  | forwardOperand (index operand : Nat)
  | unknownName (index : Nat) (name : String)
  | wrongRole (index : Nat) (name : String) (expected : Role)
  | operandCount (index : Nat) (name : String) (want got : Nat)
  deriving DecidableEq, Repr

/-- The text of a fault. -/
def ProgramFault.message : ProgramFault → String
  | .empty => "program has no instructions"
  | .forwardOperand index operand =>
    s!"instruction {index} uses operand {operand}, which does not precede it"
  | .unknownName index name => s!"instruction {index} names unknown builtin '{name}'"
  | .wrongRole index name expected =>
    let role := expected.text
    s!"instruction {index} uses '{name}' as a {role}, but it is not one"
  | .operandCount index name want got =>
    s!"instruction {index} calls '{name}' with {got} operands, expected {want}"

/-! ## Diagnostics -/

/-- Why a source text has no value. -/
inductive Diagnostic
  /-- A character begins no token. -/
  | character (value : Char) (span : Span)
  /-- A token stands where another was wanted. -/
  | token (want got context : String) (span : Span)
  /-- A name means nothing where it stands. -/
  | reference (name : String) (span : Span)
  /-- A name is applied to a number of arguments it does not take. -/
  | application (name : String) (want got : Nat) (span : Span)
  /-- The instruction list is malformed. -/
  | program (fault : ProgramFault)
  deriving DecidableEq, Repr

namespace Diagnostic

/-- The place at fault, if it is in the source text. -/
def span? : Diagnostic → Option Span
  | .character _ span | .token _ _ _ span | .reference _ span | .application _ _ _ span => some span
  | .program _ => none

/-- Applies a function to the span. -/
def mapSpan (f : Span → Span) : Diagnostic → Diagnostic
  | .character value span => .character value (f span)
  | .token want got context span => .token want got context (f span)
  | .reference name span => .reference name (f span)
  | .application name want got span => .application name want got (f span)
  | .program fault => .program fault

/-- The text of a diagnostic. -/
def message : Diagnostic → String
  | .character value span =>
    let position := span.start
    s!"Unexpected character '{value}' at position {position}"
  | .token want got context span =>
    let place := if context.isEmpty then "" else " in " ++ context
    let position := span.text
    s!"Expected {want} but got '{got}'{place} at position {position}"
  | .reference name span =>
    let position := span.text
    s!"Unknown reference '{name}' at position {position}"
  | .application name want got span =>
    let noun := if want = 1 then "argument" else "arguments"
    let position := span.text
    s!"Application on '{name}' expects {want} {noun} but got {got} at position {position}"
  | .program fault => fault.message

end Diagnostic

/-! ## Excerpts -/

/-- The line in which a position lies and the offset of its first character, where the given lines
begin at `offset`. -/
def lineAt (position : Nat) : Nat → List (List Char) → Nat × List Char
  | offset, [] => (offset, [])
  | offset, [last] => (offset, last)
  | offset, line :: more =>
    if position ≤ offset + line.length then (offset, line)
    else lineAt position (offset + line.length + 1) more

/-- The part of a line that is shown: without the carriage returns at its end. -/
def visiblePart (line : List Char) : List Char :=
  (line.reverse.dropWhile (· == '\r')).reverse

/-- How many carets a span gets from a column on in a line of the given visible length. -/
def caretCount (span : Span) (column visible : Nat) : Nat :=
  max 1 (min span.length (max 1 (visible - column)))

/-- A diagnostic under the source line it is about. -/
def Diagnostic.excerpt (d : Diagnostic) (source : String) : String :=
  match d.span? with
  | none => d.message
  | some span =>
    let (lineStart, line) := lineAt span.start 0 (source.toList.splitOn '\n')
    let column := span.start - lineStart
    let shown := visiblePart line
    let carets := List.replicate column ' '
      ++ List.replicate (caretCount span column shown.length) '^'
    String.ofList shown ++ "\n" ++ String.ofList carets ++ "\n" ++ d.message

end SignalLab
