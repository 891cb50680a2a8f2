import SignalLab.Diagnostic
import SignalLab.Decimal.Plain

/-!
# Instruction lists

A program is a list of instructions, each of which stands for a signal. An application takes its
operands from earlier instructions by index, so one pass from the front computes all signals. The last
instruction is the result.
-/

namespace SignalLab

/-! ## Instructions -/

/-- An instruction. -/
inductive Instruction
  /-- A number. -/
  | literal (value : Float)
  /-- A name that stands for a signal. -/
  | reference (name : String)
  /-- A function of the signals of other instructions. -/
  | apply (name : String) (operands : List Nat)
  deriving DecidableEq

namespace Instruction

/-- The instructions whose signals an instruction uses. -/
def operands : Instruction → List Nat
  | .apply _ operands => operands
  | _ => []

/-- The text of an instruction. -/
def text : Instruction → String
  | .literal value => "literal " ++ Decimal.plain value
  | .reference name => "reference " ++ name
  | .apply name operands =>
    "apply " ++ name ++ String.join (operands.map fun operand => " %" ++ toString operand)

end Instruction

/-! ## Programs -/

/-- A list of instructions. -/
structure Program where
  instructions : Array Instruction
  deriving DecidableEq

namespace Program

/-- The program without instructions. -/
def empty : Program := ⟨#[]⟩

/-- How many instructions a program has. -/
def size (p : Program) : Nat := p.instructions.size

/-- Appends an instruction; its index is the size of the program before. -/
def push (p : Program) (i : Instruction) : Program := ⟨p.instructions.push i⟩

/-- The index of the instruction that is the result. -/
def result? (p : Program) : Option Nat :=
  if p.size = 0 then none else some (p.size - 1)

/-- The numbered listing of a program, one instruction a line. -/
def listing (p : Program) : String :=
  String.join <| p.instructions.toList.mapIdx fun index i =>
    "%" ++ toString index ++ " = " ++ i.text ++ "\n"

/-! ## Well-formed programs -/

/-- The first operand of the instruction at `index` that does not precede it. -/
def forwardOperand? (index : Nat) (i : Instruction) : Option ProgramFault :=
  (i.operands.find? (index ≤ ·)).map (.forwardOperand index)

/-- The first operand in the list, which begins at `index`, that does not precede its instruction. -/
def firstForward? (index : Nat) : List Instruction → Option ProgramFault
  | [] => none
  | i :: rest => (forwardOperand? index i).or (firstForward? (index + 1) rest)

/-- Why a program is malformed, if it is: it has no instructions, or an operand does not precede the
instruction that uses it. -/
def fault? (p : Program) : Option ProgramFault :=
  if p.size = 0 then some .empty else firstForward? 0 p.instructions.toList

end Program

end SignalLab
