import SignalLab.Program
import SignalLab.Vocabulary

/-!
# The signal of a program

One pass from the front makes a signal for every instruction: a literal is the same everywhere, a
reference is what the vocabulary says, and an application hands the signals of its operands to the
operation of its name. No number is computed in this; numbers are computed when a signal is read.

A program that was not made with this vocabulary can be at fault. Operands that do not precede their
instruction are found before anything is evaluated. After that the first instruction at fault decides,
and within it the name comes before its role and the role before the number of operands.
-/

namespace SignalLab

namespace Program

/-- The signals of some of the instructions before the present one, by index. -/
def operandSignals (index : Nat) (signals : Array Signal) :
    List Nat → Except ProgramFault (List Signal)
  | [] => .ok []
  | operand :: rest =>
    match signals[operand]? with
    | none => .error (.forwardOperand index operand)
    | some signal => (operandSignals index signals rest).map (signal :: ·)

/-- The signal of the instruction that follows those with the given signals. -/
def nextSignal (v : Vocabulary) (signals : Array Signal) : Instruction → Except ProgramFault Signal
  | .literal value => .ok (Series.constant value)
  | .reference name =>
    match v.meaning? name with
    | none => .error (.unknownName signals.size name)
    | some (.function ..) => .error (.wrongRole signals.size name .reference)
    | some (.reference value) => .ok value
  | .apply name operands =>
    match v.meaning? name with
    | none => .error (.unknownName signals.size name)
    | some (.reference _) => .error (.wrongRole signals.size name .function)
    | some (.function operation _) =>
      match operandSignals signals.size signals operands with
      | .error fault => .error fault
      | .ok xs =>
        match operation.result? xs with
        | none => .error (.operandCount signals.size name operation.arity operands.length)
        | some signal => .ok signal

/-- The signals of all instructions, behind those of the instructions before. -/
def signalsFrom (v : Vocabulary) (signals : Array Signal) :
    List Instruction → Except ProgramFault (Array Signal)
  | [] => .ok signals
  | i :: rest =>
    match nextSignal v signals i with
    | .error fault => .error fault
    | .ok signal => signalsFrom v (signals.push signal) rest

/-- The signal of a program. -/
def eval (p : Program) (v : Vocabulary) : Except ProgramFault Signal :=
  match p.fault? with
  | some fault => .error fault
  | none =>
    match signalsFrom v #[] p.instructions.toList with
    | .error fault => .error fault
    | .ok signals =>
      match signals.back? with
      | none => .error .empty
      | some signal => .ok signal

end Program

end SignalLab
