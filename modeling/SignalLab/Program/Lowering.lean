import SignalLab.Expr
import SignalLab.Program
import SignalLab.Vocabulary

/-!
# From expressions to instructions

Lowering resolves every name of an expression and lays its nodes out as instructions, each after the
nodes it is made from.

## Names

The references of the vocabulary are emitted first, one instruction each, and are in scope everywhere.
A binding brings its name into scope within its body and hides what the name meant before. The name of
an application is not looked up in the scope but in the vocabulary, so a binding never hides a
function.

## The result

The result of a program is its last instruction. An expression that is only a name emits nothing of its
own, so unless it happens to name the last instruction, that instruction is emitted once more.
-/

namespace SignalLab

/-- The instruction of each name in scope, the innermost first. -/
abbrev Scope := List (String × Nat)

namespace Program

/-- What lowering adds up to: the program so far and the instruction of the expression. -/
abbrev Lowered := Except Diagnostic (Program × Nat)

/-- Emits an instruction for every reference of a vocabulary and brings it into scope. -/
def emitReferences (names : List String) : Program × Scope :=
  names.foldl (fun (p, scope) name => (p.push (.reference name), (name, p.size) :: scope))
    (empty, [])

/-- What is wrong with applying a name to as many arguments, if anything is. -/
def applicationFault? (v : Vocabulary) (span : Span) (name : String) (got : Nat) :
    Option Diagnostic :=
  match v.find? name with
  | none => some (.reference name span)
  | some entry =>
    if entry.role = .function ∧ got = entry.arity then none
    else some (.application name entry.arity got span)

mutual

/-- Appends the instructions of an expression. -/
def lowerInto (v : Vocabulary) (scope : Scope) (p : Program) : Expr → Lowered
  | .literal _ value => .ok (p.push (.literal value), p.size)
  | .reference span name =>
    match scope.lookup name with
    | none => .error (.reference name span)
    | some index => .ok (p, index)
  | .application span name arguments =>
    match applicationFault? v span name arguments.length with
    | some d => .error d
    | none =>
      match lowerAll v scope p arguments with
      | .error d => .error d
      | .ok (p, operands) => .ok (p.push (.apply name operands), p.size)
  | .binding _ name value body =>
    match lowerInto v scope p value with
    | .error d => .error d
    | .ok (p, index) => lowerInto v ((name, index) :: scope) p body

/-- Appends the instructions of several expressions, one after the other. -/
def lowerAll (v : Vocabulary) (scope : Scope) (p : Program) :
    List Expr → Except Diagnostic (Program × List Nat)
  | [] => .ok (p, [])
  | e :: rest =>
    match lowerInto v scope p e with
    | .error d => .error d
    | .ok (p, index) =>
      match lowerAll v scope p rest with
      | .error d => .error d
      | .ok (p, indices) => .ok (p, index :: indices)

end

/-- Makes an instruction the last one by emitting it once more, unless it is the last one already. -/
def endWith (p : Program) (index : Nat) : Program :=
  if index + 1 = p.size then p
  else
    match p.instructions[index]? with
    | some i => p.push i
    | none => p

/-- The program of an expression. -/
def ofExpr (v : Vocabulary) (e : Expr) : Except Diagnostic Program :=
  let (p, scope) := emitReferences v.references
  match lowerInto v scope p e with
  | .error d => .error d
  | .ok (p, index) => .ok (p.endWith index)

end Program

end SignalLab
