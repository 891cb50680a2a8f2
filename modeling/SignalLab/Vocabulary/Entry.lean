import SignalLab.Diagnostic
import SignalLab.Series
import SignalLab.Vocabulary.Category

/-!
# What a name of the vocabulary stands for

A name is either a reference, which stands for a signal, or a function, which makes a signal from one,
two or three others. How many arguments a function takes follows from what it is.
-/

namespace SignalLab

/-! ## Operations on signals -/

/-- A way to make a signal from others. -/
inductive Operation
  | unary (f : Signal → Signal)
  | binary (f : Signal → Signal → Signal)
  | ternary (f : Signal → Signal → Signal → Signal)

namespace Operation

/-- How many arguments an operation takes. -/
def arity : Operation → Nat
  | .unary _ => 1
  | .binary _ => 2
  | .ternary _ => 3

/-- The signal that an operation makes, if it gets as many arguments as it takes. -/
def result? : Operation → List Signal → Option Signal
  | .unary f, [x] => some (f x)
  | .binary f, [x, y] => some (f x y)
  | .ternary f, [x, y, z] => some (f x y z)
  | _, _ => none

/-- The operation that computes every number from the number at the same offset. -/
def pointwise (f : Float → Float) : Operation := .unary fun x t => f (x t)

/-- The operation that computes every number from the two numbers at the same offset. -/
def pointwise2 (f : Float → Float → Float) : Operation := .binary fun x y t => f (x t) (y t)

/-- The operation that computes every number from the three numbers at the same offset. -/
def pointwise3 (f : Float → Float → Float → Float) : Operation :=
  .ternary fun x y z t => f (x t) (y t) (z t)

/-- An operation has a result exactly for as many arguments as it takes. -/
theorem result?_isSome (op : Operation) (xs : List Signal) :
    (op.result? xs).isSome ↔ xs.length = op.arity := by
  match op, xs with
  | .unary _, [] | .unary _, [_] | .unary _, _ :: _ :: _ => simp [result?, arity]
  | .binary _, [] | .binary _, [_] | .binary _, [_, _] | .binary _, _ :: _ :: _ :: _ =>
    simp [result?, arity]
  | .ternary _, [] | .ternary _, [_] | .ternary _, [_, _] | .ternary _, [_, _, _]
  | .ternary _, _ :: _ :: _ :: _ :: _ => simp [result?, arity]

end Operation

/-! ## Entries -/

/-- What a name stands for. -/
inductive Meaning
  /-- The name is a signal. -/
  | reference (value : Signal)
  /-- The name makes a signal from arguments, which have names of their own in the documentation. -/
  | function (operation : Operation) (parameters : List String)

/-- An entry of a vocabulary. -/
structure Entry where
  meaning : Meaning
  doc : String
  category : Category

namespace Entry

/-- The role of an entry. -/
def role (e : Entry) : Role :=
  match e.meaning with
  | .reference _ => .reference
  | .function .. => .function

/-- How many arguments an entry takes; a reference takes none. -/
def arity (e : Entry) : Nat :=
  match e.meaning with
  | .reference _ => 0
  | .function operation _ => operation.arity

/-- The names of an entry's arguments; a reference has none. -/
def parameters (e : Entry) : List String :=
  match e.meaning with
  | .reference _ => []
  | .function _ parameters => parameters

/-- Names for arguments that have no better ones. -/
def plainParameters (arity : Nat) : List String := ["x", "y", "z"].take arity

/-- An entry for an operation whose arguments have no names of their own. -/
def ofOperation (category : Category) (operation : Operation) (doc : String) : Entry :=
  ⟨.function operation (plainParameters operation.arity), doc, category⟩

/-- An entry for a signal. -/
def ofSignal (category : Category) (value : Signal) (doc : String) : Entry :=
  ⟨.reference value, doc, category⟩

/-- The same entry with names for its arguments. -/
def withParameters (e : Entry) (names : List String) : Entry :=
  match e.meaning with
  | .reference _ => e
  | .function operation _ => { e with meaning := .function operation names }

/-- A reference with another signal; a function stays as it is. -/
def rebind (e : Entry) (value : Signal) : Entry :=
  match e.meaning with
  | .reference _ => { e with meaning := .reference value }
  | .function .. => e

end Entry

end SignalLab
