import SignalLab.Expr
import SignalLab.Proofs.Vocabulary.Binding

/-!
# The meaning of an expression

`Expr.meaning?` says by recursion over an expression which signal it stands for, without
instructions and indices. A name means the value of the innermost binding around it and otherwise
what the vocabulary has under it; the name of an application means the operation that the vocabulary
has under it, whatever is bound around it.

An expression has no meaning if a name in it has none, or if an operation is applied to a number of
arguments it does not take.
-/

namespace SignalLab

/-- The signals of the names that are bound around an expression, the innermost first. -/
abbrev Environment := List (String × Signal)

/-- What a name means inside bindings. -/
def Environment.read (w : Vocabulary) (env : Environment) (name : String) : Option Signal :=
  (env.lookup name).or (w.signal? name)

namespace Expr

mutual

/-- The signal that an expression stands for inside bindings. -/
def meaning? (w : Vocabulary) (env : Environment) : Expr → Option Signal
  | .literal _ value => some (Series.constant value)
  | .reference _ name => env.read w name
  | .application _ name arguments =>
    match w.operation? name, meanings? w env arguments with
    | some operation, some xs => operation.result? xs
    | _, _ => none
  | .binding _ name value body =>
    match meaning? w env value with
    | some x => meaning? w ((name, x) :: env) body
    | none => none

/-- The signals that several expressions stand for. -/
def meanings? (w : Vocabulary) (env : Environment) : List Expr → Option (List Signal)
  | [] => some []
  | e :: rest =>
    match meaning? w env e, meanings? w env rest with
    | some x, some xs => some (x :: xs)
    | _, _ => none

end

/-- There is one meaning for each expression. -/
theorem length_of_meanings? {w : Vocabulary} {env : Environment} {es : List Expr}
    {xs : List Signal} (h : meanings? w env es = some xs) : xs.length = es.length := by
  induction es generalizing xs with
  | nil =>
    cases h
    rfl
  | cons e rest ih =>
    rw [meanings?] at h
    split at h
    · next x ys _ hys =>
      cases h
      rw [List.length_cons, List.length_cons, ih hys]
    · simp at h

end Expr

/-- A name that is bound means the value bound to it, and no other name changes its meaning. -/
theorem Environment.read_cons (w : Vocabulary) (env : Environment) (name : String) (x : Signal)
    (other : String) :
    read w ((name, x) :: env) other = if other = name then some x else env.read w other := by
  rw [read, lookup_cons_pair]
  by_cases h : other = name
  · rw [if_pos h, if_pos h, Option.some_or]
  · rw [if_neg h, if_neg h, read]

end SignalLab
