import SignalLab.Span

/-!
# Expressions

A program is one expression: a number, a name, a name applied to arguments, or the binding of a name
to a value inside a body. Every node carries the span of source text it stands for. Parentheses and
pipes leave no nodes of their own behind.
-/

namespace SignalLab

/-- An expression with the places of its parts. -/
inductive Expr
  /-- A number. -/
  | literal (span : Span) (value : Float)
  /-- A name. -/
  | reference (span : Span) (name : String)
  /-- A name applied to arguments. -/
  | application (span : Span) (name : String) (arguments : List Expr)
  /-- A name bound to a value within a body. -/
  | binding (span : Span) (name : String) (value body : Expr)
  deriving Inhabited

namespace Expr

/-! ## The root of an expression -/

/-- The place of an expression. -/
def span : Expr → Span
  | .literal span _ | .reference span _ | .application span _ _ | .binding span _ _ _ => span

/-- The same expression at another place; the places of its parts stay as they are. -/
def withSpan (span : Span) : Expr → Expr
  | .literal _ value => .literal span value
  | .reference _ name => .reference span name
  | .application _ name arguments => .application span name arguments
  | .binding _ name value body => .binding span name value body

/-- The name of a kind of expression in messages. -/
def describe : Expr → String
  | .literal .. => "literal"
  | .reference .. => "reference"
  | .application .. => "application"
  | .binding .. => "let"

/-! ## Whole expressions -/

mutual

/-- The number of nodes of an expression. -/
def size : Expr → Nat
  | .literal .. | .reference .. => 1
  | .application _ _ arguments => 1 + sizeAll arguments
  | .binding _ _ value body => 1 + value.size + body.size

/-- The number of nodes of several expressions. -/
def sizeAll : List Expr → Nat
  | [] => 0
  | e :: rest => e.size + sizeAll rest

end

mutual

/-- Applies a function to every span of an expression. -/
def mapSpan (f : Span → Span) : Expr → Expr
  | .literal span value => .literal (f span) value
  | .reference span name => .reference (f span) name
  | .application span name arguments => .application (f span) name (mapSpanAll f arguments)
  | .binding span name value body => .binding (f span) name (value.mapSpan f) (body.mapSpan f)

/-- Applies a function to every span of several expressions. -/
def mapSpanAll (f : Span → Span) : List Expr → List Expr
  | [] => []
  | e :: rest => e.mapSpan f :: mapSpanAll f rest

end

end Expr

end SignalLab
