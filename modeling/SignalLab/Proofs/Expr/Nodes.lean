import Mathlib.Data.List.Count
import SignalLab.Expr

/-!
# The nodes of an expression

An expression is made of nodes, each with the expressions right below it. Its size is the number of
them.
-/

namespace SignalLab.Expr

/-- The parts of an expression. -/
def children : Expr → List Expr
  | .literal .. | .reference .. => []
  | .application _ _ arguments => arguments
  | .binding _ _ value body => [value, body]

mutual

/-- The nodes of an expression. -/
def nodes : Expr → List Expr
  | .literal span value => [.literal span value]
  | .reference span name => [.reference span name]
  | .application span name arguments => .application span name arguments :: nodesAll arguments
  | .binding span name value body => .binding span name value body :: (value.nodes ++ body.nodes)

/-- The nodes of several expressions. -/
def nodesAll : List Expr → List Expr
  | [] => []
  | e :: rest => e.nodes ++ nodesAll rest

end

/-- Whether a node is a number. -/
def isLiteral : Expr → Bool
  | .literal .. => true
  | _ => false

/-- Whether a node is an application. -/
def isApplication : Expr → Bool
  | .application .. => true
  | _ => false

mutual

/-- The size of an expression is the number of its nodes. -/
theorem length_nodes : ∀ e : Expr, e.nodes.length = e.size
  | .literal .. | .reference .. => by rw [nodes, size, List.length_singleton]
  | .application _ _ arguments => by
    rw [nodes, size, List.length_cons, length_nodesAll arguments, Nat.add_comm]
  | .binding _ _ value body => by
    rw [nodes, size, List.length_cons, List.length_append, length_nodes value, length_nodes body]
    omega

theorem length_nodesAll : ∀ es : List Expr, (nodesAll es).length = sizeAll es
  | [] => by rw [nodesAll, sizeAll, List.length_nil]
  | e :: rest => by
    rw [nodesAll, sizeAll, List.length_append, length_nodes e, length_nodesAll rest]

end

end SignalLab.Expr
