import Mathlib.Data.List.Pairwise
import SignalLab.Proofs.Expr.Nodes

/-!
# Paths to the nodes of an expression

The same node may occur at several places of an expression. An occurrence is told by its path from the
root: the number of the part to enter at each node on the way.

The occurrences that stand for a number or an application are listed by `postorder`, parts before
wholes and parts from left to right. The list is the only one in that order that has each of them
(`inPostorder_postorder`, `InPostorder.unique`).
-/

namespace SignalLab.Expr

/-- The way from the root of an expression to a node, as the numbers of the parts to enter. -/
abbrev Path := List ℕ

/-- The node at the end of a path. -/
def at? : Expr → Path → Option Expr
  | e, [] => some e
  | e, i :: path => e.children[i]?.bind (·.at? path)

/-- A node comes before another one in postorder: it lies below the other one, or further left. -/
inductive Before : Path → Path → Prop
  | under (i : ℕ) (path : Path) : Before (i :: path) []
  | left {i j : ℕ} (h : i < j) (path path' : Path) : Before (i :: path) (j :: path')
  | inside (i : ℕ) {path path' : Path} (h : Before path path') : Before (i :: path) (i :: path')

/-- Whether a node is a number or an application. The others are names for what is elsewhere. -/
def isComputed (e : Expr) : Bool := e.isLiteral || e.isApplication

/-- The paths to all numbers and applications, in postorder. -/
structure InPostorder (e : Expr) (paths : List Path) : Prop where
  mem_iff : ∀ path, path ∈ paths ↔ ∃ node, e.at? path = some node ∧ node.isComputed = true
  pairwise : paths.Pairwise Before

mutual

/-- The paths to the numbers and applications of an expression, one after the other. -/
def postorder : Expr → List Path
  | .literal .. => [[]]
  | .reference .. => []
  | .application _ _ arguments => postorderAll 0 arguments ++ [[]]
  | .binding _ _ value body => value.postorder.map (0 :: ·) ++ body.postorder.map (1 :: ·)

/-- The same for several expressions, which are the parts of a node from the given number on. -/
def postorderAll (i : ℕ) : List Expr → List Path
  | [] => []
  | e :: rest => e.postorder.map (i :: ·) ++ postorderAll (i + 1) rest

end

/-! ## Paths -/

@[simp] theorem at?_nil (e : Expr) : e.at? [] = some e := by rw [at?]

/-- A path leads on from where it has led to. -/
theorem at?_append {e node : Expr} {path : Path} (h : e.at? path = some node) (path' : Path) :
    e.at? (path ++ path') = node.at? path' := by
  induction path generalizing e with
  | nil =>
    rw [at?_nil, Option.some.injEq] at h
    rw [List.nil_append, h]
  | cons i path ih =>
    rw [at?, Option.bind_eq_some_iff] at h
    obtain ⟨part, hpart, hnode⟩ := h
    rw [List.cons_append, at?, hpart, Option.bind_some, ih hnode]

theorem at?_concat {e node : Expr} {path : Path} (h : e.at? path = some node) (i : ℕ) :
    e.at? (path ++ [i]) = node.children[i]? := by
  rw [at?_append h, at?]
  rcases node.children[i]? with _ | part <;> simp

/-! ## The order -/

theorem Before.irrefl {path : Path} : ¬ Before path path := by
  induction path with
  | nil => nofun
  | cons i path ih =>
    intro h
    cases h with
    | left h => exact Nat.lt_irrefl i h
    | inside _ h => exact ih h

theorem Before.asymm {path path' : Path} (h : Before path path') : ¬ Before path' path := by
  induction h with
  | under => nofun
  | left h =>
    intro h'
    cases h' with
    | left h' => exact Nat.lt_asymm h h'
    | inside => exact Nat.lt_irrefl _ h
  | inside i h ih =>
    intro h'
    cases h' with
    | left h' => exact Nat.lt_irrefl i h'
    | inside _ h' => exact ih h'

theorem InPostorder.nodup {e : Expr} {paths : List Path} (h : InPostorder e paths) :
    paths.Nodup := by
  refine h.pairwise.imp fun hbefore => ?_
  rintro rfl
  exact Before.irrefl hbefore

/-- There is one list in postorder only. -/
theorem InPostorder.unique {e : Expr} {paths paths' : List Path} (h : InPostorder e paths)
    (h' : InPostorder e paths') : paths = paths' := by
  have hperm : paths.Perm paths' := (List.perm_ext_iff_of_nodup h.nodup h'.nodup).mpr fun path =>
    (h.mem_iff path).trans (h'.mem_iff path).symm
  exact hperm.eq_of_pairwise (fun _ _ _ _ hbefore hbehind => absurd hbehind hbefore.asymm)
    h.pairwise h'.pairwise

/-! ## All numbers and applications in this order -/

theorem mem_postorderAll {i : ℕ} {es : List Expr} {path : Path} :
    path ∈ postorderAll i es ↔
      ∃ k part rest, es[k]? = some part ∧ rest ∈ part.postorder ∧ path = (i + k) :: rest := by
  induction es generalizing i with
  | nil =>
    rw [postorderAll]
    simp
  | cons e es ih =>
    rw [postorderAll, List.mem_append, List.mem_map, ih]
    constructor
    · rintro (⟨rest, hrest, rfl⟩ | ⟨k, part, rest, hpart, hrest, rfl⟩)
      · exact ⟨0, e, rest, rfl, hrest, rfl⟩
      · refine ⟨k + 1, part, rest, hpart, hrest, ?_⟩
        rw [Nat.add_assoc, Nat.add_comm 1]
    · rintro ⟨_ | k, part, rest, hpart, hrest, rfl⟩
      · rw [List.getElem?_cons_zero, Option.some.injEq] at hpart
        exact .inl ⟨rest, hpart ▸ hrest, rfl⟩
      · refine .inr ⟨k, part, rest, hpart, hrest, ?_⟩
        rw [Nat.add_assoc, Nat.add_comm 1]

theorem cons_mem_postorder {e : Expr} {i : ℕ} {path : Path} :
    i :: path ∈ e.postorder ↔ ∃ part, e.children[i]? = some part ∧ path ∈ part.postorder := by
  cases e with
  | literal | reference =>
    rw [postorder]
    simp [children]
  | application span name arguments =>
    rw [postorder, List.mem_append, mem_postorderAll, children]
    simp
  | binding span name value body =>
    rw [postorder, children]
    rcases i with _ | _ | i <;> simp

theorem nil_mem_postorder {e : Expr} : [] ∈ e.postorder ↔ e.isComputed = true := by
  cases e with
  | literal | reference | binding =>
    rw [postorder]
    simp [isComputed, isLiteral, isApplication]
  | application span name arguments =>
    rw [postorder]
    simp [isComputed, isLiteral, isApplication]

theorem mem_postorder {e : Expr} {path : Path} :
    path ∈ e.postorder ↔ ∃ node, e.at? path = some node ∧ node.isComputed = true := by
  induction path generalizing e with
  | nil => simp [nil_mem_postorder]
  | cons i path ih =>
    rw [cons_mem_postorder, at?]
    simp only [ih, Option.bind_eq_some_iff]
    grind

mutual

theorem pairwise_postorder : ∀ e : Expr, e.postorder.Pairwise Before
  | .literal .. => by
    rw [postorder]
    exact List.pairwise_singleton _ _
  | .reference .. => by
    rw [postorder]
    exact .nil
  | .application span name arguments => by
    rw [postorder, List.pairwise_append]
    refine ⟨pairwise_postorderAll arguments, List.pairwise_singleton _ _, ?_⟩
    intro path hpath root hroot
    obtain ⟨k, part, rest, -, -, rfl⟩ := mem_postorderAll.mp hpath
    rw [List.mem_singleton.mp hroot]
    exact .under _ _
  | .binding span name value body => by
    rw [postorder, List.pairwise_append, List.pairwise_map, List.pairwise_map]
    refine ⟨(pairwise_postorder value).imp (.inside 0), (pairwise_postorder body).imp (.inside 1), ?_⟩
    simp only [List.mem_map]
    rintro _ ⟨path, -, rfl⟩ _ ⟨path', -, rfl⟩
    exact .left Nat.zero_lt_one _ _

theorem pairwise_postorderAll : ∀ (es : List Expr) {i : ℕ}, (postorderAll i es).Pairwise Before
  | [], i => by
    rw [postorderAll]
    exact .nil
  | e :: es, i => by
    rw [postorderAll, List.pairwise_append, List.pairwise_map]
    refine ⟨(pairwise_postorder e).imp (.inside i), pairwise_postorderAll es, ?_⟩
    intro path hpath path' hpath'
    obtain ⟨rest, -, rfl⟩ := List.mem_map.mp hpath
    obtain ⟨k, part, rest', -, -, rfl⟩ := mem_postorderAll.mp hpath'
    exact .left (by omega) _ _

end

/-- **The list of paths is in postorder.** -/
theorem inPostorder_postorder (e : Expr) : InPostorder e e.postorder :=
  ⟨fun _ => mem_postorder, pairwise_postorder e⟩

/-! ## How many there are -/

mutual

/-- There is one path for each node that is a number or an application. -/
theorem length_postorder : ∀ e : Expr,
    e.postorder.length = e.nodes.countP isLiteral + e.nodes.countP isApplication
  | .literal .. | .reference .. => by
    rw [postorder, nodes]
    rfl
  | .application span name arguments => by
    rw [postorder, nodes, List.length_append, length_postorderAll arguments, List.countP_cons,
      List.countP_cons]
    rfl
  | .binding span name value body => by
    rw [postorder, nodes, List.countP_cons_of_neg Bool.false_ne_true,
      List.countP_cons_of_neg Bool.false_ne_true]
    simp only [List.length_append, List.length_map, length_postorder value, length_postorder body,
      List.countP_append]
    omega

theorem length_postorderAll : ∀ (es : List Expr) {i : ℕ}, (postorderAll i es).length =
    (nodesAll es).countP isLiteral + (nodesAll es).countP isApplication
  | [], i => by
    rw [postorderAll, nodesAll]
    rfl
  | e :: es, i => by
    rw [postorderAll, nodesAll]
    simp only [List.length_append, List.length_map, length_postorder e, length_postorderAll es,
      List.countP_append]
    omega

end

end SignalLab.Expr
