import Mathlib.Data.List.Perm.Basic
import SignalLab.Proofs.Expr.Nodes
import SignalLab.Proofs.Grammar.Parsing

/-!
# Nothing is lost between tokens and expressions

A node of an expression has tokens of its own: a number that of its literal, a name or an application
that of its name, and a binding its name and the three words around it. Only parentheses and pipes
belong to no node. An accepted list of tokens is, but for these and for their order, made of the tokens
that the nodes have (`Grammar.Expression.content_perm`). So the values and the names of the nodes are
those of the tokens, each as often (`Expr.ofTokens_conserves`).

Only pipes change the order: what stands to the left of one comes behind the name to its right.
-/

namespace SignalLab

/-! ## What tokens and nodes hold -/

namespace TokenKind

/-- The value of a literal. -/
def value? : TokenKind → Option Float
  | .literal value => some value
  | _ => none

/-- The name of a reference. -/
def name? : TokenKind → Option String
  | .reference name => some name
  | _ => none

/-- Whether a token belongs to a node; parentheses and pipes only arrange them. -/
def isContent : TokenKind → Bool
  | .opening | .closing | .pipe => false
  | _ => true

theorem forall_arranging {P : TokenKind → Prop} (opening : P .opening) (closing : P .closing)
    (pipe : P .pipe) (k : TokenKind) (hk : k.isContent = false) : P k := by
  cases k with
  | opening => exact opening
  | closing => exact closing
  | pipe => exact pipe
  | _ => cases hk

/-- The tokens that belong to nodes. -/
def contents (kinds : List TokenKind) : List TokenKind := kinds.filter isContent

theorem contents_append (ks ls : List TokenKind) : contents (ks ++ ls) = contents ks ++ contents ls :=
  List.filter_append ks ls

theorem contents_cons {k : TokenKind} (h : k.isContent = true) (ks : List TokenKind) :
    contents (k :: ks) = k :: contents ks :=
  List.filter_cons_of_pos h

theorem contents_cons_arranging {k : TokenKind} (h : k.isContent = false) (ks : List TokenKind) :
    contents (k :: ks) = contents ks :=
  List.filter_cons_of_neg (ne_true_of_eq_false h)

/-- What is read off tokens that belong to nodes is not changed by leaving out the others. -/
theorem filterMap_contents {α : Type} {g : TokenKind → Option α}
    (h : ∀ k, isContent k = false → g k = none) (ks : List TokenKind) :
    (contents ks).filterMap g = ks.filterMap g := by
  rw [contents, List.filterMap_filter]
  refine List.filterMap_congr fun k _ => ?_
  cases hk : k.isContent
  · exact (h k hk).symm
  · rfl

theorem countP_contents {p : TokenKind → Bool} (h : ∀ k, isContent k = false → p k = false)
    (ks : List TokenKind) : (contents ks).countP p = ks.countP p := by
  rw [contents, List.countP_filter]
  refine List.countP_congr fun k _ => ?_
  cases hk : k.isContent
  · simp [h k hk]
  · simp

end TokenKind

open TokenKind (contents contents_append contents_cons contents_cons_arranging)

namespace Expr

/-- The value of a number. -/
def value? : Expr → Option Float
  | .literal _ value => some value
  | _ => none

/-- The name that a node uses or binds. -/
def name? : Expr → Option String
  | .literal .. => none
  | .reference _ name | .application _ name _ | .binding _ name _ _ => some name

/-- Whether a node is a binding. -/
def isBinding : Expr → Bool
  | .binding .. => true
  | _ => false

/-- The tokens of a node itself, without those of the nodes below it. -/
def ownTokens : Expr → List TokenKind
  | .literal _ value => [.literal value]
  | .reference _ name | .application _ name _ => [.reference name]
  | .binding _ name _ _ => [.letWord, .reference name, .equals, .inWord]

/-- The tokens of the nodes of an expression. -/
def content (e : Expr) : List TokenKind := e.nodes.flatMap ownTokens

/-- The tokens of the nodes of several expressions. -/
def contentAll (es : List Expr) : List TokenKind := (nodesAll es).flatMap ownTokens

theorem content_literal (span : Span) (value : Float) :
    (literal span value).content = [.literal value] := by
  rw [content, nodes, List.flatMap_singleton, ownTokens]

theorem content_reference (span : Span) (name : String) :
    (reference span name).content = [.reference name] := by
  rw [content, nodes, List.flatMap_singleton, ownTokens]

theorem content_application (span : Span) (name : String) (arguments : List Expr) :
    (application span name arguments).content = .reference name :: contentAll arguments := by
  rw [content, nodes, List.flatMap_cons, ownTokens]
  rfl

theorem content_binding (span : Span) (name : String) (value body : Expr) :
    (binding span name value body).content =
      .letWord :: .reference name :: .equals :: .inWord :: (value.content ++ body.content) := by
  rw [content, nodes, List.flatMap_cons, List.flatMap_append, ownTokens]
  rfl

theorem contentAll_nil : contentAll [] = [] := by
  rw [contentAll, nodesAll, List.flatMap_nil]

theorem contentAll_cons (e : Expr) (es : List Expr) :
    contentAll (e :: es) = e.content ++ contentAll es := by
  rw [contentAll, nodesAll, List.flatMap_append]
  rfl

/-! ## What parentheses, applications and pipes do -/

theorem content_withSpan (span : Span) (e : Expr) : (e.withSpan span).content = e.content := by
  cases e with
  | literal => rw [withSpan, content_literal, content_literal]
  | reference => rw [withSpan, content_reference, content_reference]
  | application => rw [withSpan, content_application, content_application]
  | binding => rw [withSpan, content_binding, content_binding]

/-- An application has the tokens of its head, which becomes its name, and of its arguments. -/
theorem content_applied (span : Span) (name : String) (es : List Expr) :
    (Parser.applied (.reference span name) name es).content =
      (reference span name).content ++ contentAll es := by
  rw [content_reference, List.singleton_append, Parser.applied]
  split
  · next hlast =>
    rw [List.getLast?_eq_none_iff.mp hlast, content_reference, contentAll_nil]
  · rw [content_application]

/-- A pipe takes its right side apart and puts it together again around its left side. -/
theorem content_pipeInto {pipe : Span} {left right joined : Expr}
    (h : Parser.pipeInto pipe left right = .ok joined) :
    joined.content.Perm (left.content ++ right.content) := by
  cases right with
  | reference span name =>
    cases h
    rw [content_application, content_reference, contentAll_cons, contentAll_nil]
    exact List.perm_middle.symm
  | application span name arguments =>
    cases h
    rw [content_application, content_application, contentAll_cons]
    exact List.perm_middle.symm
  | _ => simp [Parser.pipeInto] at h

end Expr

/-! ## Along a derivation -/

namespace Grammar

open SignalLab.Expr (content contentAll)

mutual

/-- **The nodes of what a derivation builds have the tokens that it writes**, but for parentheses and
pipes. -/
theorem Expression.content_perm : ∀ (d : Expression) {us : List Token} {e : Expr},
    d.Writes us e → e.content.Perm (contents (Token.kinds us))
  | .binding name value body, us, e, h => by
    rw [Expression.Writes] at h
    obtain ⟨keyword, atName, atEquals, atIn, vs, ws, x, y, rfl, hvalue, hbody, rfl⟩ := h
    have hx := value.content_perm hvalue
    have hy := body.content_perm hbody
    rw [Token.kinds_cons, Token.kinds_cons, Token.kinds_cons, Token.kinds_append, Token.kinds_cons,
      contents_cons rfl, contents_cons rfl, contents_cons rfl, contents_append, contents_cons rfl,
      Expr.content_binding]
    -- the second word of the binding stands between its parts
    refine (((List.Perm.cons _ (hx.append hy)).trans ?_).cons _ |>.cons _ |>.cons _)
    exact List.perm_middle.symm
  | .pipeline p, us, e, h => by
    rw [Expression.Writes] at h
    exact p.content_perm h

theorem Pipeline.content_perm : ∀ (d : Pipeline) {us : List Token} {e : Expr},
    d.Writes us e → e.content.Perm (contents (Token.kinds us))
  | .application a, us, e, h => by
    rw [Pipeline.Writes] at h
    exact a.content_perm h
  | .pipe left right, us, e, h => by
    rw [Pipeline.Writes] at h
    obtain ⟨span, vs, ws, x, y, rfl, hleft, hright, hjoined⟩ := h
    have hx := left.content_perm hleft
    have hy := right.content_perm hright
    rw [Token.kinds_append, Token.kinds_cons, contents_append, contents_cons_arranging rfl]
    exact (Expr.content_pipeInto hjoined).trans (hx.append hy)

theorem Application.content_perm : ∀ (d : Application) {us : List Token} {e : Expr},
    d.Writes us e → e.content.Perm (contents (Token.kinds us))
  | .atom a, us, e, h => by
    rw [Application.Writes] at h
    exact a.content_perm h
  | .apply head arguments, us, e, h => by
    rw [Application.Writes] at h
    obtain ⟨span, name, vs, ws, es, rfl, hhead, harguments, rfl⟩ := h
    have hx := head.content_perm hhead
    have hes := arguments.content_perm harguments
    rw [Token.kinds_append, contents_append, Expr.content_applied]
    exact hx.append hes

theorem Arguments.content_perm : ∀ (d : Arguments) {us : List Token} {es : List Expr},
    d.Writes us es → (contentAll es).Perm (contents (Token.kinds us))
  | .one a, us, es, h => by
    rw [Arguments.Writes] at h
    obtain ⟨e, he, rfl⟩ := h
    rw [Expr.contentAll_cons, Expr.contentAll_nil, List.append_nil]
    exact a.content_perm he
  | .more a rest, us, es, h => by
    rw [Arguments.Writes] at h
    obtain ⟨vs, ws, e, es', rfl, he, hrest, rfl⟩ := h
    have hx := a.content_perm he
    have hes := rest.content_perm hrest
    rw [Token.kinds_append, contents_append, Expr.contentAll_cons]
    exact hx.append hes

theorem Atom.content_perm : ∀ (d : Atom) {us : List Token} {e : Expr},
    d.Writes us e → e.content.Perm (contents (Token.kinds us))
  | .literal value, us, e, h => by
    rw [Atom.Writes] at h
    obtain ⟨span, rfl, rfl⟩ := h
    rw [Expr.content_literal]
    exact .refl _
  | .reference name, us, e, h => by
    rw [Atom.Writes] at h
    obtain ⟨span, rfl, rfl⟩ := h
    rw [Expr.content_reference]
    exact .refl _
  | .group d, us, e, h => by
    rw [Atom.Writes] at h
    obtain ⟨first, last, vs, inner, rfl, hinner, rfl⟩ := h
    have hcontent := d.content_perm hinner
    rw [Expr.content_withSpan, Token.kinds_cons, Token.kinds_append, contents_cons_arranging rfl,
      contents_append]
    exact hcontent.trans (.of_eq (List.append_nil _).symm)

end

end Grammar

/-! ## Whole programs -/

namespace Expr

theorem content_perm_of_ofTokens {ts : List Token} {e : Expr} (h : Expr.ofTokens ts = .ok e) :
    e.content.Perm (contents (Token.kinds (Parser.beforeEof ts))) := by
  obtain ⟨d, us, hus, hwrites⟩ := Parser.expression_writes (Parser.ofTokens_eq_ok.mp h)
  rw [hus, List.append_nil]
  exact d.content_perm hwrites

/-- What is read off each node is what is read off each token, if a node and its tokens agree on it
and parentheses and pipes hold nothing of it. -/
theorem filterMap_nodes_perm {α : Type} {f : Expr → Option α} {g : TokenKind → Option α}
    (hown : ∀ n, (ownTokens n).filterMap g = (f n).toList)
    (harranging : ∀ k, k.isContent = false → g k = none) {ts : List Token} {e : Expr}
    (h : Expr.ofTokens ts = .ok e) :
    (e.nodes.filterMap f).Perm ((Token.kinds (Parser.beforeEof ts)).filterMap g) := by
  have hnodes : e.content.filterMap g = e.nodes.filterMap f := by
    rw [content, List.filterMap_flatMap, List.filterMap_eq_flatMap_toList f]
    exact List.flatMap_congr fun n _ => hown n
  have hkinds := (content_perm_of_ofTokens h).filterMap g
  rwa [hnodes, TokenKind.filterMap_contents harranging] at hkinds

/-- There are as many nodes of a kind as tokens of a kind, if each such node has one such token, no
other node has any, and neither parentheses nor pipes are such tokens. -/
theorem countP_nodes {q : Expr → Bool} {p : TokenKind → Bool}
    (hown : ∀ n, (ownTokens n).countP p = if q n then 1 else 0)
    (harranging : ∀ k, k.isContent = false → p k = false) {ts : List Token} {e : Expr}
    (h : Expr.ofTokens ts = .ok e) :
    e.nodes.countP q = (Token.kinds (Parser.beforeEof ts)).countP p := by
  have hnodes : ∀ ns : List Expr, (ns.flatMap ownTokens).countP p = ns.countP q := by
    intro ns
    induction ns with
    | nil => rfl
    | cons n ns ih =>
      rw [List.flatMap_cons, List.countP_append, List.countP_cons, ih, hown, Nat.add_comm]
  have hkinds := (content_perm_of_ofTokens h).countP_eq p
  rwa [content, hnodes, TokenKind.countP_contents harranging] at hkinds

/-- **Parsing conserves tokens.** The values of the nodes are those of the literals before the end of
the text, and the names that they use and bind are those of the references, each as often as it stands
there. There is a binding for each word that begins one, and a node for each literal and reference. -/
theorem ofTokens_conserves {ts : List Token} {e : Expr} (h : Expr.ofTokens ts = .ok e) :
    (e.nodes.filterMap value?).Perm
        ((Token.kinds (Parser.beforeEof ts)).filterMap TokenKind.value?) ∧
      (e.nodes.filterMap name?).Perm
        ((Token.kinds (Parser.beforeEof ts)).filterMap TokenKind.name?) ∧
      e.nodes.countP isBinding = (Token.kinds (Parser.beforeEof ts)).count .letWord ∧
      e.size = (Token.kinds (Parser.beforeEof ts)).countP fun k =>
        k.value?.isSome || k.name?.isSome := by
  refine ⟨?_, ?_, ?_, ?_⟩
  · exact filterMap_nodes_perm (fun n => by cases n <;> rfl)
      (TokenKind.forall_arranging rfl rfl rfl) h
  · exact filterMap_nodes_perm (fun n => by cases n <;> rfl)
      (TokenKind.forall_arranging rfl rfl rfl) h
  · exact countP_nodes (fun n => by cases n <;> rfl) (TokenKind.forall_arranging rfl rfl rfl) h
  · rw [← length_nodes, ← List.countP_true]
    exact countP_nodes (fun n => by cases n <;> rfl) (TokenKind.forall_arranging rfl rfl rfl) h

theorem ofTokens_conserves_pipedGroup :
    ∃ e, Expr.ofTokens [⟨.letWord, ⟨0, 3⟩⟩, ⟨.reference "x", ⟨4, 5⟩⟩, ⟨.equals, ⟨6, 7⟩⟩,
        ⟨.literal 2, ⟨8, 9⟩⟩, ⟨.inWord, ⟨10, 12⟩⟩, ⟨.opening, ⟨13, 14⟩⟩, ⟨.reference "x", ⟨14, 15⟩⟩,
        ⟨.closing, ⟨15, 16⟩⟩, ⟨.pipe, ⟨17, 19⟩⟩, ⟨.reference "mean", ⟨20, 24⟩⟩,
        ⟨.reference "x", ⟨25, 26⟩⟩, ⟨.eof, ⟨26, 26⟩⟩, ⟨.literal 3, ⟨27, 28⟩⟩] = .ok e ∧
      (e.nodes.filterMap value?).Perm [2] ∧
      (e.nodes.filterMap name?).Perm ["x", "x", "mean", "x"] ∧
      e.nodes.countP isBinding = 1 ∧ e.size = 5 := by
  refine ⟨.binding ⟨0, 26⟩ "x" (.literal ⟨8, 9⟩ 2) (.application ⟨13, 26⟩ "mean"
    [.reference ⟨13, 16⟩ "x", .reference ⟨25, 26⟩ "x"]), ?parse, ofTokens_conserves ?parse⟩
  cbv

end Expr

end SignalLab
