import Mathlib
import SignalLab.Proofs.Expr.Nodes
import SignalLab.Proofs.Grammar.Source

/-!
# The place of every part of a program

Every node of a parsed expression stands for the part of the source text at its span: read alone, this
part gives the node again, except that everything in it is moved to the front
(`Expr.parse_slice_of_mem_nodes`). The parts of a node lie within it, one behind the other.

## Shape of the argument

A node `Stands` on tokens if a derivation writes it with them, its span is what they cover, and its
children stand on groups of them in this order, with gaps between. This is shown along the derivation
of the whole expression. Parentheses widen the tokens of a node and leave those of its children alone.
A pipe builds a node that stands on both its sides: its left side becomes the first child, and its
right side is no part of the result, but the children it had are.
-/

namespace SignalLab

open SignalLab.Token (cover Ordered)

namespace Expr

@[simp] theorem span_withSpan (span : Span) (e : Expr) : (e.withSpan span).span = span := by
  cases e <;> rfl

@[simp] theorem children_withSpan (span : Span) (e : Expr) :
    (e.withSpan span).children = e.children := by
  cases e <;> rfl

/-! ## Tokens that expressions stand on -/

mutual

/-- An expression stands on tokens: a derivation writes it with them, it spans what they cover, and
its children stand on some of them. -/
inductive Stands : List Token → Expr → Prop
  | intro {us : List Token} {e : Expr} (d : Grammar.Expression) (writes : d.Writes us e)
      (span : e.span = cover us) (children : Rows us e.children) : Stands us e

/-- Expressions stand on tokens one behind the other, with gaps before, between and behind them. -/
inductive Rows : List Token → List Expr → Prop
  | nil (us : List Token) : Rows us []
  | cons (gap : List Token) {us rest : List Token} {e : Expr} {es : List Expr}
      (first : Stands us e) (others : Rows rest es) : Rows (gap ++ (us ++ rest)) (e :: es)

end

theorem Stands.span_eq {us : List Token} {e : Expr} (h : Stands us e) : e.span = cover us := by
  cases h with
  | intro d writes span children => exact span

theorem Stands.rows {us : List Token} {e : Expr} (h : Stands us e) : Rows us e.children := by
  cases h with
  | intro d writes span children => exact children

theorem Stands.exists_writes {us : List Token} {e : Expr} (h : Stands us e) :
    ∃ d : Grammar.Expression, d.Writes us e := by
  cases h with
  | intro d writes span children => exact ⟨d, writes⟩

theorem Stands.ne_nil {us : List Token} {e : Expr} (h : Stands us e) : us ≠ [] := by
  obtain ⟨d, hwrites⟩ := h.exists_writes
  exact Grammar.Expression.ne_nil_of_writes hwrites

theorem Rows.behind {us : List Token} {es : List Expr} (h : Rows us es) (before : List Token) :
    Rows (before ++ us) es := by
  cases h with
  | nil => exact .nil _
  | cons gap first others =>
    rw [← List.append_assoc]
    exact .cons (before ++ gap) first others

theorem Rows.before : ∀ {es : List Expr} {us : List Token}, Rows us es → ∀ after : List Token,
    Rows (us ++ after) es
  | [], _, _, _ => .nil _
  | e :: es, _, h, after => by
    cases h with
    | cons gap first others =>
      rw [List.append_assoc, List.append_assoc]
      exact .cons gap first (Rows.before others after)

/-! ## What pipes and applications build -/

theorem span_of_pipeInto {pipe : Span} {left right joined : Expr}
    (h : Parser.pipeInto pipe left right = .ok joined) :
    joined.span = left.span.merge right.span := by
  cases right with
  | reference | application =>
    cases h
    rfl
  | _ => simp [Parser.pipeInto] at h

theorem children_of_pipeInto {pipe : Span} {left right joined : Expr}
    (h : Parser.pipeInto pipe left right = .ok joined) :
    joined.children = left :: right.children := by
  cases right with
  | reference | application =>
    cases h
    rfl
  | _ => simp [Parser.pipeInto] at h

theorem applied_of_getLast? {es : List Expr} {last : Expr} (h : es.getLast? = some last)
    (span : Span) (name : String) :
    Parser.applied (.reference span name) name es = .application (span.merge last.span) name es := by
  rw [Parser.applied, h]
  rfl

end Expr

namespace Grammar

open SignalLab.Expr (Stands Rows)

/-! ## Everything that is written stands -/

theorem Application.stands_of_writes {a : Application} {us : List Token} {e : Expr}
    (h : a.Writes us e) (hspan : e.span = cover us) (hrows : Rows us e.children) : Stands us e := by
  refine .intro (.pipeline (.application a)) ?_ hspan hrows
  rwa [Expression.Writes, Pipeline.Writes]

theorem Atom.stands_of_writes {a : Atom} {us : List Token} {e : Expr} (h : a.Writes us e)
    (hspan : e.span = cover us) (hrows : Rows us e.children) : Stands us e := by
  refine Application.stands_of_writes (a := .atom a) ?_ hspan hrows
  rwa [Application.Writes]

mutual

theorem Expression.stands : ∀ (d : Expression) {us : List Token} {e : Expr}, Ordered us →
    d.Writes us e → Stands us e
  | .binding name value body, us, e, hus, h => by
    have hwrites := h
    rw [Expression.Writes] at h
    obtain ⟨keyword, atName, atEquals, atIn, vs, ws, x, y, hparts, hvalue, hbody, rfl⟩ := h
    -- a name for the tokens between the keyword and the value
    obtain ⟨words, hwords⟩ : ∃ words : List Token, words =
      [⟨.reference name, atName⟩, ⟨.equals, atEquals⟩] := ⟨_, rfl⟩
    obtain rfl : us = [⟨.letWord, keyword⟩] ++ ((words ++ vs ++ [⟨.inWord, atIn⟩]) ++ ws) := by
      rw [hparts, hwords]
      simp
    have hx := value.stands
      (hus.part ⟨[⟨.letWord, keyword⟩] ++ words, [⟨.inWord, atIn⟩] ++ ws, by simp⟩) hvalue
    have hy := body.stands
      (hus.part ⟨[⟨.letWord, keyword⟩] ++ (words ++ vs ++ [⟨.inWord, atIn⟩]), [], by simp⟩) hbody
    refine .intro _ hwrites ?_ ?_
    · rw [Expr.span, hy.span_eq]
      exact Ordered.merge_cover hus (List.cons_ne_nil _ _) hy.ne_nil
    · have hrows := Rows.cons words hx ((Rows.cons [] hy (.nil [])).behind [⟨.inWord, atIn⟩])
      rw [Expr.children]
      simpa using hrows.behind [⟨.letWord, keyword⟩]
  | .pipeline p, us, e, hus, h => by
    rw [Expression.Writes] at h
    exact p.stands hus h

theorem Pipeline.stands : ∀ (d : Pipeline) {us : List Token} {e : Expr}, Ordered us →
    d.Writes us e → Stands us e
  | .application a, us, e, hus, h => by
    rw [Pipeline.Writes] at h
    exact a.stands hus h
  | .pipe left right, us, e, hus, h => by
    have hwrites := h
    rw [Pipeline.Writes] at h
    obtain ⟨span, vs, ws, x, y, rfl, hleft, hright, hjoined⟩ := h
    have hx := left.stands (hus.sublist (by simp)) hleft
    have hy := right.stands (hus.sublist (by simp)) hright
    refine .intro (.pipeline (.pipe left right)) (by rwa [Expression.Writes]) ?_ ?_
    · have hparts : Ordered (vs ++ ([⟨.pipe, span⟩] ++ ws)) := hus
      rw [Expr.span_of_pipeInto hjoined, hx.span_eq, hy.span_eq]
      exact hparts.merge_cover hx.ne_nil hy.ne_nil
    · -- of the right side only the children stay
      rw [Expr.children_of_pipeInto hjoined]
      exact .cons [] hx (hy.rows.behind [⟨.pipe, span⟩])

theorem Application.stands : ∀ (d : Application) {us : List Token} {e : Expr}, Ordered us →
    d.Writes us e → Stands us e
  | .atom a, us, e, hus, h => by
    rw [Application.Writes] at h
    exact a.stands hus h
  | .apply head arguments, us, e, hus, h => by
    have hwrites := h
    rw [Application.Writes] at h
    obtain ⟨span, name, vs, ws, es, rfl, hhead, harguments, rfl⟩ := h
    have hx := head.stands (hus.sublist (by simp)) hhead
    obtain ⟨hrows, last, before, mid, hlast, rfl, hmid⟩ :=
      arguments.rows (hus.sublist (by simp)) harguments
    refine Application.stands_of_writes hwrites ?_ ?_
    · rw [Expr.applied_of_getLast? hlast, Expr.span, hmid.span_eq]
      have hspan : span = cover vs := hx.span_eq
      rw [hspan]
      exact hus.merge_cover hx.ne_nil hmid.ne_nil
    · rw [Expr.applied_of_getLast? hlast]
      exact hrows.behind vs

/-- The last argument stands on the last tokens. -/
theorem Arguments.rows : ∀ (d : Arguments) {us : List Token} {es : List Expr}, Ordered us →
    d.Writes us es → Rows us es ∧ ∃ (last : Expr) (before mid : List Token),
      es.getLast? = some last ∧ us = before ++ mid ∧ Stands mid last
  | .one a, us, es, hus, h => by
    rw [Arguments.Writes] at h
    obtain ⟨e, he, rfl⟩ := h
    have hstands := a.stands hus he
    refine ⟨?_, e, [], us, rfl, rfl, hstands⟩
    have := Rows.cons [] hstands (.nil [])
    rwa [List.append_nil] at this
  | .more a rest, us, es, hus, h => by
    rw [Arguments.Writes] at h
    obtain ⟨vs, ws, e, es', rfl, he, hrest, rfl⟩ := h
    have hstands := a.stands (hus.sublist (by simp)) he
    obtain ⟨hrows, last, before, mid, hlast, rfl, hmid⟩ := rest.rows (hus.sublist (by simp)) hrest
    refine ⟨.cons [] hstands hrows, last, vs ++ before, mid, ?_, by simp, hmid⟩
    rw [List.getLast?_cons, hlast]
    rfl

theorem Atom.stands : ∀ (d : Atom) {us : List Token} {e : Expr}, Ordered us →
    d.Writes us e → Stands us e
  | .literal value, us, e, hus, h => by
    have hwrites := h
    rw [Atom.Writes] at h
    obtain ⟨span, rfl, rfl⟩ := h
    exact Atom.stands_of_writes hwrites rfl (.nil _)
  | .reference name, us, e, hus, h => by
    have hwrites := h
    rw [Atom.Writes] at h
    obtain ⟨span, rfl, rfl⟩ := h
    exact Atom.stands_of_writes hwrites rfl (.nil _)
  | .group d, us, e, hus, h => by
    have hwrites := h
    rw [Atom.Writes] at h
    obtain ⟨first, last, vs, inner, rfl, hinner, rfl⟩ := h
    have hstands := d.stands (hus.sublist (by simp)) hinner
    refine Atom.stands_of_writes hwrites ?_ ?_
    · have hparts : Ordered ([⟨.opening, first⟩] ++ (vs ++ [⟨.closing, last⟩])) := hus
      rw [Expr.span_withSpan]
      exact hparts.merge_cover (List.cons_ne_nil _ _) (List.cons_ne_nil _ _)
    · rw [Expr.children_withSpan]
      exact (hstands.rows.before [⟨.closing, last⟩]).behind [⟨.opening, first⟩]

end

end Grammar

namespace Expr

/-! ## Where nodes stand -/

theorem Rows.exists_of_cons {us : List Token} {e : Expr} {es : List Expr} (h : Rows us (e :: es)) :
    ∃ gap mid rest, us = gap ++ (mid ++ rest) ∧ Stands mid e ∧ Rows rest es := by
  cases h with
  | cons gap first others => exact ⟨gap, _, _, rfl, first, others⟩

mutual

/-- Every node of an expression stands on some of the tokens that the expression stands on. -/
theorem Stands.exists_of_mem_nodes : ∀ {e : Expr} {us : List Token}, Stands us e →
    ∀ d ∈ e.nodes, ∃ mid, mid <:+: us ∧ Stands mid d
  | .literal span value, us, h, d, hd => by
    rw [nodes, List.mem_singleton] at hd
    exact ⟨us, List.infix_refl us, hd ▸ h⟩
  | .reference span name, us, h, d, hd => by
    rw [nodes, List.mem_singleton] at hd
    exact ⟨us, List.infix_refl us, hd ▸ h⟩
  | .application span name arguments, us, h, d, hd => by
    rw [nodes, List.mem_cons] at hd
    rcases hd with rfl | hd
    · exact ⟨us, List.infix_refl us, h⟩
    · have hrows : Rows us arguments := h.rows
      exact hrows.exists_of_mem_nodes d hd
  | .binding span name value body, us, h, d, hd => by
    rw [nodes, List.mem_cons, List.mem_append] at hd
    rcases hd with rfl | hd
    · exact ⟨us, List.infix_refl us, h⟩
    · obtain ⟨gap, vs, behindValue, rfl, hvalue, hbody⟩ := h.rows.exists_of_cons
      obtain ⟨gap', ws, rest, rfl, hbody, -⟩ := hbody.exists_of_cons
      rcases hd with hd | hd
      · obtain ⟨mid, hmid, hstands⟩ := hvalue.exists_of_mem_nodes d hd
        exact ⟨mid, hmid.trans ⟨gap, _, List.append_assoc ..⟩, hstands⟩
      · obtain ⟨mid, hmid, hstands⟩ := hbody.exists_of_mem_nodes d hd
        exact ⟨mid, hmid.trans ⟨gap ++ vs ++ gap', rest, by simp⟩, hstands⟩

theorem Rows.exists_of_mem_nodes : ∀ {es : List Expr} {us : List Token}, Rows us es →
    ∀ d ∈ nodesAll es, ∃ mid, mid <:+: us ∧ Stands mid d
  | [], _, _, d, hd => by
    rw [nodesAll] at hd
    cases hd
  | e :: es, us, h, d, hd => by
    rw [nodesAll, List.mem_append] at hd
    obtain ⟨gap, vs, rest, rfl, hfirst, hothers⟩ := h.exists_of_cons
    rcases hd with hd | hd
    · obtain ⟨mid, hmid, hstands⟩ := hfirst.exists_of_mem_nodes d hd
      exact ⟨mid, hmid.trans ⟨gap, rest, List.append_assoc ..⟩, hstands⟩
    · obtain ⟨mid, hmid, hstands⟩ := Rows.exists_of_mem_nodes hothers d hd
      exact ⟨mid, hmid.trans ⟨gap ++ vs, [], by simp⟩, hstands⟩

end

/-- Expressions one behind the other stand on some of the tokens. -/
theorem Rows.exists_of_mem : ∀ {es : List Expr} {us : List Token}, Rows us es →
    ∀ e ∈ es, ∃ mid, mid ⊆ us ∧ Stands mid e
  | [], _, _, _, he => by cases he
  | e :: es, us, h, c, hc => by
    obtain ⟨gap, vs, rest, rfl, hfirst, hothers⟩ := h.exists_of_cons
    rcases List.mem_cons.mp hc with rfl | hc
    · exact ⟨vs, fun t ht => by simp [ht], hfirst⟩
    · obtain ⟨mid, hmid, hstands⟩ := Rows.exists_of_mem hothers c hc
      exact ⟨mid, fun t ht => by simp [hmid ht], hstands⟩

/-- The children of an expression lie within it. -/
theorem Stands.within {us : List Token} {e : Expr} (hus : Ordered us) (h : Stands us e) :
    ∀ c ∈ e.children, e.span.start ≤ c.span.start ∧ c.span.stop ≤ e.span.stop := by
  intro c hc
  obtain ⟨mid, hmid, hstands⟩ := h.rows.exists_of_mem c hc
  rw [h.span_eq, hstands.span_eq]
  exact hus.cover_within hstands.ne_nil hmid

/-- Expressions one behind the other do not overlap. -/
theorem Rows.pairwise : ∀ {es : List Expr} {us : List Token}, Ordered us → Rows us es →
    es.Pairwise fun c c' => c.span.stop ≤ c'.span.start
  | [], _, _, _ => .nil
  | e :: es, us, hus, h => by
    obtain ⟨gap, vs, rest, rfl, hfirst, hothers⟩ := h.exists_of_cons
    have hrest : Ordered (vs ++ rest) := hus.part ⟨gap, [], by simp⟩
    refine .cons (fun c hc => ?_) (Rows.pairwise (hrest.part ⟨vs, [], by simp⟩) hothers)
    obtain ⟨mid, hmid, hstands⟩ := hothers.exists_of_mem c hc
    rw [hfirst.span_eq, hstands.span_eq]
    exact hrest.cover_stop_le hfirst.ne_nil hstands.ne_nil hmid

/-! ## Programs -/

/-- **Every node of a program stands for the part of the text at its span.** The span lies within the
text and holds a character, and its part of the text is read as this node, moved to where the part
stands. The children of the node lie within it, one behind the other. -/
theorem parse_slice_of_mem_nodes {source : String} {e : Expr} (h : parse source = .ok e) {d : Expr}
    (hd : d ∈ e.nodes) :
    d.span.start < d.span.stop ∧ d.span.stop ≤ source.length ∧
      (∃ d', parse (d.span.slice source) = .ok d' ∧
        d'.mapSpan (Span.shift d.span.start) = d) ∧
      (∀ c ∈ d.children, d.span.start ≤ c.span.start ∧ c.span.stop ≤ d.span.stop) ∧
      d.children.Pairwise fun c c' => c.span.stop ≤ c'.span.start := by
  obtain ⟨derivation, us, hscans, hwrites⟩ := parse_eq_ok_iff.mp h
  have hus := hscans.ordered
  obtain ⟨mid, hmid, hstands⟩ := (derivation.stands hus hwrites).exists_of_mem_nodes d hd
  have hordered := hus.part hmid
  refine ⟨?_, ?_, ?_, hstands.within hordered, hstands.rows.pairwise hordered⟩
  · rw [hstands.span_eq]
    exact hordered.cover_start_lt_stop hstands.ne_nil
  · obtain ⟨t, ht, hstop⟩ := Token.exists_cover_stop_eq hstands.ne_nil
    have hbound := (hscans.bounds t (hmid.subset ht)).2.2
    rw [hstands.span_eq, hstop]
    rwa [Nat.zero_add, String.length_toList] at hbound
  · obtain ⟨before, after, rfl⟩ := hmid
    obtain ⟨part, hpart⟩ := hstands.exists_writes
    rw [hstands.span_eq]
    exact exists_parse_slice hscans hpart

/-- The parentheses around a pipeline belong to the node that its last pipe builds. -/
theorem parse_slice_groupedPipe :
    let source := "let m = (close |> mean volume) in (lag) m (price)"
    let d : Expr := .application ⟨8, 30⟩ "mean"
      [.reference ⟨9, 14⟩ "close", .reference ⟨23, 29⟩ "volume"]
    (∃ e, parse source = .ok e ∧ d ∈ e.nodes) ∧ d.span.slice source = "(close |> mean volume)" ∧
      ∃ d', parse "(close |> mean volume)" = .ok d' ∧ d'.mapSpan (Span.shift 8) = d := by
  intro source d
  have hparse : parse source = .ok (.binding ⟨0, 49⟩ "m" d
      (.application ⟨34, 49⟩ "lag" [.reference ⟨40, 41⟩ "m", .reference ⟨42, 49⟩ "price"])) := by
    cbv
  have hd : d ∈ (Expr.binding ⟨0, 49⟩ "m" d
      (.application ⟨34, 49⟩ "lag" [.reference ⟨40, 41⟩ "m", .reference ⟨42, 49⟩ "price"])).nodes := by
    simp [nodes, nodesAll, d]
  have hslice : d.span.slice source = "(close |> mean volume)" := by decide
  obtain ⟨-, -, ⟨d', hd', hmoved⟩, -⟩ := parse_slice_of_mem_nodes hparse hd
  rw [hslice] at hd'
  exact ⟨⟨_, hparse, hd⟩, hslice, d', hd', hmoved⟩

end Expr

end SignalLab
