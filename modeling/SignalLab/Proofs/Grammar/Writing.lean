import SignalLab.Proofs.Grammar.Rules

/-!
# Derivations with places

The tokens that a derivation writes stand somewhere in a text, and so do the parts of the expression
that it builds. `Writes us e` says that a derivation writes the tokens `us` and builds `e`, places
included: a number or a name stands where its token stands, parentheses widen what they enclose, and
any other node reaches from the first of its parts to the last.

Without places this is what `tokens` and `tree?` say (`Expression.bare_of_writes`), and these decide
whether some expression is built (`Expression.exists_writes`). Places may be moved, as long as the
move keeps the smallest span that covers two others (`Expression.writes_of_map`).
-/

namespace SignalLab

open SignalLab.Expr (nowhere)

/-! ## Moving an expression -/

/-- A move of places that keeps the smallest span that covers two others. -/
def KeepsMerge (f : Span → Span) : Prop := ∀ a b, f (a.merge b) = (f a).merge (f b)

namespace Expr

variable (f : Span → Span)

theorem span_mapSpan (e : Expr) : (e.mapSpan f).span = f e.span := by
  cases e <;> simp [mapSpan, span]

theorem mapSpan_withSpan (span : Span) (e : Expr) :
    (e.withSpan span).mapSpan f = (e.mapSpan f).withSpan (f span) := by
  cases e <;> simp [mapSpan, withSpan]

end Expr

namespace Parser

/-! ## What applications and pipes build -/

/-- The parser and the grammar agree on what may be piped into and what results from it. -/
theorem pipeInto_bare (pipe : Span) (left right : Expr) :
    (pipeInto pipe left right).toOption.map Expr.bare = Grammar.piped? left.bare right.bare := by
  cases right <;> simp [pipeInto, Grammar.piped?, Except.toOption]

theorem piped?_of_pipeInto {pipe : Span} {left right joined : Expr}
    (h : pipeInto pipe left right = .ok joined) :
    Grammar.piped? left.bare right.bare = some joined.bare := by
  rw [← pipeInto_bare pipe, h]
  rfl

theorem pipeInto_of_piped? {left right s : Expr} (h : Grammar.piped? left.bare right.bare = some s)
    (pipe : Span) : ∃ joined, pipeInto pipe left right = .ok joined ∧ joined.bare = s := by
  rw [← pipeInto_bare pipe, Option.map_eq_some_iff] at h
  obtain ⟨joined, hjoined, hs⟩ := h
  refine ⟨joined, ?_, hs⟩
  rcases hpipe : pipeInto pipe left right with d | e
  · simp [hpipe, Except.toOption] at hjoined
  · rw [hpipe] at hjoined
    rw [← Option.some.inj hjoined]

theorem bare_applied_cons (head : Expr) (name : String) (e : Expr) (es : List Expr) :
    (applied head name (e :: es)).bare = .application nowhere name ((e :: es).map Expr.bare) := by
  rw [applied, List.getLast?_cons]
  exact Expr.bare_application _ _ _

theorem eq_reference_of_bare {e : Expr} {span : Span} {name : String}
    (h : e.bare = .reference span name) : ∃ span', e = .reference span' name := by
  cases e with
  | reference span' other =>
    rw [Expr.bare_reference] at h
    cases h
    exact ⟨span', rfl⟩
  | _ => simp at h

variable {f : Span → Span}

theorem pipeInto_of_mapSpan (hf : KeepsMerge f) {pipe : Span}
    (pipe' : Span) {left right joined : Expr}
    (h : pipeInto pipe (left.mapSpan f) (right.mapSpan f) = .ok joined) :
    ∃ joined', pipeInto pipe' left right = .ok joined' ∧ joined'.mapSpan f = joined := by
  cases right with
  | reference span name =>
    refine ⟨_, rfl, ?_⟩
    simp only [pipeInto, Expr.mapSpan, Expr.span_mapSpan, Except.ok.injEq] at h
    rw [← h, Expr.mapSpan, hf, Expr.mapSpanAll, Expr.mapSpanAll]
    rfl
  | application span name arguments =>
    refine ⟨_, rfl, ?_⟩
    simp only [pipeInto, Expr.mapSpan, Expr.span_mapSpan, Except.ok.injEq] at h
    rw [← h, Expr.mapSpan, hf, Expr.mapSpanAll]
    rfl
  | _ => simp [pipeInto, Expr.mapSpan] at h

theorem mapSpan_applied (hf : KeepsMerge f) (span : Span)
    (name : String) (es : List Expr) :
    (applied (.reference span name) name es).mapSpan f =
      applied (.reference (f span) name) name (es.map (·.mapSpan f)) := by
  rw [applied, applied, List.getLast?_map]
  rcases es.getLast? with _ | last
  · simp [Expr.mapSpan]
  · simp only [Option.map_some, Expr.mapSpan, Expr.mapSpanAll_eq_map, Expr.span_mapSpan]
    rw [hf]
    rfl

end Parser

namespace Grammar

/-! ## What a derivation writes -/

mutual

/-- A derivation of an expression writes tokens and builds an expression. -/
def Expression.Writes : Expression → List Token → Expr → Prop
  | .binding name value body, us, e =>
    ∃ keyword atName atEquals atIn vs ws x y,
      us = ⟨.letWord, keyword⟩ :: ⟨.reference name, atName⟩ :: ⟨.equals, atEquals⟩ ::
        (vs ++ ⟨.inWord, atIn⟩ :: ws) ∧
      value.Writes vs x ∧ body.Writes ws y ∧ e = .binding (keyword.merge y.span) name x y
  | .pipeline p, us, e => p.Writes us e

/-- A derivation of a pipeline writes tokens and builds an expression. -/
def Pipeline.Writes : Pipeline → List Token → Expr → Prop
  | .application a, us, e => a.Writes us e
  | .pipe left right, us, e =>
    ∃ span vs ws x y, us = vs ++ ⟨.pipe, span⟩ :: ws ∧ left.Writes vs x ∧ right.Writes ws y ∧
      Parser.pipeInto span x y = .ok e

/-- A derivation of an application writes tokens and builds an expression. -/
def Application.Writes : Application → List Token → Expr → Prop
  | .atom a, us, e => a.Writes us e
  | .apply head arguments, us, e =>
    ∃ span name vs ws es, us = vs ++ ws ∧ head.Writes vs (.reference span name) ∧
      arguments.Writes ws es ∧ e = Parser.applied (.reference span name) name es

/-- Derivations of atoms write tokens and build expressions. -/
def Arguments.Writes : Arguments → List Token → List Expr → Prop
  | .one a, us, es => ∃ e, a.Writes us e ∧ es = [e]
  | .more a rest, us, es =>
    ∃ vs ws e es', us = vs ++ ws ∧ a.Writes vs e ∧ rest.Writes ws es' ∧ es = e :: es'

/-- A derivation of an atom writes tokens and builds an expression. -/
def Atom.Writes : Atom → List Token → Expr → Prop
  | .literal value, us, e => ∃ span, us = [⟨.literal value, span⟩] ∧ e = .literal span value
  | .reference name, us, e => ∃ span, us = [⟨.reference name, span⟩] ∧ e = .reference span name
  | .group d, us, e =>
    ∃ first last vs inner, us = ⟨.opening, first⟩ :: (vs ++ [⟨.closing, last⟩]) ∧
      d.Writes vs inner ∧ e = inner.withSpan (first.merge last)

end

theorem Arguments.ne_nil_of_writes {d : Arguments} {us : List Token} {es : List Expr}
    (h : d.Writes us es) : es ≠ [] := by
  cases d with
  | one a =>
    rw [Arguments.Writes] at h
    obtain ⟨e, -, rfl⟩ := h
    exact List.cons_ne_nil _ _
  | more a rest =>
    rw [Arguments.Writes] at h
    obtain ⟨vs, ws, e, es', -, -, -, rfl⟩ := h
    exact List.cons_ne_nil _ _

/-! ## Tokens and trees -/

mutual

/-- **What a derivation writes and builds is, without places, its tokens and its tree.** -/
theorem Expression.bare_of_writes : ∀ (d : Expression) {us : List Token} {e : Expr},
    d.Writes us e → Token.kinds us = d.tokens ∧ d.tree? = some e.bare
  | .binding name value body, us, e, h => by
    rw [Expression.Writes] at h
    obtain ⟨keyword, atName, atEquals, atIn, vs, ws, x, y, rfl, hvalue, hbody, rfl⟩ := h
    obtain ⟨hvs, hx⟩ := value.bare_of_writes hvalue
    obtain ⟨hws, hy⟩ := body.bare_of_writes hbody
    simp [Expression.tokens, Expression.tree?, hvs, hx, hws, hy]
  | .pipeline p, us, e, h => by
    rw [Expression.Writes] at h
    exact p.bare_of_writes h

theorem Pipeline.bare_of_writes : ∀ (d : Pipeline) {us : List Token} {e : Expr},
    d.Writes us e → Token.kinds us = d.tokens ∧ d.tree? = some e.bare
  | .application a, us, e, h => by
    rw [Pipeline.Writes] at h
    exact a.bare_of_writes h
  | .pipe left right, us, e, h => by
    rw [Pipeline.Writes] at h
    obtain ⟨span, vs, ws, x, y, rfl, hleft, hright, hjoined⟩ := h
    obtain ⟨hvs, hx⟩ := left.bare_of_writes hleft
    obtain ⟨hws, hy⟩ := right.bare_of_writes hright
    refine ⟨by simp [Pipeline.tokens, hvs, hws], ?_⟩
    rw [Pipeline.tree?, hx, hy]
    exact Parser.piped?_of_pipeInto hjoined

theorem Application.bare_of_writes : ∀ (d : Application) {us : List Token} {e : Expr},
    d.Writes us e → Token.kinds us = d.tokens ∧ d.tree? = some e.bare
  | .atom a, us, e, h => by
    rw [Application.Writes] at h
    exact a.bare_of_writes h
  | .apply head arguments, us, e, h => by
    rw [Application.Writes] at h
    obtain ⟨span, name, vs, ws, es, rfl, hhead, harguments, rfl⟩ := h
    obtain ⟨hvs, hx⟩ := head.bare_of_writes hhead
    obtain ⟨hws, hys⟩ := arguments.bare_of_writes harguments
    obtain ⟨e, es, rfl⟩ := List.exists_cons_of_ne_nil (Arguments.ne_nil_of_writes harguments)
    refine ⟨by simp [Application.tokens, hvs, hws], ?_⟩
    rw [Application.tree?, hx, hys, Parser.bare_applied_cons, Expr.bare_reference]
    rfl

theorem Arguments.bare_of_writes : ∀ (d : Arguments) {us : List Token} {es : List Expr},
    d.Writes us es → Token.kinds us = d.tokens ∧ d.trees? = some (es.map Expr.bare)
  | .one a, us, es, h => by
    rw [Arguments.Writes] at h
    obtain ⟨e, he, rfl⟩ := h
    obtain ⟨hus, htree⟩ := a.bare_of_writes he
    simp [Arguments.tokens, Arguments.trees?, hus, htree]
  | .more a rest, us, es, h => by
    rw [Arguments.Writes] at h
    obtain ⟨vs, ws, e, es', rfl, he, hrest, rfl⟩ := h
    obtain ⟨hvs, htree⟩ := a.bare_of_writes he
    obtain ⟨hws, htrees⟩ := rest.bare_of_writes hrest
    simp [Arguments.tokens, Arguments.trees?, hvs, htree, hws, htrees]

theorem Atom.bare_of_writes : ∀ (d : Atom) {us : List Token} {e : Expr},
    d.Writes us e → Token.kinds us = d.tokens ∧ d.tree? = some e.bare
  | .literal value, us, e, h => by
    rw [Atom.Writes] at h
    obtain ⟨span, rfl, rfl⟩ := h
    simp [Atom.tokens, Atom.tree?]
  | .reference name, us, e, h => by
    rw [Atom.Writes] at h
    obtain ⟨span, rfl, rfl⟩ := h
    simp [Atom.tokens, Atom.tree?]
  | .group d, us, e, h => by
    rw [Atom.Writes] at h
    obtain ⟨first, last, vs, inner, rfl, hinner, rfl⟩ := h
    obtain ⟨hvs, htree⟩ := d.bare_of_writes hinner
    simp [Atom.tokens, Atom.tree?, hvs, htree]

end

mutual

/-- **A derivation that builds an expression writes any tokens of its kinds**, wherever they stand. -/
theorem Expression.exists_writes : ∀ (d : Expression) {s : Expr} {us : List Token},
    d.tree? = some s → Token.kinds us = d.tokens → ∃ e, d.Writes us e ∧ e.bare = s
  | .binding name value body, s, us, htree, htokens => by
    rw [Expression.tokens] at htokens
    rw [Expression.tree?] at htree
    obtain ⟨keyword, afterLet, rfl, hname⟩ := Token.eq_cons_of_kinds htokens
    obtain ⟨atName, afterName, rfl, hequals⟩ := Token.eq_cons_of_kinds hname
    obtain ⟨atEquals, afterEquals, rfl, hvalue⟩ := Token.eq_cons_of_kinds hequals
    obtain ⟨vs, atInOn, rfl, hvs, hin⟩ := Token.eq_append_of_kinds hvalue
    obtain ⟨atIn, ws, rfl, hws⟩ := Token.eq_cons_of_kinds hin
    split at htree
    · next x y hx hy =>
      obtain ⟨v, hv, rfl⟩ := value.exists_writes hx hvs
      obtain ⟨b, hb, rfl⟩ := body.exists_writes hy hws
      simp only [Expression.Writes]
      refine ⟨_, ⟨keyword, atName, atEquals, atIn, vs, ws, v, b, rfl, hv, hb, rfl⟩, ?_⟩
      rw [Expr.bare_binding, ← Option.some.inj htree]
    · simp at htree
  | .pipeline p, s, us, htree, htokens => by
    rw [Expression.tokens] at htokens
    rw [Expression.tree?] at htree
    simp only [Expression.Writes]
    exact p.exists_writes htree htokens

theorem Pipeline.exists_writes : ∀ (d : Pipeline) {s : Expr} {us : List Token},
    d.tree? = some s → Token.kinds us = d.tokens → ∃ e, d.Writes us e ∧ e.bare = s
  | .application a, s, us, htree, htokens => by
    rw [Pipeline.tokens] at htokens
    rw [Pipeline.tree?] at htree
    simp only [Pipeline.Writes]
    exact a.exists_writes htree htokens
  | .pipe left right, s, us, htree, htokens => by
    rw [Pipeline.tokens] at htokens
    rw [Pipeline.tree?] at htree
    obtain ⟨vs, piped, rfl, hvs, hpiped⟩ := Token.eq_append_of_kinds htokens
    obtain ⟨span, ws, rfl, hws⟩ := Token.eq_cons_of_kinds hpiped
    split at htree
    · next x y hx hy =>
      obtain ⟨l, hl, rfl⟩ := left.exists_writes hx hvs
      obtain ⟨r, hr, rfl⟩ := right.exists_writes hy hws
      obtain ⟨joined, hjoined, hbare⟩ := Parser.pipeInto_of_piped? htree span
      simp only [Pipeline.Writes]
      exact ⟨joined, ⟨span, vs, ws, l, r, rfl, hl, hr, hjoined⟩, hbare⟩
    · simp at htree

theorem Application.exists_writes : ∀ (d : Application) {s : Expr} {us : List Token},
    d.tree? = some s → Token.kinds us = d.tokens → ∃ e, d.Writes us e ∧ e.bare = s
  | .atom a, s, us, htree, htokens => by
    rw [Application.tokens] at htokens
    rw [Application.tree?] at htree
    simp only [Application.Writes]
    exact a.exists_writes htree htokens
  | .apply head arguments, s, us, htree, htokens => by
    rw [Application.tokens] at htokens
    rw [Application.tree?] at htree
    obtain ⟨vs, ws, rfl, hvs, hws⟩ := Token.eq_append_of_kinds htokens
    split at htree
    · next x ys hx hys =>
      obtain ⟨e, he, hbare⟩ := head.exists_writes hx hvs
      obtain ⟨es, hes, rfl⟩ := arguments.exists_writes hys hws
      -- only a reference builds something here
      obtain ⟨span, name, rfl, rfl⟩ := applied?_eq_some htree
      obtain ⟨span', rfl⟩ := Parser.eq_reference_of_bare hbare
      simp only [Application.Writes]
      refine ⟨_, ⟨span', name, vs, ws, es, rfl, he, hes, rfl⟩, ?_⟩
      obtain ⟨e, es, rfl⟩ := List.exists_cons_of_ne_nil (Arguments.ne_nil_of_writes hes)
      exact Parser.bare_applied_cons _ _ _ _
    · simp at htree

theorem Arguments.exists_writes : ∀ (d : Arguments) {ss : List Expr} {us : List Token},
    d.trees? = some ss → Token.kinds us = d.tokens → ∃ es, d.Writes us es ∧ es.map Expr.bare = ss
  | .one a, ss, us, htree, htokens => by
    rw [Arguments.tokens] at htokens
    rw [Arguments.trees?] at htree
    split at htree
    · next x hx =>
      obtain ⟨e, he, rfl⟩ := a.exists_writes hx htokens
      simp only [Arguments.Writes]
      exact ⟨_, ⟨e, he, rfl⟩, Option.some.inj htree⟩
    · simp at htree
  | .more a rest, ss, us, htree, htokens => by
    rw [Arguments.tokens] at htokens
    rw [Arguments.trees?] at htree
    obtain ⟨vs, ws, rfl, hvs, hws⟩ := Token.eq_append_of_kinds htokens
    split at htree
    · next x xs hx hxs =>
      obtain ⟨e, he, rfl⟩ := a.exists_writes hx hvs
      obtain ⟨es, hes, rfl⟩ := rest.exists_writes hxs hws
      simp only [Arguments.Writes]
      exact ⟨_, ⟨vs, ws, e, es, rfl, he, hes, rfl⟩, Option.some.inj htree⟩
    · simp at htree

theorem Atom.exists_writes : ∀ (d : Atom) {s : Expr} {us : List Token},
    d.tree? = some s → Token.kinds us = d.tokens → ∃ e, d.Writes us e ∧ e.bare = s
  | .literal value, s, us, htree, htokens => by
    rw [Atom.tokens] at htokens
    rw [Atom.tree?] at htree
    obtain ⟨span, rfl⟩ := Token.eq_singleton_of_kinds htokens
    simp only [Atom.Writes]
    refine ⟨_, ⟨span, rfl, rfl⟩, ?_⟩
    rw [Expr.bare_literal, ← Option.some.inj htree]
  | .reference name, s, us, htree, htokens => by
    rw [Atom.tokens] at htokens
    rw [Atom.tree?] at htree
    obtain ⟨span, rfl⟩ := Token.eq_singleton_of_kinds htokens
    simp only [Atom.Writes]
    refine ⟨_, ⟨span, rfl, rfl⟩, ?_⟩
    rw [Expr.bare_reference, ← Option.some.inj htree]
  | .group d, s, us, htree, htokens => by
    rw [Atom.tokens] at htokens
    rw [Atom.tree?] at htree
    obtain ⟨first, afterOpening, rfl, hinner⟩ := Token.eq_cons_of_kinds htokens
    obtain ⟨vs, closing, rfl, hvs, hclosing⟩ := Token.eq_append_of_kinds hinner
    obtain ⟨last, rfl⟩ := Token.eq_singleton_of_kinds hclosing
    obtain ⟨e, he, rfl⟩ := d.exists_writes htree hvs
    simp only [Atom.Writes]
    exact ⟨_, ⟨first, last, vs, e, rfl, he, rfl⟩, Expr.bare_withSpan _ _⟩

end

/-! ## Moving what is written -/

variable {f : Span → Span}

theorem eq_cons_of_map {us rest : List Token} {kind : TokenKind} {span : Span}
    (h : us.map (·.mapSpan f) = ⟨kind, span⟩ :: rest) :
    ∃ span' us', us = ⟨kind, span'⟩ :: us' ∧ f span' = span ∧ us'.map (·.mapSpan f) = rest := by
  obtain ⟨⟨kind', span'⟩, us', rfl, htoken, hrest⟩ := List.map_eq_cons_iff.mp h
  rw [Token.mapSpan, Token.mk.injEq] at htoken
  obtain ⟨rfl, hspan⟩ := htoken
  exact ⟨span', us', rfl, hspan, hrest⟩

theorem eq_singleton_of_map {us : List Token} {kind : TokenKind} {span : Span}
    (h : us.map (·.mapSpan f) = [⟨kind, span⟩]) : ∃ span', us = [⟨kind, span'⟩] ∧ f span' = span := by
  obtain ⟨span', us', rfl, hspan, hrest⟩ := eq_cons_of_map h
  exact ⟨span', by rw [List.map_eq_nil_iff.mp hrest], hspan⟩

mutual

/-- **What a derivation writes when its tokens are moved is moved with them.** -/
theorem Expression.writes_of_map (hf : KeepsMerge f) :
    ∀ (d : Expression) {us : List Token} {e : Expr},
      d.Writes (us.map (·.mapSpan f)) e → ∃ e', d.Writes us e' ∧ e'.mapSpan f = e
  | .binding name value body, us, e, h => by
    rw [Expression.Writes] at h
    obtain ⟨_, _, _, _, _, _, x, y, hus, hvalue, hbody, rfl⟩ := h
    obtain ⟨keyword, afterLet, rfl, rfl, hname⟩ := eq_cons_of_map hus
    obtain ⟨atName, afterName, rfl, -, hequals⟩ := eq_cons_of_map hname
    obtain ⟨atEquals, afterEquals, rfl, -, hsides⟩ := eq_cons_of_map hequals
    obtain ⟨vs, atInOn, rfl, rfl, hin⟩ := List.map_eq_append_iff.mp hsides
    obtain ⟨atIn, ws, rfl, -, rfl⟩ := eq_cons_of_map hin
    obtain ⟨v, hv, rfl⟩ := value.writes_of_map hf hvalue
    obtain ⟨b, hb, rfl⟩ := body.writes_of_map hf hbody
    simp only [Expression.Writes]
    refine ⟨_, ⟨keyword, atName, atEquals, atIn, vs, ws, v, b, rfl, hv, hb, rfl⟩, ?_⟩
    rw [Expr.mapSpan, hf, Expr.span_mapSpan]
  | .pipeline p, us, e, h => by
    simp only [Expression.Writes] at h ⊢
    exact p.writes_of_map hf h

theorem Pipeline.writes_of_map (hf : KeepsMerge f) :
    ∀ (d : Pipeline) {us : List Token} {e : Expr},
      d.Writes (us.map (·.mapSpan f)) e → ∃ e', d.Writes us e' ∧ e'.mapSpan f = e
  | .application a, us, e, h => by
    simp only [Pipeline.Writes] at h ⊢
    exact a.writes_of_map hf h
  | .pipe left right, us, e, h => by
    rw [Pipeline.Writes] at h
    obtain ⟨_, _, _, x, y, hus, hleft, hright, hpipe⟩ := h
    obtain ⟨vs, piped, rfl, rfl, hpiped⟩ := List.map_eq_append_iff.mp hus
    obtain ⟨span, ws, rfl, -, rfl⟩ := eq_cons_of_map hpiped
    obtain ⟨l, hl, rfl⟩ := left.writes_of_map hf hleft
    obtain ⟨r, hr, rfl⟩ := right.writes_of_map hf hright
    obtain ⟨joined, hjoined, rfl⟩ := Parser.pipeInto_of_mapSpan hf span hpipe
    simp only [Pipeline.Writes]
    exact ⟨joined, ⟨span, vs, ws, l, r, rfl, hl, hr, hjoined⟩, rfl⟩

theorem Application.writes_of_map (hf : KeepsMerge f) :
    ∀ (d : Application) {us : List Token} {e : Expr},
      d.Writes (us.map (·.mapSpan f)) e → ∃ e', d.Writes us e' ∧ e'.mapSpan f = e
  | .atom a, us, e, h => by
    simp only [Application.Writes] at h ⊢
    exact a.writes_of_map hf h
  | .apply head arguments, us, e, h => by
    rw [Application.Writes] at h
    obtain ⟨span, name, vs, ws, es, hus, hhead, harguments, rfl⟩ := h
    obtain ⟨vs, ws, rfl, rfl, rfl⟩ := List.map_eq_append_iff.mp hus
    obtain ⟨x, hx, hreference⟩ := head.writes_of_map hf hhead
    obtain ⟨es, hes, rfl⟩ := arguments.writes_of_map hf harguments
    cases x with
    | reference span' name' =>
      rw [Expr.mapSpan, Expr.reference.injEq] at hreference
      obtain ⟨rfl, rfl⟩ := hreference
      simp only [Application.Writes]
      exact ⟨_, ⟨span', name', vs, ws, es, rfl, hx, hes, rfl⟩, Parser.mapSpan_applied hf _ _ _⟩
    | _ => simp [Expr.mapSpan] at hreference

theorem Arguments.writes_of_map (hf : KeepsMerge f) :
    ∀ (d : Arguments) {us : List Token} {es : List Expr},
      d.Writes (us.map (·.mapSpan f)) es → ∃ es', d.Writes us es' ∧ es'.map (·.mapSpan f) = es
  | .one a, us, es, h => by
    rw [Arguments.Writes] at h
    obtain ⟨_, hatom, rfl⟩ := h
    obtain ⟨e, he, rfl⟩ := a.writes_of_map hf hatom
    simp only [Arguments.Writes]
    exact ⟨_, ⟨e, he, rfl⟩, rfl⟩
  | .more a rest, us, es, h => by
    rw [Arguments.Writes] at h
    obtain ⟨_, _, _, _, hus, hatom, hrest, rfl⟩ := h
    obtain ⟨vs, ws, rfl, rfl, rfl⟩ := List.map_eq_append_iff.mp hus
    obtain ⟨e, he, rfl⟩ := a.writes_of_map hf hatom
    obtain ⟨es, hes, rfl⟩ := rest.writes_of_map hf hrest
    simp only [Arguments.Writes]
    exact ⟨_, ⟨vs, ws, e, es, rfl, he, hes, rfl⟩, rfl⟩

theorem Atom.writes_of_map (hf : KeepsMerge f) :
    ∀ (d : Atom) {us : List Token} {e : Expr},
      d.Writes (us.map (·.mapSpan f)) e → ∃ e', d.Writes us e' ∧ e'.mapSpan f = e
  | .literal value, us, e, h => by
    rw [Atom.Writes] at h
    obtain ⟨span, hus, rfl⟩ := h
    obtain ⟨span, rfl, rfl⟩ := eq_singleton_of_map hus
    simp only [Atom.Writes]
    exact ⟨_, ⟨span, rfl, rfl⟩, by rw [Expr.mapSpan]⟩
  | .reference name, us, e, h => by
    rw [Atom.Writes] at h
    obtain ⟨span, hus, rfl⟩ := h
    obtain ⟨span, rfl, rfl⟩ := eq_singleton_of_map hus
    simp only [Atom.Writes]
    exact ⟨_, ⟨span, rfl, rfl⟩, by rw [Expr.mapSpan]⟩
  | .group d, us, e, h => by
    rw [Atom.Writes] at h
    obtain ⟨_, _, _, inner, hus, hinner, rfl⟩ := h
    obtain ⟨first, afterOpening, rfl, rfl, hgroup⟩ := eq_cons_of_map hus
    obtain ⟨vs, closing, rfl, rfl, hclosing⟩ := List.map_eq_append_iff.mp hgroup
    obtain ⟨last, rfl, rfl⟩ := eq_singleton_of_map hclosing
    obtain ⟨e, he, rfl⟩ := d.writes_of_map hf hinner
    simp only [Atom.Writes]
    exact ⟨_, ⟨first, last, vs, e, rfl, he, rfl⟩, by rw [Expr.mapSpan_withSpan, hf]⟩

end

end Grammar

end SignalLab
