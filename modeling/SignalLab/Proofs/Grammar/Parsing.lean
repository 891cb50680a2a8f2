import SignalLab.Proofs.Grammar.Writing
import SignalLab.Proofs.Grammar.Unambiguity

/-!
# The parser reads the grammar

The parser accepts a list of tokens exactly if the tokens before the end of the text are those of a
derivation that builds an expression, and it then answers with this expression.

## Shape of the argument

Whatever a rule reads is written by a derivation (`expression_writes`), by induction on the number of
tokens: a rule hands on only tokens that are left after one was used up. The pipes that follow an
expression are added to the derivation of that expression, which is how a loop builds a tree that
leans to the left.

Conversely a rule reads what a derivation writes, and stops where that ends (`expression_reads`), by
induction on the derivation. Arguments and pipes are read as long as there are any, so what follows
must not begin with an atom or a pipe. Inside a program only a closing parenthesis and the word
between a value and a body follow an expression.

Both speak of places. Without them they say that reading and deriving agree (`expression_sound`,
`expression_complete`).
-/

namespace SignalLab

open SignalLab.Grammar (EndsApplication EndsExpression)

namespace Parser

variable {stop : Span}

/-! ## What is read is written -/

mutual

theorem atom_writes {ts rest : List Token} {e : Expr} (h : Yields (atom stop ts) e rest) :
    ∃ (d : Grammar.Atom) (us : List Token), ts = us ++ rest ∧ d.Writes us e := by
  rcases atom_yields_iff.mp h with ⟨value, span, rfl, rfl⟩ | ⟨name, span, rfl, rfl⟩ |
    ⟨first, last, inner, ts', hts, hinner, rfl⟩
  · exact ⟨.literal value, [_], rfl, by rw [Grammar.Atom.Writes]; exact ⟨span, rfl, rfl⟩⟩
  · exact ⟨.reference name, [_], rfl, by rw [Grammar.Atom.Writes]; exact ⟨span, rfl, rfl⟩⟩
  · have hshorter : ts'.length < ts.length := by
      rw [hts, List.length_cons]
      exact Nat.lt_succ_self _
    obtain ⟨d, us, hus, hwrites⟩ := expression_writes hinner
    refine ⟨.group d, ⟨.opening, first⟩ :: (us ++ [⟨.closing, last⟩]), by simp [hts, hus], ?_⟩
    rw [Grammar.Atom.Writes]
    exact ⟨first, last, us, inner, rfl, hwrites, rfl⟩
termination_by 5 * ts.length
decreasing_by omega

/-- Atoms in a row are no arguments at all or are written by a derivation as arguments. -/
theorem atoms_writes {ts rest : List Token} {es : List Expr} (h : Yields (atoms stop ts) es rest) :
    es = [] ∧ rest = ts ∨
      ∃ (d : Grammar.Arguments) (us : List Token), ts = us ++ rest ∧ d.Writes us es := by
  rcases atoms_yields_iff.mp h with ⟨-, rfl, rfl⟩ | ⟨e, mid, es', -, hatom, hatoms, rfl⟩
  · exact .inl ⟨rfl, rfl⟩
  · have hshorter := hatom.length_lt
    obtain ⟨d, us, rfl, hwrites⟩ := atom_writes hatom
    rcases atoms_writes hatoms with ⟨rfl, rfl⟩ | ⟨ds, vs, rfl, hwrites'⟩
    · refine .inr ⟨.one d, us, rfl, ?_⟩
      rw [Grammar.Arguments.Writes]
      exact ⟨e, hwrites, rfl⟩
    · refine .inr ⟨.more d ds, us ++ vs, by rw [List.append_assoc], ?_⟩
      rw [Grammar.Arguments.Writes]
      exact ⟨us, vs, e, es', rfl, hwrites, hwrites', rfl⟩
termination_by 5 * ts.length + 1

theorem application_writes {ts rest : List Token} {e : Expr}
    (h : Yields (application stop ts) e rest) :
    ∃ (d : Grammar.Application) (us : List Token), ts = us ++ rest ∧ d.Writes us e := by
  rcases application_yields_iff.mp h with ⟨span, name, mid, arguments, hatom, hatoms, rfl⟩ |
    ⟨-, hatom⟩
  · have hshorter := hatom.length_lt
    obtain ⟨d, us, rfl, hwrites⟩ := atom_writes hatom
    rcases atoms_writes hatoms with ⟨rfl, rfl⟩ | ⟨ds, vs, rfl, hwrites'⟩
    · exact ⟨.atom d, us, rfl, by rw [Grammar.Application.Writes]; exact hwrites⟩
    · refine ⟨.apply d ds, us ++ vs, by rw [List.append_assoc], ?_⟩
      rw [Grammar.Application.Writes]
      exact ⟨span, name, us, vs, arguments, rfl, hwrites, hwrites', rfl⟩
  · obtain ⟨d, us, rfl, hwrites⟩ := atom_writes hatom
    exact ⟨.atom d, us, rfl, by rw [Grammar.Application.Writes]; exact hwrites⟩
termination_by 5 * ts.length + 2

/-- Pipes add to the derivation of what stands to the left of them. -/
theorem pipes_writes {ts rest us : List Token} {left e : Expr} {l : Grammar.Pipeline}
    (hleft : l.Writes us left) (h : Yields (pipes stop left ts) e rest) :
    ∃ (d : Grammar.Pipeline) (vs : List Token), us ++ ts = vs ++ rest ∧ d.Writes vs e := by
  rcases pipes_yields_iff.mp h with ⟨-, rfl, rfl⟩ |
    ⟨span, ts', right, mid, joined, hts, hright, hjoined, hpipes⟩
  · exact ⟨l, us, rfl, hleft⟩
  · have hpipe : ts'.length < ts.length := by
      rw [hts, List.length_cons]
      exact Nat.lt_succ_self _
    have hshorter := hright.length_lt
    obtain ⟨r, ws, rfl, hwrites⟩ := application_writes hright
    -- one turn of the loop adds one application to the derivation on the left
    have hpiped : (Grammar.Pipeline.pipe l r).Writes (us ++ ⟨.pipe, span⟩ :: ws) joined := by
      rw [Grammar.Pipeline.Writes]
      exact ⟨span, us, ws, left, right, rfl, hleft, hwrites, hjoined⟩
    obtain ⟨d, vs, hvs, hwrites'⟩ := pipes_writes hpiped hpipes
    exact ⟨d, vs, by rw [hts, ← hvs, List.append_assoc, List.cons_append], hwrites'⟩
termination_by 5 * ts.length
decreasing_by all_goals omega

theorem pipeline_writes {ts rest : List Token} {e : Expr} (h : Yields (pipeline stop ts) e rest) :
    ∃ (d : Grammar.Pipeline) (us : List Token), ts = us ++ rest ∧ d.Writes us e := by
  obtain ⟨first, mid, hfirst, hpipes⟩ := pipeline_yields_iff.mp h
  have hshorter := hfirst.length_lt
  obtain ⟨a, us, rfl, hwrites⟩ := application_writes hfirst
  have hleft : (Grammar.Pipeline.application a).Writes us first := by
    rw [Grammar.Pipeline.Writes]
    exact hwrites
  exact pipes_writes hleft hpipes
termination_by 5 * ts.length + 3

/-- **Whatever the parser reads as an expression is written by a derivation**, which builds this
expression. -/
theorem expression_writes {ts rest : List Token} {e : Expr}
    (h : Yields (expression stop ts) e rest) :
    ∃ (d : Grammar.Expression) (us : List Token), ts = us ++ rest ∧ d.Writes us e := by
  rcases expression_yields_iff.mp h with ⟨keyword, ts', hts, hbinding⟩ | ⟨-, hpipeline⟩
  · obtain ⟨name, atName, atEquals, atIn, afterEquals, value, afterIn, body, hts', hvalue, hbody,
      rfl⟩ := binding_yields_iff.mp hbinding
    have hwords : afterEquals.length < ts.length := by
      rw [hts, hts']
      simp only [List.length_cons]
      omega
    have hshorter : afterIn.length < afterEquals.length := by
      have := hvalue.length_lt
      rw [List.length_cons] at this
      omega
    obtain ⟨v, us, rfl, hwrites⟩ := expression_writes hvalue
    obtain ⟨b, vs, rfl, hwrites'⟩ := expression_writes hbody
    refine ⟨.binding name v b, ⟨.letWord, keyword⟩ :: ⟨.reference name, atName⟩ ::
      ⟨.equals, atEquals⟩ :: (us ++ ⟨.inWord, atIn⟩ :: vs), by simp [hts, hts'], ?_⟩
    rw [Grammar.Expression.Writes]
    exact ⟨keyword, atName, atEquals, atIn, us, vs, value, body, rfl, hwrites, hwrites', rfl⟩
  · obtain ⟨p, us, rfl, hwrites⟩ := pipeline_writes hpipeline
    exact ⟨.pipeline p, us, rfl, by rw [Grammar.Expression.Writes]; exact hwrites⟩
termination_by 5 * ts.length + 4
decreasing_by all_goals omega

end

/-! ## What is written is read -/

mutual

theorem atom_reads : ∀ (d : Grammar.Atom) {us : List Token} {e : Expr} (rest : List Token),
    d.Writes us e → Yields (atom stop (us ++ rest)) e rest
  | .literal value, us, e, rest, h => by
    rw [Grammar.Atom.Writes] at h
    obtain ⟨span, rfl, rfl⟩ := h
    exact atom_yields_iff.mpr (.inl ⟨value, span, rfl, rfl⟩)
  | .reference name, us, e, rest, h => by
    rw [Grammar.Atom.Writes] at h
    obtain ⟨span, rfl, rfl⟩ := h
    exact atom_yields_iff.mpr (.inr (.inl ⟨name, span, rfl, rfl⟩))
  | .group d, us, e, rest, h => by
    rw [Grammar.Atom.Writes] at h
    obtain ⟨first, last, vs, inner, rfl, hwrites, rfl⟩ := h
    have hinner := expression_reads d (⟨.closing, last⟩ :: rest) hwrites
      (Grammar.endsExpression_closing _)
    exact atom_yields_iff.mpr (.inr (.inr ⟨first, last, inner, _, by simp, hinner, rfl⟩))

/-- All arguments are read if no atom follows them. -/
theorem arguments_reads : ∀ (d : Grammar.Arguments) {us : List Token} {es : List Expr}
    (rest : List Token), d.Writes us es → EndsApplication (Token.kinds rest) →
    Yields (atoms stop (us ++ rest)) es rest
  | .one a, us, es, rest, h, hrest => by
    rw [Grammar.Arguments.Writes] at h
    obtain ⟨e, hwrites, rfl⟩ := h
    have hstarts : Grammar.startsAtom (Token.kinds (us ++ rest)) = true := by
      rw [Token.kinds_append, (a.bare_of_writes hwrites).1, a.startsAtom_tokens]
    have hnone : Yields (atoms stop rest) [] rest := atoms_yields_iff.mpr (.inl ⟨hrest, rfl, rfl⟩)
    exact atoms_yields_iff.mpr (.inr ⟨e, rest, [], hstarts, atom_reads a rest hwrites, hnone, rfl⟩)
  | .more a as, us, es, rest, h, hrest => by
    rw [Grammar.Arguments.Writes] at h
    obtain ⟨vs, ws, e, es', rfl, hwrites, hwrites', rfl⟩ := h
    have hstarts : Grammar.startsAtom (Token.kinds (vs ++ (ws ++ rest))) = true := by
      rw [Token.kinds_append, (a.bare_of_writes hwrites).1, a.startsAtom_tokens]
    rw [List.append_assoc]
    exact atoms_yields_iff.mpr <| .inr ⟨e, ws ++ rest, es', hstarts,
      atom_reads a (ws ++ rest) hwrites, arguments_reads as rest hwrites' hrest, rfl⟩

theorem application_reads : ∀ (d : Grammar.Application) {us : List Token} {e : Expr}
    (rest : List Token), d.Writes us e → EndsApplication (Token.kinds rest) →
    Yields (application stop (us ++ rest)) e rest
  | .atom a, us, e, rest, h, hrest => by
    rw [Grammar.Application.Writes] at h
    have he := atom_reads a rest h
    -- a reference looks for arguments and finds none
    by_cases href : ∃ span name, e = .reference span name
    · obtain ⟨span, name, rfl⟩ := href
      have hnone : Yields (atoms stop rest) [] rest := atoms_yields_iff.mpr (.inl ⟨hrest, rfl, rfl⟩)
      exact application_yields_iff.mpr (.inl ⟨span, name, rest, [], he, hnone, rfl⟩)
    · refine application_yields_iff.mpr (.inr ⟨fun span name heq => ?_, he⟩)
      exact href ⟨span, name, heq⟩
  | .apply head arguments, us, e, rest, h, hrest => by
    rw [Grammar.Application.Writes] at h
    obtain ⟨span, name, vs, ws, es, rfl, hwrites, hwrites', rfl⟩ := h
    rw [List.append_assoc]
    exact application_yields_iff.mpr <| .inl ⟨span, name, ws ++ rest, es,
      atom_reads head (ws ++ rest) hwrites, arguments_reads arguments rest hwrites' hrest, rfl⟩

/-- What is read after a pipeline is what is read after its expression: the loop has come to the same
place. -/
theorem pipeline_reads : ∀ (d : Grammar.Pipeline) {us : List Token} {e : Expr}
    (rest : List Token), d.Writes us e → EndsApplication (Token.kinds rest) →
    ∀ {e' : Expr} {rest' : List Token}, Yields (pipes stop e rest) e' rest' →
      Yields (pipeline stop (us ++ rest)) e' rest'
  | .application a, us, e, rest, h, hrest => by
    rw [Grammar.Pipeline.Writes] at h
    exact fun hpipes => pipeline_yields_iff.mpr ⟨e, rest, application_reads a rest h hrest, hpipes⟩
  | .pipe left right, us, e, rest, h, hrest => by
    rw [Grammar.Pipeline.Writes] at h
    obtain ⟨span, vs, ws, x, y, rfl, hwrites, hwrites', hjoined⟩ := h
    intro hpipes
    -- the loop arrives at the pipe with what the left side builds, and goes on with both
    rw [List.append_assoc, List.cons_append]
    refine pipeline_reads left (⟨.pipe, span⟩ :: (ws ++ rest)) hwrites rfl
      (pipes_yields_iff.mpr (.inr ?_))
    exact ⟨span, ws ++ rest, y, rest, e, rfl, application_reads right rest hwrites' hrest, hjoined,
      hpipes⟩

/-- **The parser reads whatever a derivation writes**, if neither an atom nor a pipe follows it. -/
theorem expression_reads : ∀ (d : Grammar.Expression) {us : List Token} {e : Expr}
    (rest : List Token), d.Writes us e → EndsExpression (Token.kinds rest) →
    Yields (expression stop (us ++ rest)) e rest
  | .binding name value body, us, e, rest, h, hrest => by
    rw [Grammar.Expression.Writes] at h
    obtain ⟨keyword, atName, atEquals, atIn, vs, ws, x, y, rfl, hwrites, hwrites', rfl⟩ := h
    have hvalue := expression_reads value (⟨.inWord, atIn⟩ :: (ws ++ rest)) hwrites
      (Grammar.endsExpression_inWord _)
    have hbody := expression_reads body rest hwrites' hrest
    refine expression_yields_iff.mpr (.inl ⟨keyword, _, rfl, binding_yields_iff.mpr ?_⟩)
    exact ⟨name, atName, atEquals, atIn, _, x, ws ++ rest, y, by simp, hvalue, hbody, rfl⟩
  | .pipeline p, us, e, rest, h, hrest => by
    rw [Grammar.Expression.Writes] at h
    have hend : Yields (pipes stop e rest) e rest := pipes_yields_iff.mpr (.inl ⟨hrest.2, rfl, rfl⟩)
    refine expression_yields_iff.mpr (.inr ⟨?_, pipeline_reads p rest h hrest.1 hend⟩)
    -- a pipeline starts with an atom, and the word that begins a binding is none
    intro keyword vs hvs
    have hstarts := p.startsAtom_tokens (Token.kinds rest)
    rw [← (p.bare_of_writes h).1, ← Token.kinds_append, hvs] at hstarts
    cases hstarts

end

/-! ## Reading and deriving -/

/-- Whatever the parser reads as an expression has a derivation that builds this expression. -/
theorem expression_sound {ts rest : List Token} {e : Expr}
    (h : Yields (expression stop ts) e rest) :
    ∃ d : Grammar.Expression, Token.kinds ts = d.tokens ++ Token.kinds rest ∧
      d.tree? = some e.bare := by
  obtain ⟨d, us, rfl, hwrites⟩ := expression_writes h
  obtain ⟨htokens, htree⟩ := d.bare_of_writes hwrites
  exact ⟨d, by rw [Token.kinds_append, htokens], htree⟩

/-- The parser reads every derivation of an expression that builds one, if neither an atom nor a pipe
follows it. -/
theorem expression_complete (d : Grammar.Expression) {s : Expr} {ts : List Token}
    (rest : List Token) (htree : d.tree? = some s) (htokens : Token.kinds ts = d.tokens)
    (hrest : EndsExpression (Token.kinds rest)) :
    ∃ e, Yields (expression stop (ts ++ rest)) e rest ∧ e.bare = s := by
  obtain ⟨e, hwrites, hbare⟩ := d.exists_writes htree htokens
  exact ⟨e, expression_reads d rest hwrites hrest, hbare⟩

/-! ## Whole programs -/

/-- A list of tokens is accepted if the tokens before its end are all read. -/
theorem ofTokens_eq_ok {ts : List Token} {e : Expr} :
    Expr.ofTokens ts = .ok e ↔ Yields (expression (eofSpan ts) (beforeEof ts)) e [] := by
  unfold Expr.ofTokens
  dsimp only
  constructor
  · intro h
    split at h
    · simp at h
    · next e' hrest hread =>
      cases h
      exact ⟨hrest, hread⟩
    · simp at h
  · rintro ⟨hrest, hread⟩
    rw [hread]

end Parser

/-- **The parser accepts exactly what the grammar derives, and builds what the derivation builds.**
The tokens before the end of the text, or all of them without one, have at most one derivation. -/
theorem Expr.ofTokens_iff_derivation (ts : List Token) (s : Expr) :
    ((∃ e, Expr.ofTokens ts = .ok e ∧ e.bare = s) ↔
      ∃ d : Grammar.Expression, d.tokens = Token.kinds (Parser.beforeEof ts) ∧ d.tree? = some s) ∧
    ∀ d d' : Grammar.Expression, d.tokens = Token.kinds (Parser.beforeEof ts) →
      d'.tokens = Token.kinds (Parser.beforeEof ts) → d = d' := by
  refine ⟨⟨?_, ?_⟩, fun d d' hd hd' => Grammar.Expression.tokens_injective (hd.trans hd'.symm)⟩
  · rintro ⟨e, hparse, rfl⟩
    obtain ⟨d, htokens, htree⟩ := Parser.expression_sound (Parser.ofTokens_eq_ok.mp hparse)
    exact ⟨d, by rw [htokens, Token.kinds_nil, List.append_nil], htree⟩
  · rintro ⟨d, htokens, htree⟩
    obtain ⟨e, hread, hbare⟩ := Parser.expression_complete d [] htree htokens.symm
      Grammar.endsExpression_nil
    rw [List.append_nil] at hread
    exact ⟨e, Parser.ofTokens_eq_ok.mpr hread, hbare⟩

end SignalLab
