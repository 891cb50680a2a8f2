import SignalLab.Proofs.Grammar.Rules

/-!
# How the rules of the parser fail

For every rule of the parser one statement says where its failure comes from: from a rule below it,
after the rules before that one have read what they read, or from the token that it looks at.
-/

namespace SignalLab.Parser

variable {stop : Span} {ts : List Token} {left : Expr} {d : Diagnostic}

/-! ## Single tokens -/

theorem expect_error {kind : TokenKind} {context : String}
    (h : expect stop kind context ts = .error d) :
    d = unexpected stop kind.describe context ts := by
  unfold expect at h
  split at h
  · split at h
    · cases h
    · cases h
      rfl
  · cases h
    rfl

theorem expectName_error {context : String} (h : expectName stop context ts = .error d) :
    (∀ name span ts', ts ≠ ⟨.reference name, span⟩ :: ts') ∧
      d = unexpected stop "reference" context ts := by
  unfold expectName at h
  split at h
  · cases h
  · next hno =>
    cases h
    exact ⟨hno, rfl⟩

/-! ## Pipes -/

/-- Only a reference or an application can stand to the right of a pipe. -/
theorem pipeInto_error {pipe : Span} {right : Expr} (h : pipeInto pipe left right = .error d) :
    d = .token "reference or application" right.describe "pipeline" pipe := by
  unfold pipeInto at h
  split at h <;> cases h
  rfl

/-! ## The rules -/

theorem atom_error (h : atom stop ts = .error d) :
    startsAtom ts = false ∧
        d = unexpected stop "reference, literal or \"(\"" "atomic expression" ts ∨
      ∃ first ts', ts = ⟨.opening, first⟩ :: ts' ∧
        (expression stop ts' = .error d ∨
          ∃ e rest, Yields (expression stop ts') e rest ∧
            expect stop .closing "parenthesized expression" rest = .error d) := by
  unfold atom at h
  split at h
  · cases h
  · cases h
  · next first rest =>
    refine .inr ⟨first, rest, rfl, ?_⟩
    split at h
    · next hinner =>
      cases h
      exact .inl hinner
    · next e inner hshorter hinner =>
      refine .inr ⟨e, inner, ⟨hshorter, hinner⟩, ?_⟩
      split at h
      · next hclosing =>
        cases h
        exact hclosing
      · cases h
  · next hliteral hreference hopening =>
    cases h
    refine .inl ⟨?_, rfl⟩
    unfold startsAtom
    split <;> simp_all

theorem atoms_error (h : atoms stop ts = .error d) :
    startsAtom ts = true ∧
      (atom stop ts = .error d ∨
        ∃ e rest, Yields (atom stop ts) e rest ∧ atoms stop rest = .error d) := by
  unfold atoms at h
  split at h
  · next hstarts =>
    refine ⟨hstarts, ?_⟩
    split at h
    · next hatom =>
      cases h
      exact .inl hatom
    · next e rest hshorter hatom =>
      refine .inr ⟨e, rest, ⟨hshorter, hatom⟩, ?_⟩
      split at h
      · next hatoms =>
        cases h
        exact hatoms
      · cases h
  · cases h

theorem application_error (h : application stop ts = .error d) :
    atom stop ts = .error d ∨
      ∃ span name rest, Yields (atom stop ts) (.reference span name) rest ∧
        atoms stop rest = .error d := by
  unfold application at h
  split at h
  · next hatom =>
    cases h
    exact .inl hatom
  · next e rest hshorter hatom =>
    split at h
    · next span name =>
      refine .inr ⟨span, name, rest, ⟨hshorter, hatom⟩, ?_⟩
      split at h
      · next hatoms =>
        cases h
        exact hatoms
      · cases h
    · cases h

theorem pipes_error (h : pipes stop left ts = .error d) :
    ∃ span ts', ts = ⟨.pipe, span⟩ :: ts' ∧
      (application stop ts' = .error d ∨
        ∃ right rest, Yields (application stop ts') right rest ∧
          (pipeInto span left right = .error d ∨
            ∃ joined, pipeInto span left right = .ok joined ∧
              pipes stop joined rest = .error d)) := by
  unfold pipes at h
  split at h
  · next span ts' =>
    refine ⟨span, ts', rfl, ?_⟩
    split at h
    · next hright =>
      cases h
      exact .inl hright
    · next right rest hshorter hright =>
      refine .inr ⟨right, rest, ⟨hshorter, hright⟩, ?_⟩
      split at h
      · next hjoined =>
        cases h
        exact .inl hjoined
      · next joined hjoined =>
        refine .inr ⟨joined, hjoined, ?_⟩
        split at h
        · next hpipes =>
          cases h
          exact hpipes
        · cases h
  · cases h

theorem pipeline_error (h : pipeline stop ts = .error d) :
    application stop ts = .error d ∨
      ∃ first rest, Yields (application stop ts) first rest ∧ pipes stop first rest = .error d := by
  unfold pipeline at h
  split at h
  · next hfirst =>
    cases h
    exact .inl hfirst
  · next first rest hshorter hfirst =>
    refine .inr ⟨first, rest, ⟨hshorter, hfirst⟩, ?_⟩
    split at h
    · next hpipes =>
      cases h
      exact hpipes
    · cases h

theorem binding_error {keyword : Span} (h : binding stop keyword ts = .error d) :
    expectName stop "let expression" ts = .error d ∨
      ∃ name afterName, Yields (expectName stop "let expression" ts) name afterName ∧
        (expect stop .equals "let expression" afterName = .error d ∨
          ∃ atEquals afterEquals,
            Yields (expect stop .equals "let expression" afterName) atEquals afterEquals ∧
            (expression stop afterEquals = .error d ∨
              ∃ value afterValue, Yields (expression stop afterEquals) value afterValue ∧
                (expect stop .inWord "let expression" afterValue = .error d ∨
                  ∃ atIn afterIn,
                    Yields (expect stop .inWord "let expression" afterValue) atIn afterIn ∧
                    expression stop afterIn = .error d))) := by
  unfold binding at h
  split at h
  · next hname =>
    cases h
    exact .inl hname
  · next name afterName hshorter hname =>
    refine .inr ⟨name, afterName, ⟨hshorter, hname⟩, ?_⟩
    split at h
    · next hequals =>
      cases h
      exact .inl hequals
    · next atEquals afterEquals hshorter hequals =>
      refine .inr ⟨atEquals, afterEquals, ⟨hshorter, hequals⟩, ?_⟩
      split at h
      · next hvalue =>
        cases h
        exact .inl hvalue
      · next value afterValue hshorter hvalue =>
        refine .inr ⟨value, afterValue, ⟨hshorter, hvalue⟩, ?_⟩
        split at h
        · next hin =>
          cases h
          exact .inl hin
        · next atIn afterIn hshorter hin =>
          refine .inr ⟨atIn, afterIn, ⟨hshorter, hin⟩, ?_⟩
          split at h
          · next hbody =>
            cases h
            exact hbody
          · cases h

theorem expression_error (h : expression stop ts = .error d) :
    (∃ keyword ts', ts = ⟨.letWord, keyword⟩ :: ts' ∧ binding stop keyword ts' = .error d) ∨
      (∀ keyword ts', ts ≠ ⟨.letWord, keyword⟩ :: ts') ∧ pipeline stop ts = .error d := by
  unfold expression at h
  split at h
  · next keyword ts' =>
    refine .inl ⟨keyword, ts', rfl, ?_⟩
    split at h
    · next hbinding =>
      cases h
      exact hbinding
    · cases h
  · next hno => exact .inr ⟨hno, h⟩

end SignalLab.Parser
