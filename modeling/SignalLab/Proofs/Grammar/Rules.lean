import SignalLab.Expr.Parser
import SignalLab.Proofs.Grammar.Derivation

/-!
# What the rules of the parser read

For every rule of the parser one statement says exactly what it reads from the front of some tokens
and what it leaves, in terms of what the rules below it read and leave. The proofs that tokens are
used up, which the answers of the rules carry, are left aside here (`Parser.Yields`).
-/

namespace SignalLab

/-! ## Kinds of tokens -/

namespace Token

/-- The kinds of some tokens. -/
def kinds (ts : List Token) : List TokenKind := ts.map kind

@[simp] theorem kinds_nil : kinds [] = [] := rfl

@[simp] theorem kinds_cons (t : Token) (ts : List Token) : kinds (t :: ts) = t.kind :: kinds ts :=
  rfl

@[simp] theorem kinds_append (ts us : List Token) : kinds (ts ++ us) = kinds ts ++ kinds us :=
  List.map_append

variable {ts : List Token}

theorem eq_nil_of_kinds (h : kinds ts = []) : ts = [] := List.map_eq_nil_iff.mp h

theorem eq_cons_of_kinds {kind : TokenKind} {rest : List TokenKind} (h : kinds ts = kind :: rest) :
    ∃ span us, ts = ⟨kind, span⟩ :: us ∧ kinds us = rest := by
  obtain ⟨t, us, rfl, rfl, hrest⟩ := List.map_eq_cons_iff.mp h
  exact ⟨t.span, us, rfl, hrest⟩

theorem eq_singleton_of_kinds {kind : TokenKind} (h : kinds ts = [kind]) :
    ∃ span, ts = [⟨kind, span⟩] := by
  obtain ⟨span, us, rfl, hus⟩ := eq_cons_of_kinds h
  exact ⟨span, by rw [eq_nil_of_kinds hus]⟩

theorem eq_append_of_kinds {front back : List TokenKind} (h : kinds ts = front ++ back) :
    ∃ us vs, ts = us ++ vs ∧ kinds us = front ∧ kinds vs = back :=
  List.map_eq_append_iff.mp h

end Token

namespace Parser

/-! ## Answers -/

/-- A rule answers with `b` and leaves `rest`. -/
def Yields {β : Type} {P : List Token → Prop}
    (answer : Except Diagnostic (β × { rest : List Token // P rest })) (b : β)
    (rest : List Token) : Prop :=
  ∃ h, answer = .ok (b, ⟨rest, h⟩)

variable {stop span : Span} {context name : String} {ts rest : List Token} {e left : Expr}

/-- Every rule uses up tokens. -/
theorem Yields.length_lt {answer : Parsed ts} (h : Yields answer e rest) :
    rest.length < ts.length := h.1

/-! ## First tokens -/

theorem startsAtom_eq (ts : List Token) :
    startsAtom ts = Grammar.startsAtom (Token.kinds ts) := by
  rcases ts with _ | ⟨⟨kind, span⟩, ts⟩
  · rfl
  · cases kind <;> rfl

/-! ## Single tokens -/

theorem expect_yields_iff {kind : TokenKind} :
    Yields (expect stop kind context ts) span rest ↔ ts = ⟨kind, span⟩ :: rest := by
  constructor
  · rintro ⟨h, heq⟩
    unfold expect at heq
    split at heq
    · split at heq
      · next t ts hkind =>
        cases heq
        obtain ⟨kind', span'⟩ := t
        cases hkind
        rfl
      · simp at heq
    · simp at heq
  · rintro rfl
    refine ⟨by simp, ?_⟩
    simp [expect]

theorem expectName_yields_iff :
    Yields (expectName stop context ts) name rest ↔
      ∃ span, ts = ⟨.reference name, span⟩ :: rest := by
  constructor
  · rintro ⟨h, heq⟩
    unfold expectName at heq
    split at heq
    · cases heq
      exact ⟨_, rfl⟩
    · simp at heq
  · rintro ⟨span, rfl⟩
    exact ⟨by simp, rfl⟩

/-! ## Atoms and applications -/

theorem atom_yields_iff :
    Yields (atom stop ts) e rest ↔
      (∃ value span, ts = ⟨.literal value, span⟩ :: rest ∧ e = .literal span value) ∨
      (∃ name span, ts = ⟨.reference name, span⟩ :: rest ∧ e = .reference span name) ∨
      ∃ first last inner ts', ts = ⟨.opening, first⟩ :: ts' ∧
        Yields (expression stop ts') inner (⟨.closing, last⟩ :: rest) ∧
        e = inner.withSpan (first.merge last) := by
  constructor
  · rintro ⟨h, heq⟩
    unfold atom at heq
    split at heq
    · cases heq
      exact .inl ⟨_, _, rfl, rfl⟩
    · cases heq
      exact .inr (.inl ⟨_, _, rfl, rfl⟩)
    · next first ts' =>
      split at heq
      · simp at heq
      · next inner mid hmid hinner =>
        split at heq
        · simp at heq
        · next last outer houter hclosing =>
          cases heq
          obtain rfl := expect_yields_iff.mp ⟨houter, hclosing⟩
          exact .inr (.inr ⟨first, last, inner, ts', rfl, ⟨_, hinner⟩, rfl⟩)
    · simp at heq
  · rintro (⟨value, span, rfl, rfl⟩ | ⟨name, span, rfl, rfl⟩ |
      ⟨first, last, inner, ts', rfl, ⟨h, hinner⟩, rfl⟩)
    · refine ⟨by simp, ?_⟩
      unfold atom
      rfl
    · refine ⟨by simp, ?_⟩
      unfold atom
      rfl
    · refine ⟨by simp only [List.length_cons] at h ⊢; omega, ?_⟩
      unfold atom
      simp [hinner, expect]

/-- Atoms are read as long as there are any. -/
theorem atoms_yields_iff {es : List Expr} :
    Yields (atoms stop ts) es rest ↔
      (Grammar.startsAtom (Token.kinds ts) = false ∧ es = [] ∧ rest = ts) ∨
      ∃ e mid es', Grammar.startsAtom (Token.kinds ts) = true ∧ Yields (atom stop ts) e mid ∧
        Yields (atoms stop mid) es' rest ∧ es = e :: es' := by
  rw [← startsAtom_eq]
  constructor
  · rintro ⟨h, heq⟩
    unfold atoms at heq
    split at heq
    · next hstarts =>
      split at heq
      · simp at heq
      · next e mid hmid hatom =>
        split at heq
        · simp at heq
        · next es' final hfinal hatoms =>
          cases heq
          exact .inr ⟨e, mid, es', hstarts, ⟨hmid, hatom⟩, ⟨hfinal, hatoms⟩, rfl⟩
    · next hstarts =>
      cases heq
      exact .inl ⟨by simpa using hstarts, rfl, rfl⟩
  · rintro (⟨hstarts, rfl, rfl⟩ | ⟨e, mid, es', hstarts, ⟨hmid, hatom⟩, ⟨hrest, hatoms⟩, rfl⟩)
    · refine ⟨Nat.le_refl _, ?_⟩
      unfold atoms
      simp [hstarts]
    · refine ⟨by omega, ?_⟩
      unfold atoms
      simp [hstarts, hatom, hatoms]

/-- Atoms behind an atom are read as its arguments if and only if it is a reference. -/
theorem application_yields_iff :
    Yields (application stop ts) e rest ↔
      (∃ span name mid arguments, Yields (atom stop ts) (.reference span name) mid ∧
        Yields (atoms stop mid) arguments rest ∧
        e = applied (.reference span name) name arguments) ∨
      (∀ span name, e ≠ .reference span name) ∧ Yields (atom stop ts) e rest := by
  constructor
  · rintro ⟨h, heq⟩
    unfold application at heq
    split at heq
    · simp at heq
    · next head mid hmid hatom =>
      split at heq
      · next span name =>
        split at heq
        · simp at heq
        · next arguments final hfinal hatoms =>
          cases heq
          exact .inl ⟨span, name, mid, arguments, ⟨hmid, hatom⟩, ⟨hfinal, hatoms⟩, rfl⟩
      · next hhead =>
        cases heq
        exact .inr ⟨hhead, ⟨h, hatom⟩⟩
  · rintro (⟨span, name, mid, arguments, ⟨hmid, hatom⟩, ⟨hrest, hatoms⟩, rfl⟩ |
      ⟨hhead, ⟨h, hatom⟩⟩)
    · refine ⟨by omega, ?_⟩
      unfold application
      simp [hatom, hatoms]
    · refine ⟨h, ?_⟩
      unfold application
      simp only [hatom]

/-! ## Pipes -/

/-- Pipes are read as long as there are any. -/
theorem pipes_yields_iff :
    Yields (pipes stop left ts) e rest ↔
      (Grammar.startsPipe (Token.kinds ts) = false ∧ e = left ∧ rest = ts) ∨
      ∃ span ts' right mid joined, ts = ⟨.pipe, span⟩ :: ts' ∧
        Yields (application stop ts') right mid ∧ pipeInto span left right = .ok joined ∧
        Yields (pipes stop joined mid) e rest := by
  constructor
  · rintro ⟨h, heq⟩
    unfold pipes at heq
    split at heq
    · next span ts' =>
      split at heq
      · simp at heq
      · next right mid hmid hright =>
        split at heq
        · simp at heq
        · next joined hjoined =>
          split at heq
          · simp at heq
          · next e' final hfinal hpipes =>
            cases heq
            exact .inr ⟨span, ts', right, mid, joined, rfl, ⟨hmid, hright⟩, hjoined,
              ⟨hfinal, hpipes⟩⟩
    · next hno =>
      cases heq
      refine .inl ⟨?_, rfl, rfl⟩
      rcases ts with _ | ⟨⟨kind, span⟩, ts⟩
      · rfl
      · cases kind with
        | pipe => exact absurd rfl (hno span ts)
        | _ => rfl
  · rintro (⟨hno, rfl, rfl⟩ |
      ⟨span, ts', right, mid, joined, rfl, ⟨hmid, hright⟩, hjoined, ⟨hrest, hpipes⟩⟩)
    · refine ⟨Nat.le_refl _, ?_⟩
      unfold pipes
      split
      · exact absurd hno (by simp [Grammar.startsPipe])
      · rfl
    · refine ⟨by simp only [List.length_cons]; omega, ?_⟩
      unfold pipes
      simp [hright, hjoined, hpipes]

theorem pipeline_yields_iff :
    Yields (pipeline stop ts) e rest ↔
      ∃ first mid, Yields (application stop ts) first mid ∧
        Yields (pipes stop first mid) e rest := by
  constructor
  · rintro ⟨h, heq⟩
    unfold pipeline at heq
    split at heq
    · simp at heq
    · next first mid hmid hfirst =>
      split at heq
      · simp at heq
      · next e' final hfinal hpipes =>
        cases heq
        exact ⟨first, mid, ⟨hmid, hfirst⟩, ⟨hfinal, hpipes⟩⟩
  · rintro ⟨first, mid, ⟨hmid, hfirst⟩, ⟨hrest, hpipes⟩⟩
    refine ⟨by omega, ?_⟩
    unfold pipeline
    simp [hfirst, hpipes]

/-! ## Expressions -/

theorem binding_yields_iff {keyword : Span} :
    Yields (binding stop keyword ts) e rest ↔
      ∃ name atName atEquals atIn afterEquals value afterIn body,
        ts = ⟨.reference name, atName⟩ :: ⟨.equals, atEquals⟩ :: afterEquals ∧
        Yields (expression stop afterEquals) value (⟨.inWord, atIn⟩ :: afterIn) ∧
        Yields (expression stop afterIn) body rest ∧
        e = .binding (keyword.merge body.span) name value body := by
  constructor
  · rintro ⟨h, heq⟩
    unfold binding at heq
    split at heq
    · simp at heq
    · next name afterName hname hexpectName =>
      split at heq
      · simp at heq
      · next atEquals afterEquals hequals hexpectEquals =>
        split at heq
        · simp at heq
        · next value afterValue hafter hvalue =>
          split at heq
          · simp at heq
          · next atIn afterIn hin hexpectIn =>
            split at heq
            · simp at heq
            · next body final hfinal hbody =>
              cases heq
              obtain ⟨atName, rfl⟩ := expectName_yields_iff.mp ⟨hname, hexpectName⟩
              obtain rfl := expect_yields_iff.mp ⟨hequals, hexpectEquals⟩
              obtain rfl := expect_yields_iff.mp ⟨hin, hexpectIn⟩
              exact ⟨name, atName, atEquals, atIn, afterEquals, value, afterIn, body, rfl,
                ⟨hafter, hvalue⟩, ⟨hfinal, hbody⟩, rfl⟩
  · rintro ⟨name, atName, atEquals, atIn, afterEquals, value, afterIn, body, rfl,
      ⟨hafter, hvalue⟩, ⟨hrest, hbody⟩, rfl⟩
    have hlength : rest.length < afterEquals.length := by
      rw [List.length_cons] at hafter
      omega
    refine ⟨by simp only [List.length_cons]; omega, ?_⟩
    unfold binding
    simp [expectName, expect, hvalue, hbody]

theorem expression_yields_iff :
    Yields (expression stop ts) e rest ↔
      (∃ keyword ts', ts = ⟨.letWord, keyword⟩ :: ts' ∧ Yields (binding stop keyword ts') e rest) ∨
      (∀ keyword ts', ts ≠ ⟨.letWord, keyword⟩ :: ts') ∧ Yields (pipeline stop ts) e rest := by
  constructor
  · rintro ⟨h, heq⟩
    unfold expression at heq
    split at heq
    · next keyword ts' =>
      split at heq
      · simp at heq
      · next e' final hfinal hbinding =>
        cases heq
        exact .inl ⟨keyword, ts', rfl, ⟨hfinal, hbinding⟩⟩
    · next hno => exact .inr ⟨hno, ⟨h, heq⟩⟩
  · rintro (⟨keyword, ts', rfl, ⟨h, hbinding⟩⟩ | ⟨hno, ⟨h, hpipeline⟩⟩)
    · refine ⟨by simp only [List.length_cons]; omega, ?_⟩
      unfold expression
      simp [hbinding]
    · refine ⟨h, ?_⟩
      unfold expression
      split
      · next keyword ts' => exact absurd rfl (hno keyword ts')
      · exact hpipeline

end Parser

end SignalLab
