import SignalLab.Proofs.Grammar.Derivation

/-!
# The grammar is unambiguous

No two derivations of an expression write the same tokens (`Expression.tokens_injective`). Whether a
derivation builds an expression is not asked for.

## Shape of the argument

The statement for parts of a program has to say where a part ends. A derivation is `Determined` if
its tokens tell it apart, and the place where they end, from every other derivation of its kind, as
long as what follows them in either case does not go on with it: an atom would go on with an
application, and an atom or a pipe with an expression. A pipeline leans to the left and its tokens
are read from the left, so it is taken apart into its first application and those that are piped
into.
-/

namespace SignalLab.Grammar

/-! ## Ends of parts -/

/-- Tokens that cannot belong to an application before them. -/
def EndsApplication (rest : List TokenKind) : Prop := startsAtom rest = false

/-- Tokens that cannot belong to an expression before them. -/
def EndsExpression (rest : List TokenKind) : Prop :=
  startsAtom rest = false ∧ startsPipe rest = false

theorem endsExpression_nil : EndsExpression [] := ⟨rfl, rfl⟩

theorem endsExpression_closing (rest : List TokenKind) : EndsExpression (.closing :: rest) :=
  ⟨rfl, rfl⟩

theorem endsExpression_inWord (rest : List TokenKind) : EndsExpression (.inWord :: rest) :=
  ⟨rfl, rfl⟩

/-- The tokens of a derivation, followed by any that cannot belong to it, tell it apart from all
others, and where they end. -/
def Determined {D : Type} (tokens : D → List TokenKind) (ends : List TokenKind → Prop) (d : D) :
    Prop :=
  ∀ ⦃d' : D⦄ ⦃r r' : List TokenKind⦄, ends r → ends r' → tokens d ++ r = tokens d' ++ r' →
    d = d' ∧ r = r'

/-! ## Pipelines from the left -/

/-- The leftmost application of a pipeline. -/
def Pipeline.first : Pipeline → Application
  | .application a => a
  | .pipe left _ => left.first

/-- The applications that are piped into, from the left. -/
def Pipeline.targets : Pipeline → List Application
  | .application _ => []
  | .pipe left right => left.targets ++ [right]

/-- The tokens of applications with a pipe before each. -/
def targetTokens : List Application → List TokenKind
  | [] => []
  | a :: rest => .pipe :: (a.tokens ++ targetTokens rest)

theorem targetTokens_append (as bs : List Application) :
    targetTokens (as ++ bs) = targetTokens as ++ targetTokens bs := by
  induction as with
  | nil => rfl
  | cons a as ih => simp [targetTokens, ih]

theorem Pipeline.tokens_eq : ∀ p : Pipeline, p.tokens = p.first.tokens ++ targetTokens p.targets
  | .application a => by simp [tokens, first, targets, targetTokens]
  | .pipe left right => by
    simp [tokens, first, targets, targetTokens_append, targetTokens, left.tokens_eq]

/-- A pipeline is its first application piped into the others, one after the other. -/
theorem Pipeline.eq_foldl : ∀ p : Pipeline, p = p.targets.foldl pipe (.application p.first)
  | .application a => rfl
  | .pipe left right => by
    rw [targets, List.foldl_append, first, ← left.eq_foldl]
    rfl

theorem endsApplication_targetTokens (as : List Application) {rest : List TokenKind}
    (h : EndsApplication rest) : EndsApplication (targetTokens as ++ rest) := by
  rcases as with _ | ⟨a, as⟩
  · exact h
  · rfl

/-- Applications that are determined are determined also with a pipe before each. -/
theorem targetTokens_determined {as : List Application}
    (h : ∀ a ∈ as, Determined Application.tokens EndsApplication a) :
    Determined targetTokens EndsExpression as := by
  induction as with
  | nil =>
    rintro (_ | ⟨b, bs⟩) r r' hr hr' heq
    · exact ⟨rfl, heq⟩
    · -- what follows no application at all would begin with a pipe
      obtain ⟨-, hpipe⟩ := hr
      rw [show r = _ from heq] at hpipe
      cases hpipe
  | cons a as ih =>
    rintro (_ | ⟨b, bs⟩) r r' hr hr' heq
    · obtain ⟨-, hpipe⟩ := hr'
      rw [show r' = _ from heq.symm] at hpipe
      cases hpipe
    · simp only [targetTokens, List.cons_append, List.append_assoc, List.cons.injEq, true_and]
        at heq
      obtain ⟨hhead, htail⟩ := h a (by simp) (endsApplication_targetTokens as hr.1)
        (endsApplication_targetTokens bs hr'.1) heq
      obtain ⟨hrest, hend⟩ := ih (fun c hc => h c (List.mem_cons_of_mem _ hc)) hr hr' htail
      exact ⟨by rw [hhead, hrest], hend⟩

/-- A pipeline is determined if its applications are. -/
theorem Pipeline.determined_of_parts {p : Pipeline}
    (h : ∀ a ∈ p.first :: p.targets, Determined Application.tokens EndsApplication a) :
    Determined Pipeline.tokens EndsExpression p := by
  intro p' r r' hr hr' heq
  -- the first applications are compared first, and then those that are piped into
  rw [p.tokens_eq, p'.tokens_eq, List.append_assoc, List.append_assoc] at heq
  obtain ⟨hfirst, hrest⟩ := h p.first (by simp) (endsApplication_targetTokens _ hr.1)
    (endsApplication_targetTokens _ hr'.1) heq
  have htargets := targetTokens_determined fun a ha => h a (List.mem_cons_of_mem _ ha)
  obtain ⟨htail, hend⟩ := htargets hr hr' hrest
  exact ⟨by rw [p.eq_foldl, p'.eq_foldl, hfirst, htail], hend⟩

/-! ## Every derivation is determined -/

mutual

theorem Expression.determined : ∀ d : Expression, Determined Expression.tokens EndsExpression d
  | .binding name value body => by
    rintro (⟨name', value', body'⟩ | p') r r' hr hr' heq
    · simp only [Expression.tokens, List.cons_append, List.append_assoc, List.cons.injEq, true_and,
        TokenKind.reference.injEq] at heq
      obtain ⟨hname, hrest⟩ := heq
      -- the value ends before the word that follows it, and the body where the expression ends
      obtain ⟨hvalue, hin⟩ :=
        value.determined (endsExpression_inWord _) (endsExpression_inWord _) hrest
      rw [List.cons.injEq] at hin
      obtain ⟨hbody, hend⟩ := body.determined hr hr' hin.2
      exact ⟨by rw [hname, hvalue, hbody], hend⟩
    · -- a pipeline starts with an atom, and the word that begins a binding is none
      have hstart := p'.startsAtom_tokens r'
      rw [← show _ = p'.tokens ++ r' from heq] at hstart
      cases hstart
  | .pipeline p => by
    rintro (⟨name', value', body'⟩ | p') r r' hr hr' heq
    · have hstart := p.startsAtom_tokens r
      rw [show p.tokens ++ r = _ from heq] at hstart
      cases hstart
    · obtain ⟨hp, hend⟩ := Pipeline.determined_of_parts p.parts_determined hr hr' heq
      exact ⟨by rw [hp], hend⟩

theorem Pipeline.parts_determined : ∀ p : Pipeline,
    ∀ a ∈ p.first :: p.targets, Determined Application.tokens EndsApplication a
  | .application a => by
    intro b hb
    rw [List.mem_singleton.mp hb]
    exact a.determined
  | .pipe left right => by
    intro b hb
    rw [Pipeline.first, Pipeline.targets, ← List.cons_append, List.mem_append,
      List.mem_singleton] at hb
    rcases hb with hleft | hright
    · exact left.parts_determined b hleft
    · rw [hright]
      exact right.determined

theorem Application.determined : ∀ d : Application,
    Determined Application.tokens EndsApplication d
  | .atom a => by
    rintro (a' | ⟨head', arguments'⟩) r r' hr hr' heq
    · obtain ⟨ha, hend⟩ := a.determined trivial trivial heq
      exact ⟨by rw [ha], hend⟩
    · -- the arguments of the other application would follow the atom
      rw [Application.tokens, Application.tokens, List.append_assoc] at heq
      obtain ⟨-, hrest⟩ := a.determined trivial trivial heq
      rw [EndsApplication, hrest, arguments'.startsAtom_tokens] at hr
      cases hr
  | .apply head arguments => by
    rintro (a' | ⟨head', arguments'⟩) r r' hr hr' heq
    · rw [Application.tokens, Application.tokens, List.append_assoc] at heq
      obtain ⟨-, hrest⟩ := head.determined trivial trivial heq
      rw [EndsApplication, ← hrest, arguments.startsAtom_tokens] at hr'
      cases hr'
    · rw [Application.tokens, Application.tokens, List.append_assoc, List.append_assoc] at heq
      obtain ⟨hhead, hrest⟩ := head.determined trivial trivial heq
      obtain ⟨harguments, hend⟩ := arguments.determined hr hr' hrest
      exact ⟨by rw [hhead, harguments], hend⟩

theorem Arguments.determined : ∀ d : Arguments, Determined Arguments.tokens EndsApplication d
  | .one a => by
    rintro (a' | ⟨a', as'⟩) r r' hr hr' heq
    · obtain ⟨ha, hend⟩ := a.determined trivial trivial heq
      exact ⟨by rw [ha], hend⟩
    · rw [Arguments.tokens, Arguments.tokens, List.append_assoc] at heq
      obtain ⟨-, hrest⟩ := a.determined trivial trivial heq
      rw [EndsApplication, hrest, as'.startsAtom_tokens] at hr
      cases hr
  | .more a as => by
    rintro (a' | ⟨a', as'⟩) r r' hr hr' heq
    · rw [Arguments.tokens, Arguments.tokens, List.append_assoc] at heq
      obtain ⟨-, hrest⟩ := a.determined trivial trivial heq
      rw [EndsApplication, ← hrest, as.startsAtom_tokens] at hr'
      cases hr'
    · rw [Arguments.tokens, Arguments.tokens, List.append_assoc, List.append_assoc] at heq
      obtain ⟨ha, hrest⟩ := a.determined trivial trivial heq
      obtain ⟨has, hend⟩ := as.determined hr hr' hrest
      exact ⟨by rw [ha, has], hend⟩

/-- An atom ends by itself, whatever follows it. -/
theorem Atom.determined : ∀ d : Atom, Determined Atom.tokens (fun _ => True) d
  | .literal value => by
    rintro (value' | name' | e') r r' - - heq
    · simp only [Atom.tokens, List.cons_append, List.nil_append, List.cons.injEq,
        TokenKind.literal.injEq] at heq
      exact ⟨by rw [heq.1], heq.2⟩
    · simp [Atom.tokens] at heq
    · simp [Atom.tokens] at heq
  | .reference name => by
    rintro (value' | name' | e') r r' - - heq
    · simp [Atom.tokens] at heq
    · simp only [Atom.tokens, List.cons_append, List.nil_append, List.cons.injEq,
        TokenKind.reference.injEq] at heq
      exact ⟨by rw [heq.1], heq.2⟩
    · simp [Atom.tokens] at heq
  | .group e => by
    rintro (value' | name' | e') r r' - - heq
    · simp [Atom.tokens] at heq
    · simp [Atom.tokens] at heq
    · simp only [Atom.tokens, List.cons_append, List.append_assoc, List.nil_append, List.cons.injEq,
        true_and] at heq
      obtain ⟨he, hclosing⟩ :=
        e.determined (endsExpression_closing _) (endsExpression_closing _) heq
      rw [List.cons.injEq] at hclosing
      exact ⟨by rw [he], hclosing.2⟩

end

/-- **The grammar is unambiguous**: the tokens of an expression determine its derivation. -/
theorem Expression.tokens_injective {d d' : Expression} (h : d.tokens = d'.tokens) : d = d' := by
  have heq : d.tokens ++ [] = d'.tokens ++ [] := by rw [h]
  exact (d.determined endsExpression_nil endsExpression_nil heq).1

end SignalLab.Grammar
