import SignalLab.Proofs.Grammar.Writing

/-!
# Places play no part in reading

Tokens of the same kinds are read alike, wherever they stand (`Expr.ofTokens_alike`): as the same
expression but for its places, or with the same diagnostic but for its place.

## Shape of the argument

Two runs of a rule are compared, over tokens of the same kinds. Whatever the rule asks about the next
token is a question about its kind, so both runs take the same branch; they fail alike, or they use up
as many tokens and leave tokens of the same kinds to the rule that goes on (`Parser.Leaves`). The
induction is on the number of tokens, as for the rules themselves.
-/

namespace SignalLab

/-! ## Answers without places -/

/-- A diagnostic without its place. -/
def Diagnostic.bare (d : Diagnostic) : Diagnostic := d.mapSpan fun _ => Expr.nowhere

/-- Two answers are alike if both are values that are related, or both are diagnostics that are the
same but for their places. -/
inductive Alike {α β : Type} (r : α → β → Prop) : Except Diagnostic α → Except Diagnostic β → Prop
  | ok {x : α} {y : β} (related : r x y) : Alike r (.ok x) (.ok y)
  | error {d d' : Diagnostic} (same : d.bare = d'.bare) : Alike r (.error d) (.error d')

namespace Alike

variable {α β : Type} {r : α → β → Prop}

/-- What follows two answers that are alike. -/
@[elab_as_elim]
theorem elim {motive : Except Diagnostic α → Except Diagnostic β → Prop} {x : Except Diagnostic α}
    {y : Except Diagnostic β} (h : Alike r x y) (ok : ∀ a b, r a b → motive (.ok a) (.ok b))
    (error : ∀ d d', d.bare = d'.bare → motive (.error d) (.error d')) : motive x y := by
  cases h with
  | ok hr => exact ok _ _ hr
  | error hd => exact error _ _ hd

theorem symm {x y : Except Diagnostic α} (h : Alike Eq x y) : Alike Eq y x :=
  h.elim (fun _ _ heq => .ok heq.symm) fun _ _ hd => .error hd.symm

theorem trans {x y z : Except Diagnostic α} (h : Alike Eq x y) (h' : Alike Eq y z) :
    Alike Eq x z := by
  rcases h with rfl | hd
  · exact h'
  · rcases h' with _ | hd'
    exact .error (hd.trans hd')

end Alike

/-- Two expressions are the same but for their places. -/
def Expr.Same (e e' : Expr) : Prop := e.bare = e'.bare

namespace Parser

open Token (kinds)

/-- Two readings have related results and leave tokens of the same kinds. -/
inductive Leaves {α : Type} {P Q : List Token → Prop} (r : α → α → Prop) :
    α × { rest : List Token // P rest } → α × { rest : List Token // Q rest } → Prop
  | intro {a b : α} {rest rest' : List Token} {hrest : P rest} {hrest' : Q rest'}
      (related : r a b) (same : kinds rest = kinds rest') :
      Leaves r (a, ⟨rest, hrest⟩) (b, ⟨rest', hrest'⟩)

variable {stop stop' : Span} {ts ts' : List Token}

/-! ## Single tokens -/

theorem bare_unexpected (stop stop' : Span) (h : kinds ts = kinds ts') (want context : String) :
    (unexpected stop want context ts).bare = (unexpected stop' want context ts').bare := by
  rcases ts with _ | ⟨⟨kind, span⟩, ts⟩
  · rw [Token.eq_nil_of_kinds h.symm]
    rfl
  · obtain ⟨span', us, rfl, -⟩ := Token.eq_cons_of_kinds h.symm
    rfl

theorem expect_alike (stop stop' : Span) (kind : TokenKind) (context : String)
    (h : kinds ts = kinds ts') :
    Alike (Leaves fun _ _ => True) (expect stop kind context ts) (expect stop' kind context ts') := by
  have hunexpected := bare_unexpected stop stop' h kind.describe context
  rcases ts with _ | ⟨⟨other, span⟩, ts⟩
  · rw [Token.eq_nil_of_kinds h.symm] at hunexpected ⊢
    exact .error hunexpected
  · obtain ⟨span', us, rfl, hus⟩ := Token.eq_cons_of_kinds h.symm
    unfold expect
    dsimp only
    by_cases hkind : other = kind
    · rw [if_pos hkind, if_pos hkind]
      exact .ok ⟨trivial, hus.symm⟩
    · rw [if_neg hkind, if_neg hkind]
      exact .error hunexpected

theorem expectName_alike (stop stop' : Span) (context : String) (h : kinds ts = kinds ts') :
    Alike (Leaves Eq) (expectName stop context ts) (expectName stop' context ts') := by
  have hunexpected := bare_unexpected stop stop' h "reference" context
  rcases ts with _ | ⟨⟨kind, span⟩, ts⟩
  · rw [Token.eq_nil_of_kinds h.symm] at hunexpected ⊢
    exact .error hunexpected
  · obtain ⟨span', us, rfl, hus⟩ := Token.eq_cons_of_kinds h.symm
    cases kind with
    | reference name => exact .ok ⟨rfl, hus.symm⟩
    | _ => exact .error hunexpected

/-! ## Pipes and arguments -/

theorem pipeInto_alike {left left' right right' : Expr} (hleft : left.Same left')
    (hright : right.Same right') (pipe pipe' : Span) :
    Alike Expr.Same (pipeInto pipe left right) (pipeInto pipe' left' right') := by
  unfold Expr.Same at hleft hright
  -- whether a pipe may lead into an expression shows without its places
  cases right <;> cases right' <;> simp at hright
  case literal.literal => exact .error rfl
  case reference.reference => exact .ok (by simp [Expr.Same, hleft, hright])
  case application.application => exact .ok (by simp [Expr.Same, hleft, hright])
  case binding.binding => exact .error rfl

theorem applied_same {head head' : Expr} {name : String} {es es' : List Expr}
    (hhead : head.Same head') (hes : es.map Expr.bare = es'.map Expr.bare) :
    (applied head name es).Same (applied head' name es') := by
  rcases es with _ | ⟨e, es⟩
  · obtain rfl := List.map_eq_nil_iff.mp hes.symm
    exact hhead
  · obtain ⟨e', es', rfl, -, -⟩ := List.map_eq_cons_iff.mp hes.symm
    rw [Expr.Same, bare_applied_cons, bare_applied_cons, hes]

/-! ## The rules -/

mutual

theorem atom_alike : ∀ {ts ts' : List Token}, kinds ts = kinds ts' →
    Alike (Leaves Expr.Same) (atom stop ts) (atom stop' ts')
  | [], ts', h => by
    obtain rfl := Token.eq_nil_of_kinds h.symm
    unfold atom
    exact .error (bare_unexpected stop stop' rfl _ _)
  | ⟨kind, span⟩ :: ts, ts', h => by
    have hunexpected := bare_unexpected stop stop' h "reference, literal or \"(\""
      "atomic expression"
    obtain ⟨span', us, rfl, hus⟩ := Token.eq_cons_of_kinds h.symm
    unfold atom
    cases kind with
    | literal value => exact .ok ⟨by simp [Expr.Same], hus.symm⟩
    | reference name => exact .ok ⟨by simp [Expr.Same], hus.symm⟩
    | opening =>
      dsimp only
      refine (expression_alike hus.symm).elim ?_ fun _ _ hd => .error hd
      rintro _ _ @⟨e, e', inner, inner', _, _, he, hinner⟩
      dsimp only
      refine (expect_alike stop stop' _ _ hinner).elim ?_ fun _ _ hd => .error hd
      rintro _ _ @⟨_, _, rest, rest', _, _, _, hrest⟩
      refine .ok ⟨?_, hrest⟩
      rw [Expr.Same, Expr.bare_withSpan, Expr.bare_withSpan]
      exact he
    | _ => exact .error hunexpected
termination_by ts => 5 * ts.length
decreasing_by simp only [List.length_cons]; omega

theorem atoms_alike {ts ts' : List Token} (h : kinds ts = kinds ts') :
    Alike (Leaves fun es es' => es.map Expr.bare = es'.map Expr.bare)
      (atoms stop ts) (atoms stop' ts') := by
  have hstarts : startsAtom ts = startsAtom ts' := by rw [startsAtom_eq, startsAtom_eq, h]
  unfold atoms
  by_cases hts : startsAtom ts = true
  · rw [if_pos hts, if_pos (hstarts ▸ hts)]
    refine (atom_alike h).elim ?_ fun _ _ hd => .error hd
    rintro _ _ @⟨e, e', rest, rest', hshorter, _, he, hrest⟩
    dsimp only
    refine (atoms_alike hrest).elim ?_ fun _ _ hd => .error hd
    rintro _ _ @⟨es, es', final, final', _, _, hes, hfinal⟩
    exact .ok ⟨List.cons_eq_cons.mpr ⟨he, hes⟩, hfinal⟩
  · rw [if_neg hts, if_neg (hstarts ▸ hts)]
    exact .ok ⟨rfl, h⟩
termination_by 5 * ts.length + 1

theorem application_alike {ts ts' : List Token} (h : kinds ts = kinds ts') :
    Alike (Leaves Expr.Same) (application stop ts) (application stop' ts') := by
  unfold application
  refine (atom_alike h).elim ?_ fun _ _ hd => .error hd
  rintro _ _ @⟨head, head', rest, rest', hshorter, _, hhead, hrest⟩
  have harguments := atoms_alike hrest
  dsimp only
  cases head <;> cases head' <;> simp [Expr.Same] at hhead
  case reference.reference =>
    obtain rfl := hhead
    dsimp only
    refine harguments.elim ?_ fun _ _ hd => .error hd
    rintro _ _ @⟨es, es', final, final', _, _, hes, hfinal⟩
    exact .ok ⟨applied_same (by simp [Expr.Same]) hes, hfinal⟩
  all_goals exact .ok ⟨by simp [Expr.Same, hhead], hrest⟩
termination_by 5 * ts.length + 2

theorem pipes_alike : ∀ {left left' : Expr}, left.Same left' → ∀ {ts ts' : List Token},
    kinds ts = kinds ts' → Alike (Leaves Expr.Same) (pipes stop left ts) (pipes stop' left' ts')
  | left, left', hleft, [], ts', h => by
    obtain rfl := Token.eq_nil_of_kinds h.symm
    unfold pipes
    exact .ok ⟨hleft, rfl⟩
  | left, left', hleft, ⟨kind, span⟩ :: ts, ts', h => by
    obtain ⟨span', us, rfl, hus⟩ := Token.eq_cons_of_kinds h.symm
    unfold pipes
    cases kind with
    | pipe =>
      dsimp only
      refine (application_alike hus.symm).elim ?_ fun _ _ hd => .error hd
      rintro _ _ @⟨right, right', rest, rest', hshorter, _, hright, hrest⟩
      dsimp only
      refine (pipeInto_alike hleft hright span span').elim ?_ fun _ _ hd => .error hd
      intro joined joined' hjoined
      dsimp only
      refine (pipes_alike hjoined hrest).elim ?_ fun _ _ hd => .error hd
      rintro _ _ @⟨e, e', final, final', _, _, he, hfinal⟩
      exact .ok ⟨he, hfinal⟩
    | _ => exact .ok ⟨hleft, h⟩
termination_by _ _ _ ts => 5 * ts.length
decreasing_by all_goals simp only [List.length_cons]; omega

theorem pipeline_alike {ts ts' : List Token} (h : kinds ts = kinds ts') :
    Alike (Leaves Expr.Same) (pipeline stop ts) (pipeline stop' ts') := by
  unfold pipeline
  refine (application_alike h).elim ?_ fun _ _ hd => .error hd
  rintro _ _ @⟨first, first', rest, rest', hshorter, _, hfirst, hrest⟩
  dsimp only
  refine (pipes_alike hfirst hrest).elim ?_ fun _ _ hd => .error hd
  rintro _ _ @⟨e, e', final, final', _, _, he, hfinal⟩
  exact .ok ⟨he, hfinal⟩
termination_by 5 * ts.length + 3

theorem binding_alike {ts ts' : List Token} (h : kinds ts = kinds ts') (keyword keyword' : Span) :
    Alike (Leaves Expr.Same) (binding stop keyword ts) (binding stop' keyword' ts') := by
  unfold binding
  refine (expectName_alike stop stop' _ h).elim ?_ fun _ _ hd => .error hd
  rintro _ _ @⟨name, name', afterName, afterName', hname, _, hsame, h⟩
  dsimp only
  refine (expect_alike stop stop' _ _ h).elim ?_ fun _ _ hd => .error hd
  rintro _ _ @⟨_, _, afterEquals, afterEquals', hequals, _, _, h⟩
  dsimp only
  refine (expression_alike h).elim ?_ fun _ _ hd => .error hd
  rintro _ _ @⟨value, value', afterValue, afterValue', hshorter, _, hvalue, h⟩
  dsimp only
  refine (expect_alike stop stop' _ _ h).elim ?_ fun _ _ hd => .error hd
  rintro _ _ @⟨_, _, afterIn, afterIn', hin, _, _, h⟩
  dsimp only
  refine (expression_alike h).elim ?_ fun _ _ hd => .error hd
  rintro _ _ @⟨body, body', rest, rest', _, _, hbody, h⟩
  refine .ok ⟨?_, h⟩
  rw [Expr.Same, Expr.bare_binding, Expr.bare_binding, hsame, hvalue, hbody]
termination_by 5 * ts.length
decreasing_by all_goals omega

/-- **Tokens of the same kinds are read alike**, and what is left has the same kinds again. -/
theorem expression_alike : ∀ {ts ts' : List Token}, kinds ts = kinds ts' →
    Alike (Leaves Expr.Same) (expression stop ts) (expression stop' ts')
  | [], ts', h => by
    have hpipeline := pipeline_alike h
    obtain rfl := Token.eq_nil_of_kinds h.symm
    unfold expression
    exact hpipeline
  | ⟨kind, span⟩ :: ts, ts', h => by
    have hpipeline := pipeline_alike h
    obtain ⟨span', us, rfl, hus⟩ := Token.eq_cons_of_kinds h.symm
    unfold expression
    cases kind with
    | letWord =>
      dsimp only
      refine (binding_alike hus.symm span span').elim ?_ fun _ _ hd => .error hd
      rintro _ _ @⟨e, e', final, final', _, _, he, hfinal⟩
      exact .ok ⟨he, hfinal⟩
    | _ => exact hpipeline
termination_by ts => 5 * ts.length + 4
decreasing_by
  · omega
  · omega
  · simp only [List.length_cons]; omega

end

/-! ## Whole programs -/

theorem kinds_beforeEof (h : kinds ts = kinds ts') :
    kinds (beforeEof ts) = kinds (beforeEof ts') := by
  induction ts generalizing ts' with
  | nil => rw [Token.eq_nil_of_kinds h.symm]
  | cons t ts ih =>
    obtain ⟨span', us, rfl, hus⟩ := Token.eq_cons_of_kinds h.symm
    have hsame : Token.isEof ⟨t.kind, span'⟩ = t.isEof := rfl
    unfold beforeEof at ih ⊢
    rw [List.takeWhile_cons, List.takeWhile_cons, hsame]
    split
    · exact List.cons_eq_cons.mpr ⟨rfl, ih hus.symm⟩
    · rfl

end Parser

/-- **Places play no part in what is read.** Lists of tokens of the same kinds make the same
expression but for its places, or fail with the same diagnostic but for its place. -/
theorem Expr.ofTokens_alike {ts ts' : List Token} (h : Token.kinds ts = Token.kinds ts') :
    Alike Expr.Same (ofTokens ts) (ofTokens ts') := by
  unfold ofTokens
  dsimp only
  refine (Parser.expression_alike (Parser.kinds_beforeEof h)).elim ?_ fun _ _ hd => .error hd
  rintro _ _ @⟨e, e', rest, rest', _, _, he, hrest⟩
  have hunexpected := Parser.bare_unexpected (Parser.eofSpan ts) (Parser.eofSpan ts') hrest
    TokenKind.eof.describe "program"
  rcases rest with _ | ⟨t, rest⟩
  · obtain rfl := Token.eq_nil_of_kinds hrest.symm
    exact .ok he
  · obtain ⟨span', us, rfl, hus⟩ := Token.eq_cons_of_kinds hrest.symm
    exact .error hunexpected

end SignalLab
