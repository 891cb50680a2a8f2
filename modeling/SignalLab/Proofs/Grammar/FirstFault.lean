import Mathlib
import SignalLab.Proofs.Grammar.Failing
import SignalLab.Proofs.Grammar.Following
import SignalLab.Proofs.Grammar.Source

/-!
# A source text is refused at its first impossible token

A token that the parser did not want is the first one with which no sentence goes on: the tokens
before it begin a sentence and those up to it begin none (`Expr.parse_refuses_first_impossible`). A
pipe into something that cannot be piped into is refused when its right side has been read, and is
left aside.

## Shape of the argument

Where a rule fails, a reader that takes one token at a time is stuck (`expression_stops`), whatever
is open around the rule. What was read before is completed to a derivation, beginning with the rule
that failed and going outwards.
-/

namespace SignalLab

open SignalLab.Grammar (Stuck StuckFrom Viable)

/-- The diagnostic is about what stands to the right of a pipe. -/
def Diagnostic.IsAboutPipe (d : Diagnostic) : Prop :=
  ∃ want got span, d = .token want got "pipeline" span

namespace Parser

variable {stop : Span} {ts us rest : List Token} {d : Diagnostic} {kind : TokenKind}
  {context : String}

/-! ## Where a rule fails -/

/-- A rule fails at the token before `rest`, when it has read `us`. -/
structure FailsAt (stop : Span) (ts us rest : List Token) (d : Diagnostic) : Prop where
  split : ts = us ++ rest
  unexpected : ∃ want context, d = Parser.unexpected stop want context rest

/-- A rule that reads on fails where the rule after it does. -/
theorem FailsAt.behind (h : FailsAt stop ts us rest d) (vs : List Token) :
    FailsAt stop (vs ++ ts) (vs ++ us) rest d :=
  ⟨by rw [h.split, List.append_assoc], h.unexpected⟩

theorem failsAt_unexpected (want context : String) :
    FailsAt stop ts [] ts (unexpected stop want context ts) := ⟨rfl, want, context, rfl⟩

theorem failsAt_of_expect (h : expect stop kind context ts = .error d) :
    FailsAt stop ts [] ts d := by
  rw [expect_error h]
  exact failsAt_unexpected _ _

/-- A token that was not found is not there. -/
theorem nextKind_ne_of_expect (h : expect stop kind context ts = .error d) (hkind : kind ≠ .eof) :
    nextKind ts ≠ kind := by
  rintro hnext
  rcases ts with _ | ⟨t, ts⟩
  · exact hkind hnext.symm
  · rw [expect, if_pos (show t.kind = kind from hnext)] at h
    cases h

/-- An expression that completes a derivation. -/
def filler : Grammar.Expression := .pipeline (.application (.atom (.literal 0)))

theorem filler_appliesNames : filler.AppliesNames := by
  simp [filler, Grammar.Expression.AppliesNames, Grammar.Pipeline.AppliesNames,
    Grammar.Application.AppliesNames, Grammar.Atom.AppliesNames]

/-- An expression fails where a reader is stuck, and what was read before begins one. -/
def ExpressionStops (stop : Span) (ts : List Token) (d : Diagnostic) : Prop :=
  ∃ us rest, FailsAt stop ts us rest d ∧
    (∃ e : Grammar.Expression, e.AppliesNames ∧ Token.kinds us <+: e.tokens) ∧
    ∀ sole, Stuck (Token.kinds us) (.start true sole) (nextKind rest)

/-- A binding fails where a reader is stuck that has seen the word before it. -/
def BindingStops (stop : Span) (ts : List Token) (d : Diagnostic) : Prop :=
  ∃ us rest, FailsAt stop ts us rest d ∧
    (∃ e : Grammar.Expression, e.AppliesNames ∧ .letWord :: Token.kinds us <+: e.tokens) ∧
    Stuck (Token.kinds us) .afterLet (nextKind rest)

/-! ## Bindings that are not finished

What is missing from a binding is completed by `filler`. A reader has one more thing open in the
value of a binding, and nothing more in its body. -/

section Binding

variable {name : String} {atName atEquals atIn : Span} {e : Expr}

theorem binding_appliesNames (name : String) {v b : Grammar.Expression} (hv : v.AppliesNames)
    (hb : b.AppliesNames) : (Grammar.Expression.binding name v b).AppliesNames := by
  rw [Grammar.Expression.AppliesNames]
  exact ⟨hv, hb⟩

/-- No name follows the word that begins a binding. -/
theorem bindingStops_of_name (h : expectName stop context ts = .error d) :
    BindingStops stop ts d := by
  obtain ⟨hno, rfl⟩ := expectName_error h
  refine ⟨[], ts, failsAt_unexpected _ _,
    ⟨_, binding_appliesNames "" filler_appliesNames filler_appliesNames, ?_⟩,
    fun pending => ⟨_, rfl, ?_⟩⟩
  · rw [Grammar.Expression.tokens]
    exact (List.prefix_cons_inj _).mpr List.nil_prefix
  · rcases ts with _ | ⟨⟨kind, span⟩, ts⟩
    · rfl
    · cases kind with
      | reference name => exact absurd rfl (hno name span ts)
      | _ => rfl

/-- Nothing is said to equal the name. -/
theorem bindingStops_of_equals (h : expect stop .equals context rest = .error d) :
    BindingStops stop (⟨.reference name, atName⟩ :: rest) d := by
  have hne := nextKind_ne_of_expect h nofun
  refine ⟨[_], rest, (failsAt_of_expect h).behind [_],
    ⟨_, binding_appliesNames name filler_appliesNames filler_appliesNames, ?_⟩,
    fun pending => ⟨_, rfl, ?_⟩⟩
  · rw [Grammar.Expression.tokens]
    exact List.prefix_append [_, _] _
  · generalize nextKind rest = kind at hne
    cases kind with
    | equals => exact absurd rfl hne
    | _ => rfl

theorem ExpressionStops.inValue (h : ExpressionStops stop ts d) :
    BindingStops stop (⟨.reference name, atName⟩ :: ⟨.equals, atEquals⟩ :: ts) d := by
  obtain ⟨us, rest, hfails, ⟨v, hv, hbegins⟩, hstuck⟩ := h
  refine ⟨_ :: _ :: us, rest, hfails.behind [_, _],
    ⟨_, binding_appliesNames name hv filler_appliesNames, ?_⟩,
    fun pending => hstuck false (.value :: pending)⟩
  rw [Grammar.Expression.tokens]
  simp only [Token.kinds_cons, List.prefix_cons_inj]
  exact hbegins.trans (List.prefix_append _ _)

/-- The value is not followed by a body. -/
theorem bindingStops_of_in (hvalue : Yields (expression stop ts) e rest)
    (h : expect stop .inWord context rest = .error d) :
    BindingStops stop (⟨.reference name, atName⟩ :: ⟨.equals, atEquals⟩ :: ts) d := by
  obtain ⟨us, rfl, ⟨v, hv, htokens⟩, hstuck⟩ := expression_ends hvalue
  have hfails := (failsAt_of_expect h).behind us
  rw [List.append_nil] at hfails
  refine ⟨_ :: _ :: us, rest, hfails.behind [_, _],
    ⟨_, binding_appliesNames name hv filler_appliesNames, ?_⟩,
    fun pending => hstuck false (.value :: pending) (nextKind_ne_of_expect h nofun)⟩
  rw [Grammar.Expression.tokens]
  simp only [Token.kinds_cons, List.prefix_cons_inj, htokens]
  exact List.prefix_append _ _

theorem ExpressionStops.inBody
    (hvalue : Yields (expression stop ts) e (⟨.inWord, atIn⟩ :: us))
    (h : ExpressionStops stop us d) :
    BindingStops stop (⟨.reference name, atName⟩ :: ⟨.equals, atEquals⟩ :: ts) d := by
  obtain ⟨us, rest, hfails, ⟨b, hb, hbegins⟩, hstuck⟩ := h
  obtain ⟨vs, more, rfl, -, -, hvs⟩ := expression_leads hvalue
  obtain ⟨v, hv, htokens⟩ := expression_derives hvalue
  refine ⟨⟨.reference name, atName⟩ :: ⟨.equals, atEquals⟩ :: (vs ++ ⟨.inWord, atIn⟩ :: us), rest,
    ((hfails.behind [_]).behind vs).behind [_, _], ⟨_, binding_appliesNames name hv hb, ?_⟩,
    fun pending => ?_⟩
  · rw [Grammar.Expression.tokens, htokens]
    simp only [Token.kinds_cons, Token.kinds_append, List.prefix_cons_inj]
    exact (List.prefix_append_right_inj _).mpr ((List.prefix_cons_inj _).mpr hbegins)
  · obtain ⟨s, hs, hnone⟩ := hstuck false pending
    refine ⟨s, ?_, hnone⟩
    simp only [Token.kinds_cons, Token.kinds_append]
    exact (Grammar.foldlM_binding (hvs false) name _ pending).trans hs

end Binding

/-! ## Every failure is at a token where a reader is stuck -/

mutual

/-- Where an atom fails a reader is stuck that does not expect a binding, and so is one that expects
an argument if the tokens begin with an atom at all. -/
theorem atom_stops {ts : List Token} (h : atom stop ts = .error d) (hd : ¬ d.IsAboutPipe) :
    ∃ us rest, FailsAt stop ts us rest d ∧
      (∃ a : Grammar.Atom, a.AppliesNames ∧ Token.kinds us <+: a.tokens) ∧
      (∀ sole, Stuck (Token.kinds us) (.start false sole) (nextKind rest)) ∧
      (startsAtom ts = true →
        ∀ alone, Stuck (Token.kinds us) (.behind true alone) (nextKind rest)) := by
  rcases atom_error h with ⟨hstarts, rfl⟩ | ⟨first, ts', hts, hinside⟩
  · refine ⟨[], ts, failsAt_unexpected _ _, ⟨.literal 0, ?_, List.nil_prefix⟩,
      fun sole pending => ?_, fun htrue => ?_⟩
    · rw [Grammar.Atom.AppliesNames]
      trivial
    · rw [startsAtom_eq, ← startsAtom_nextKind] at hstarts
      exact ⟨_, rfl, Grammar.advance_start_eq_none hstarts⟩
    · rw [hstarts] at htrue
      cases htrue
  · have hshorter : ts'.length < ts.length := by
      rw [hts, List.length_cons]
      exact Nat.lt_succ_self _
    -- the place of the parenthesis matters only for what is read behind it
    obtain ⟨us, rest, hfails, ⟨e, he, hbegins⟩, hstuck⟩ : ∃ us rest, FailsAt stop ts' us rest d ∧
        (∃ e : Grammar.Expression, e.AppliesNames ∧ Token.kinds us <+: e.tokens) ∧
        ∀ pending, Grammar.closer pending = .closing →
          StuckFrom (pending, .start true true) (Token.kinds us) (nextKind rest) := by
      rcases hinside with hinner | ⟨e, rest, hinner, hclosing⟩
      · obtain ⟨us, rest, hfails, hbegins, hstuck⟩ := expression_stops hinner hd
        exact ⟨us, rest, hfails, hbegins, fun pending _ => hstuck true pending⟩
      · obtain ⟨us, rfl, ⟨e', he', htokens⟩, hstuck⟩ := expression_ends hinner
        have hfails := (failsAt_of_expect hclosing).behind us
        rw [List.append_nil] at hfails
        refine ⟨us, rest, hfails, ⟨e', he', htokens ▸ List.prefix_rfl⟩, fun pending hpending => ?_⟩
        exact hstuck true pending (hpending ▸ nextKind_ne_of_expect hclosing nofun)
    refine ⟨⟨.opening, first⟩ :: us, rest, hts ▸ hfails.behind [_], ⟨.group e, ?_, ?_⟩,
      fun sole pending => hstuck (.head sole :: pending) rfl,
      fun _ alone pending => hstuck (.argument :: pending) rfl⟩
    · rwa [Grammar.Atom.AppliesNames]
    · rw [Grammar.Atom.tokens]
      exact (List.prefix_cons_inj _).mpr (hbegins.trans (List.prefix_append _ _))
termination_by 5 * ts.length
decreasing_by all_goals omega

theorem atoms_stops {ts : List Token} (h : atoms stop ts = .error d) (hd : ¬ d.IsAboutPipe) :
    ∃ us rest, FailsAt stop ts us rest d ∧
      (∃ as : Grammar.Arguments, as.AppliesNames ∧ Token.kinds us <+: as.tokens) ∧
      ∀ alone, Stuck (Token.kinds us) (.behind true alone) (nextKind rest) := by
  obtain ⟨hstarts, hatom | ⟨e, mid, hatom, hatoms⟩⟩ := atoms_error h
  · obtain ⟨us, rest, hfails, ⟨a, ha, hbegins⟩, -, hstuck⟩ := atom_stops hatom hd
    refine ⟨us, rest, hfails, ⟨.one a, ?_, ?_⟩, hstuck hstarts⟩
    · rwa [Grammar.Arguments.AppliesNames]
    · rwa [Grammar.Arguments.tokens]
  · have hshorter := hatom.length_lt
    obtain ⟨vs, rfl, -, hvs⟩ := atom_leads hatom
    obtain ⟨a, htree, htokens⟩ := atom_derives hatom
    obtain ⟨us, rest, hfails, ⟨as, has, hbegins⟩, hstuck⟩ := atoms_stops hatoms hd
    refine ⟨vs ++ us, rest, hfails.behind vs, ⟨.more a as, ?_, ?_⟩, fun alone => ?_⟩
    · rw [Grammar.Arguments.AppliesNames]
      exact ⟨a.appliesNames_of_tree? htree, has⟩
    · rw [Grammar.Arguments.tokens, htokens, Token.kinds_append]
      exact (List.prefix_append_right_inj _).mpr hbegins
    · rw [Token.kinds_append]
      exact (hvs alone).stuck (hstuck false)
termination_by 5 * ts.length + 1

theorem application_stops {ts : List Token} (h : application stop ts = .error d)
    (hd : ¬ d.IsAboutPipe) :
    ∃ us rest, FailsAt stop ts us rest d ∧
      (∃ a : Grammar.Application, a.AppliesNames ∧ Token.kinds us <+: a.tokens) ∧
      ∀ sole, Stuck (Token.kinds us) (.start false sole) (nextKind rest) := by
  rcases application_error h with hatom | ⟨span, name, mid, hatom, hatoms⟩
  · obtain ⟨us, rest, hfails, ⟨a, ha, hbegins⟩, hstuck, -⟩ := atom_stops hatom hd
    refine ⟨us, rest, hfails, ⟨.atom a, ?_, ?_⟩, hstuck⟩
    · rwa [Grammar.Application.AppliesNames]
    · rwa [Grammar.Application.tokens]
  · have hshorter := hatom.length_lt
    obtain ⟨vs, rfl, hvs, -⟩ := atom_leads hatom
    obtain ⟨head, htree, htokens⟩ := atom_derives hatom
    obtain ⟨us, rest, hfails, ⟨as, has, hbegins⟩, hstuck⟩ := atoms_stops hatoms hd
    refine ⟨vs ++ us, rest, hfails.behind vs, ⟨.apply head as, ?_, ?_⟩, fun sole => ?_⟩
    · rw [Expr.bare_reference] at htree
      rw [Grammar.Application.AppliesNames]
      exact ⟨head.appliesNames_of_tree? htree, ⟨_, _, htree⟩, has⟩
    · rw [Grammar.Application.tokens, htokens, Token.kinds_append]
      exact (List.prefix_append_right_inj _).mpr hbegins
    · rw [Token.kinds_append]
      exact (hvs false sole).stuck (hstuck _)
termination_by 5 * ts.length + 2

/-- Where pipes fail the derivation of what stands to the left of them is added to. -/
theorem pipes_stops {ts : List Token} {left : Expr} (h : pipes stop left ts = .error d)
    (hd : ¬ d.IsAboutPipe) :
    ∃ us rest, FailsAt stop ts us rest d ∧
      (∀ l : Grammar.Pipeline, l.AppliesNames →
        ∃ p : Grammar.Pipeline, p.AppliesNames ∧ l.tokens ++ Token.kinds us <+: p.tokens) ∧
      ∀ more alone, Stuck (Token.kinds us) (.behind more alone) (nextKind rest) := by
  obtain ⟨span, ts', hts, hfails⟩ := pipes_error h
  have hpipe : ts'.length < ts.length := by
    rw [hts, List.length_cons]
    exact Nat.lt_succ_self _
  rcases hfails with hright | ⟨right, mid, hright, hjoined | ⟨joined, -, hpipes⟩⟩
  · obtain ⟨us, rest, hfails, ⟨a, ha, hbegins⟩, hstuck⟩ := application_stops hright hd
    refine ⟨⟨.pipe, span⟩ :: us, rest, hts ▸ hfails.behind [_], fun l hl => ?_,
      fun more alone => ?_⟩
    · refine ⟨.pipe l a, ?_, ?_⟩
      · rw [Grammar.Pipeline.AppliesNames]
        exact ⟨hl, ha⟩
      · rw [Grammar.Pipeline.tokens, Token.kinds_cons]
        exact (List.prefix_append_right_inj _).mpr ((List.prefix_cons_inj _).mpr hbegins)
    · exact fun pending => hstuck false pending
  · exact absurd ⟨_, _, _, pipeInto_error hjoined⟩ hd
  · have hshorter := hright.length_lt
    obtain ⟨vs, more', rfl, -, hvs⟩ := application_leads hright
    obtain ⟨a, ha, htokens⟩ := application_derives hright
    obtain ⟨us, rest, hfails, hleft, hstuck⟩ := pipes_stops hpipes hd
    refine ⟨⟨.pipe, span⟩ :: vs ++ us, rest, hts ▸ hfails.behind (_ :: vs), fun l hl => ?_,
      fun more alone => ?_⟩
    · obtain ⟨p, hp, hbegins⟩ := hleft (.pipe l a) (by
        rw [Grammar.Pipeline.AppliesNames]
        exact ⟨hl, ha⟩)
      refine ⟨p, hp, ?_⟩
      rw [Grammar.Pipeline.tokens, htokens] at hbegins
      simpa using hbegins
    · rw [Token.kinds_append, Token.kinds_cons]
      exact (hvs false false).pipe.stuck (hstuck _ _)
termination_by 5 * ts.length
decreasing_by all_goals omega

theorem pipeline_stops {ts : List Token} (h : pipeline stop ts = .error d) (hd : ¬ d.IsAboutPipe) :
    ∃ us rest, FailsAt stop ts us rest d ∧
      (∃ p : Grammar.Pipeline, p.AppliesNames ∧ Token.kinds us <+: p.tokens) ∧
      ∀ sole, Stuck (Token.kinds us) (.start false sole) (nextKind rest) := by
  rcases pipeline_error h with hfirst | ⟨first, mid, hfirst, hpipes⟩
  · obtain ⟨us, rest, hfails, ⟨a, ha, hbegins⟩, hstuck⟩ := application_stops hfirst hd
    refine ⟨us, rest, hfails, ⟨.application a, ?_, ?_⟩, hstuck⟩
    · rwa [Grammar.Pipeline.AppliesNames]
    · rwa [Grammar.Pipeline.tokens]
  · have hshorter := hfirst.length_lt
    obtain ⟨vs, more, rfl, -, hvs⟩ := application_leads hfirst
    obtain ⟨a, ha, htokens⟩ := application_derives hfirst
    obtain ⟨us, rest, hfails, hleft, hstuck⟩ := pipes_stops hpipes hd
    refine ⟨vs ++ us, rest, hfails.behind vs, ?_, fun sole => ?_⟩
    · rw [Token.kinds_append, ← htokens, ← Grammar.Pipeline.tokens]
      exact hleft (.application a) (by rwa [Grammar.Pipeline.AppliesNames])
    · rw [Token.kinds_append]
      exact (hvs false sole).stuck (hstuck _ _)
termination_by 5 * ts.length + 3

theorem binding_stops {ts : List Token} {keyword : Span} (h : binding stop keyword ts = .error d)
    (hd : ¬ d.IsAboutPipe) : BindingStops stop ts d := by
  rcases binding_error h with hname | ⟨name, afterName, hname, hequals |
    ⟨atEquals, afterEquals, hequals, hvalue | ⟨value, afterValue, hvalue, hin |
      ⟨atIn, afterIn, hin, hbody⟩⟩⟩⟩
  · exact bindingStops_of_name hname
  · obtain ⟨atName, rfl⟩ := expectName_yields_iff.mp hname
    exact bindingStops_of_equals hequals
  · have hshorter : afterEquals.length < ts.length := Nat.lt_trans hequals.1 hname.1
    have hstops := expression_stops hvalue hd
    obtain ⟨atName, rfl⟩ := expectName_yields_iff.mp hname
    obtain rfl := expect_yields_iff.mp hequals
    exact hstops.inValue
  · obtain ⟨atName, rfl⟩ := expectName_yields_iff.mp hname
    obtain rfl := expect_yields_iff.mp hequals
    exact bindingStops_of_in hvalue hin
  · have hshorter : afterIn.length < ts.length :=
      Nat.lt_trans hin.1 (Nat.lt_trans hvalue.1 (Nat.lt_trans hequals.1 hname.1))
    have hstops := expression_stops hbody hd
    obtain ⟨atName, rfl⟩ := expectName_yields_iff.mp hname
    obtain rfl := expect_yields_iff.mp hequals
    obtain rfl := expect_yields_iff.mp hin
    exact hstops.inBody hvalue
termination_by 5 * ts.length
decreasing_by all_goals omega

/-- **Where an expression fails a reader is stuck**, and what was read before begins one. -/
theorem expression_stops {ts : List Token} (h : expression stop ts = .error d)
    (hd : ¬ d.IsAboutPipe) : ExpressionStops stop ts d := by
  rcases expression_error h with ⟨keyword, ts', hts, hbinding⟩ | ⟨hno, hpipeline⟩
  · have hshorter : ts'.length < ts.length := by
      rw [hts, List.length_cons]
      exact Nat.lt_succ_self _
    obtain ⟨us, rest, hfails, hbegins, hstuck⟩ := binding_stops hbinding hd
    exact ⟨⟨.letWord, keyword⟩ :: us, rest, hts ▸ hfails.behind [_], hbegins,
      fun sole pending => hstuck pending⟩
  · obtain ⟨us, rest, hfails, ⟨p, hp, hbegins⟩, hstuck⟩ := pipeline_stops hpipeline hd
    refine ⟨us, rest, hfails, ⟨.pipeline p, ?_, ?_⟩, fun sole => (hstuck sole).of_pipe ?_⟩
    · rwa [Grammar.Expression.AppliesNames]
    · rwa [Grammar.Expression.tokens]
    · -- at the front no binding begins, or the parser would have gone into it
      intro hus hnext
      obtain rfl := Token.eq_nil_of_kinds hus
      rcases rest with _ | ⟨⟨_, keyword⟩, ts'⟩
      · cases hnext
      · obtain rfl := hnext
        exact hno keyword ts' hfails.split
termination_by 5 * ts.length + 4
decreasing_by all_goals omega

end

/-! ## Whole programs -/

/-- **A list of tokens is refused at its first impossible token**, unless something is piped into
that cannot be piped into. -/
theorem ofTokens_stops {ts : List Token} (h : Expr.ofTokens ts = .error d) (hd : ¬ d.IsAboutPipe) :
    ∃ us rest, FailsAt (eofSpan ts) (beforeEof ts) us rest d ∧ Viable (Token.kinds us) ∧
      ¬ Viable (Token.kinds us ++ [nextKind rest]) := by
  unfold Expr.ofTokens at h
  dsimp only at h
  split at h
  · next hexpression =>
    cases h
    obtain ⟨us, rest, hfails, ⟨e, he, hbegins⟩, hstuck⟩ := expression_stops hexpression hd
    refine ⟨us, rest, hfails, ⟨_, ⟨e, he, rfl⟩, hbegins.trans (List.prefix_append _ _)⟩, ?_⟩
    exact (hstuck true []).not_viable
  · cases h
  · next e rest hrest hempty hexpression =>
    cases h
    obtain ⟨us, hus, ⟨e', he', htokens⟩, hstuck⟩ := expression_ends ⟨hrest, hexpression⟩
    refine ⟨us, rest, ⟨hus, _, _, rfl⟩, ⟨_, ⟨e', he', rfl⟩, htokens ▸ List.prefix_append _ _⟩, ?_⟩
    refine (hstuck true [] ?_).not_viable
    -- a token is left, and those before the end of the text do not stand for it
    rcases rest with _ | ⟨t, rest⟩
    · exact (hempty rfl).elim
    · have ht : t ∈ beforeEof ts := by
        rw [hus]
        exact List.mem_append_right _ List.mem_cons_self
      have hnot := List.mem_takeWhile_imp ht
      rintro heq
      rw [Token.isEof, show t.kind = TokenKind.eof from heq] at hnot
      cases hnot

end Parser

/-- **A source text is refused at its first impossible token.** Unless something is piped into that
cannot be piped into, the tokens before the one at fault begin a sentence, and with it they begin
none. -/
theorem Expr.parse_refuses_first_impossible (source : String) (ts : List Token)
    (want got context : String) (span : Span) (hscan : Token.scan source = .ok ts)
    (hparse : Expr.parse source = .error (.token want got context span))
    (hcontext : context ≠ "pipeline") :
    ∃ before t after, ts = before ++ t :: after ∧ span = t.span ∧ got = t.kind.describe ∧
      Viable (Token.kinds before) ∧ ¬ Viable (Token.kinds (before ++ [t])) := by
  obtain ⟨us, hus, rfl⟩ := Token.scan_eq_ok_iff.mp hscan
  have hrefuses : Expr.ofTokens (us ++ [Token.atEnd 0 source.toList]) =
      .error (.token want got context span) := by
    rw [Expr.parse, hscan] at hparse
    exact hparse
  have hd : ¬ (Diagnostic.token want got context span).IsAboutPipe := by
    rintro ⟨want', got', span', heq⟩
    cases heq
    exact hcontext rfl
  obtain ⟨read, rest, ⟨hsplit, want', context', hunexpected⟩, hviable, hnot⟩ :=
    Parser.ofTokens_stops hrefuses hd
  rw [Parser.beforeEof_append_atEnd hus.isEof_eq_false] at hsplit
  rw [Parser.eofSpan_append_atEnd hus.isEof_eq_false] at hunexpected
  rcases rest with _ | ⟨t, rest⟩
  · -- nothing is left before the end of the text, which is then the token at fault
    cases hunexpected
    refine ⟨us, Token.atEnd 0 source.toList, [], rfl, rfl, rfl, ?_, ?_⟩
    · rwa [hsplit, List.append_nil]
    · rwa [hsplit, List.append_nil, Token.kinds_append]
  · cases hunexpected
    refine ⟨read, t, rest ++ [Token.atEnd 0 source.toList], by simp [hsplit], rfl, rfl, hviable, ?_⟩
    rwa [Token.kinds_append]

/-- What stands in the inner parentheses is applied already and takes no more arguments. -/
theorem Expr.parse_refuses_first_impossible_appliedTwice :
    let source := "neg ((close |> lag) price)"
    (∃ ts, Token.scan source = .ok ts ∧ ∃ before t after, ts = before ++ t :: after ∧
      t.span = ⟨20, 25⟩ ∧ "reference" = t.kind.describe ∧ Viable (Token.kinds before) ∧
      ¬ Viable (Token.kinds (before ++ [t]))) ∧
      parse source =
        .error (.token ")" "reference" "parenthesized expression" ⟨20, 25⟩) := by
  intro source
  have hscan : Token.scan source = .ok [⟨.reference "neg", ⟨0, 3⟩⟩, ⟨.opening, ⟨4, 5⟩⟩,
      ⟨.opening, ⟨5, 6⟩⟩, ⟨.reference "close", ⟨6, 11⟩⟩, ⟨.pipe, ⟨12, 14⟩⟩,
      ⟨.reference "lag", ⟨15, 18⟩⟩, ⟨.closing, ⟨18, 19⟩⟩, ⟨.reference "price", ⟨20, 25⟩⟩,
      ⟨.closing, ⟨25, 26⟩⟩, ⟨.eof, ⟨26, 26⟩⟩] := by
    cbv
  have hparse : parse source =
      .error (.token ")" "reference" "parenthesized expression" ⟨20, 25⟩) := by
    cbv
  obtain ⟨before, t, after, hsplit, hspan, hgot, hviable, hnot⟩ :=
    parse_refuses_first_impossible source _ _ _ _ _ hscan hparse (by decide)
  exact ⟨⟨_, hscan, before, t, after, hsplit, hspan.symm, hgot, hviable, hnot⟩, hparse⟩

end SignalLab
