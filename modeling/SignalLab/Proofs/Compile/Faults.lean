import SignalLab.Compile
import SignalLab.Proofs.Expr.Places
import SignalLab.Proofs.Expr.Printing
import SignalLab.Proofs.Grammar.Failing
import SignalLab.Proofs.Token.Passing

/-!
# What is wrong with a source text has a place in it

A source text is refused while it is cut into tokens, read, or lowered. All that can be said against
it then has a place in the text and takes one line (`isShownIn_of_compile`), unlike what can be said
against a malformed list of instructions: no source text is refused for that
(`ne_program_of_compile`).

## Shape of the argument

The parser looks at tokens of the text, or at its end (`Parser.Complains`). Lowering speaks of the
place and the name of a node (`Program.Blames`). The tokens lie in the text, a node covers some of
them, and the names of nodes are words.
-/

namespace SignalLab

variable {d : Diagnostic} {length : Nat}

/-! ## Messages -/

/-- A text of one line. -/
def OneLine (s : String) : Prop := '\n' ∉ s.toList

instance (s : String) : Decidable (OneLine s) := inferInstanceAs (Decidable (¬ _))

@[simp]
theorem oneLine_append {s t : String} : OneLine (s ++ t) ↔ OneLine s ∧ OneLine t := by
  simp [OneLine]

theorem oneLine_of_forall {s : String} {p : Char → Bool} (hp : p '\n' = false)
    (h : ∀ c ∈ s.toList, p c = true) : OneLine s := by
  intro hmem
  rw [h _ hmem] at hp
  cases hp

theorem oneLine_toString_char {c : Char} (hc : c ≠ '\n') : OneLine (toString c) := by
  change '\n' ∉ (String.singleton c).toList
  simpa using hc.symm

theorem oneLine_toString_nat (n : Nat) : OneLine (toString n) := by
  refine oneLine_of_forall (p := Char.isDigit) (by decide) fun c hc => ?_
  rw [Nat.toString_eq_repr, Nat.repr, String.toList_ofList] at hc
  exact Nat.isDigit_of_mem_toDigits (by decide) (by decide) hc

theorem Span.oneLine_text (s : Span) : OneLine s.text := by
  rw [text, oneLine_append, oneLine_append]
  exact ⟨⟨oneLine_toString_nat _, by decide⟩, oneLine_toString_nat _⟩

theorem TokenKind.oneLine_describe (k : TokenKind) : OneLine k.describe := by
  cases k <;> simp only [describe] <;> decide

theorem Expr.oneLine_describe (e : Expr) : OneLine e.describe := by
  cases e <;> simp only [describe] <;> decide

namespace Diagnostic

/-- A diagnostic can be shown in a text: it has a place there, and its message is one line. -/
structure IsShownIn (d : Diagnostic) (length : Nat) : Prop where
  place : ∃ span, d.span? = some span ∧ span.start ≤ span.stop ∧ span.stop ≤ length
  oneLine : OneLine d.message

variable {span : Span}

theorem isShownIn_character {c : Char} (hc : c ≠ '\n') (hspan : span.start ≤ span.stop)
    (hstop : span.stop ≤ length) : (character c span).IsShownIn length where
  place := ⟨span, rfl, hspan, hstop⟩
  oneLine := by
    change OneLine ("Unexpected character '" ++ toString c ++ "' at position " ++
      toString span.start)
    simp only [oneLine_append, oneLine_toString_char hc, oneLine_toString_nat, and_true]
    decide

theorem isShownIn_token {want got context : String} (hwant : OneLine want) (hgot : OneLine got)
    (hcontext : OneLine context) (hspan : span.start ≤ span.stop) (hstop : span.stop ≤ length) :
    (token want got context span).IsShownIn length where
  place := ⟨span, rfl, hspan, hstop⟩
  oneLine := by
    have hplace : OneLine (if context.isEmpty then "" else " in " ++ context) := by
      split
      · decide
      · exact oneLine_append.mpr ⟨by decide, hcontext⟩
    change OneLine ("Expected " ++ want ++ " but got '" ++ got ++ "'" ++
      (if context.isEmpty then "" else " in " ++ context) ++ " at position " ++ span.text)
    simp only [oneLine_append, hwant, hgot, hplace, span.oneLine_text, and_true]
    decide

theorem isShownIn_reference {name : String} (hname : OneLine name) (hspan : span.start ≤ span.stop)
    (hstop : span.stop ≤ length) : (reference name span).IsShownIn length where
  place := ⟨span, rfl, hspan, hstop⟩
  oneLine := by
    change OneLine ("Unknown reference '" ++ name ++ "' at position " ++ span.text)
    simp only [oneLine_append, hname, span.oneLine_text, and_true]
    decide

theorem isShownIn_application {name : String} (hname : OneLine name) (want got : Nat)
    (hspan : span.start ≤ span.stop) (hstop : span.stop ≤ length) :
    (application name want got span).IsShownIn length where
  place := ⟨span, rfl, hspan, hstop⟩
  oneLine := by
    have hnoun : OneLine (if want = 1 then "argument" else "arguments") := by
      split <;> decide
    change OneLine ("Application on '" ++ name ++ "' expects " ++ toString want ++ " " ++
      (if want = 1 then "argument" else "arguments") ++ " but got " ++ toString got ++
        " at position " ++ span.text)
    simp only [oneLine_append, hname, hnoun, oneLine_toString_nat, span.oneLine_text,
      and_true]
    decide

end Diagnostic

/-! ## Tokens -/

/-- A line feed is never the character that begins no token. -/
theorem Token.isShownIn_of_scan {source : String} (h : Token.scan source = .error d) :
    d.IsShownIn source.length := by
  obtain ⟨front, us, c, rest, hrefused, rfl⟩ := Token.scan_error_iff.mp h
  have hlength := congrArg List.length hrefused.parts
  rw [String.length_toList, List.length_append, List.length_cons] at hlength
  refine Diagnostic.isShownIn_character ?_ (Nat.le_succ _) ?_
  · rintro rfl
    have hgap := hrefused.misfit
    rw [← piece?_eq_none_iff] at hgap
    cases hgap
  · change front.length + 1 ≤ source.length
    omega

/-! ## Expressions -/

namespace Parser

variable {stop : Span} {ts us rest : List Token} {e : Expr}

/-- What the parser can say about tokens: that another one was wanted than the next of them, or that a
pipe leads into something that is not applied to anything. -/
inductive Complains (stop : Span) (ts : List Token) : Diagnostic → Prop
  | unexpected {want context : String} {rest : List Token} (hrest : rest ⊆ ts)
      (hwant : OneLine want) (hcontext : OneLine context) :
      Complains stop ts (unexpected stop want context rest)
  | pipe {span : Span} (right : Expr) (hpipe : ⟨.pipe, span⟩ ∈ ts) :
      Complains stop ts (.token "reference or application" right.describe "pipeline" span)

theorem Complains.mono (h : Complains stop ts d) (hts : ts ⊆ us) : Complains stop us d := by
  cases h with
  | unexpected hrest hwant hcontext =>
    exact .unexpected (List.Subset.trans hrest hts) hwant hcontext
  | pipe right hpipe => exact .pipe right (hts hpipe)

theorem subset_of_atom (h : Yields (atom stop ts) e rest) : rest ⊆ ts := by
  obtain ⟨-, us, rfl, -⟩ := atom_writes h
  exact List.subset_append_right us rest

theorem subset_of_application (h : Yields (application stop ts) e rest) : rest ⊆ ts := by
  obtain ⟨-, us, rfl, -⟩ := application_writes h
  exact List.subset_append_right us rest

theorem subset_of_expression (h : Yields (expression stop ts) e rest) : rest ⊆ ts := by
  obtain ⟨-, us, rfl, -⟩ := expression_writes h
  exact List.subset_append_right us rest

theorem complains_of_expect {kind : TokenKind} {context : String} (hcontext : OneLine context)
    (h : expect stop kind context ts = .error d) : Complains stop ts d := by
  rw [expect_error h]
  exact .unexpected (List.Subset.refl ts) kind.oneLine_describe hcontext

mutual

theorem complains_of_atom {ts : List Token} (h : atom stop ts = .error d) : Complains stop ts d := by
  rcases atom_error h with ⟨-, rfl⟩ | ⟨first, ts', hts, hinner | ⟨e, rest, hinner, hclosing⟩⟩
  · exact .unexpected (List.Subset.refl ts) (by decide) (by decide)
  · have hshorter : ts'.length < ts.length := by
      rw [hts, List.length_cons]
      exact Nat.lt_succ_self _
    exact (complains_of_expression hinner).mono (hts ▸ List.subset_cons_self _ _)
  · exact (complains_of_expect (by decide) hclosing).mono
      (List.Subset.trans (subset_of_expression hinner) (hts ▸ List.subset_cons_self _ _))
termination_by 5 * ts.length
decreasing_by omega

theorem complains_of_atoms {ts : List Token} (h : atoms stop ts = .error d) :
    Complains stop ts d := by
  obtain ⟨-, hatom | ⟨e, rest, hatom, hatoms⟩⟩ := atoms_error h
  · exact complains_of_atom hatom
  · have hshorter := hatom.length_lt
    exact (complains_of_atoms hatoms).mono (subset_of_atom hatom)
termination_by 5 * ts.length + 1

theorem complains_of_application {ts : List Token} (h : application stop ts = .error d) :
    Complains stop ts d := by
  rcases application_error h with hatom | ⟨span, name, rest, hatom, hatoms⟩
  · exact complains_of_atom hatom
  · have hshorter := hatom.length_lt
    exact (complains_of_atoms hatoms).mono (subset_of_atom hatom)
termination_by 5 * ts.length + 2

theorem complains_of_pipes {left : Expr} {ts : List Token} (h : pipes stop left ts = .error d) :
    Complains stop ts d := by
  obtain ⟨span, ts', hts, hfails⟩ := pipes_error h
  have hpipe : ts'.length < ts.length := by
    rw [hts, List.length_cons]
    exact Nat.lt_succ_self _
  have hbehind : ts' ⊆ ts := hts ▸ List.subset_cons_self _ _
  rcases hfails with hright | ⟨right, rest, hright, hjoined | ⟨joined, -, hpipes⟩⟩
  · exact (complains_of_application hright).mono hbehind
  · rw [pipeInto_error hjoined]
    exact .pipe right (hts ▸ List.mem_cons_self)
  · have hshorter := hright.length_lt
    exact (complains_of_pipes hpipes).mono
      (List.Subset.trans (subset_of_application hright) hbehind)
termination_by 5 * ts.length
decreasing_by all_goals omega

theorem complains_of_pipeline {ts : List Token} (h : pipeline stop ts = .error d) :
    Complains stop ts d := by
  rcases pipeline_error h with hfirst | ⟨first, rest, hfirst, hpipes⟩
  · exact complains_of_application hfirst
  · have hshorter := hfirst.length_lt
    exact (complains_of_pipes hpipes).mono (subset_of_application hfirst)
termination_by 5 * ts.length + 3

theorem complains_of_binding {keyword : Span} {ts : List Token}
    (h : binding stop keyword ts = .error d) : Complains stop ts d := by
  rcases binding_error h with hname | ⟨name, afterName, hname, hequals | ⟨atEquals, afterEquals,
    hequals, hvalue | ⟨value, afterValue, hvalue, hin | ⟨atIn, afterIn, hin, hbody⟩⟩⟩⟩
  · rw [(expectName_error hname).2]
    exact .unexpected (List.Subset.refl ts) (by decide) (by decide)
  all_goals
    obtain ⟨atName, hts⟩ := expectName_yields_iff.mp hname
    have hafterName : afterName ⊆ ts := hts ▸ List.subset_cons_self _ _
    have hshorter : ts.length = afterName.length + 1 := congrArg List.length hts
  · exact (complains_of_expect (by decide) hequals).mono hafterName
  all_goals
    have hafter := expect_yields_iff.mp hequals
    have hafterEquals : afterEquals ⊆ ts :=
      List.Subset.trans (hafter ▸ List.subset_cons_self _ _) hafterName
    have hshorter' : afterName.length = afterEquals.length + 1 := congrArg List.length hafter
  · exact (complains_of_expression hvalue).mono hafterEquals
  all_goals have hafterValue := List.Subset.trans (subset_of_expression hvalue) hafterEquals
  · exact (complains_of_expect (by decide) hin).mono hafterValue
  · have hbehind := expect_yields_iff.mp hin
    have hlt := hvalue.length_lt
    have hlt' : afterValue.length = afterIn.length + 1 := congrArg List.length hbehind
    exact (complains_of_expression hbody).mono
      (List.Subset.trans (hbehind ▸ List.subset_cons_self _ _) hafterValue)
termination_by 5 * ts.length
decreasing_by all_goals omega

theorem complains_of_expression {ts : List Token} (h : expression stop ts = .error d) :
    Complains stop ts d := by
  rcases expression_error h with ⟨keyword, ts', hts, hbinding⟩ | ⟨-, hpipeline⟩
  · have hshorter : ts'.length < ts.length := by
      rw [hts, List.length_cons]
      exact Nat.lt_succ_self _
    exact (complains_of_binding hbinding).mono (hts ▸ List.subset_cons_self _ _)
  · exact complains_of_pipeline hpipeline
termination_by 5 * ts.length + 4
decreasing_by all_goals omega

end

theorem complains_of_ofTokens (h : Expr.ofTokens ts = .error d) :
    Complains (eofSpan ts) (beforeEof ts) d := by
  unfold Expr.ofTokens at h
  dsimp only at h
  split at h
  · next hexpression =>
    cases h
    exact complains_of_expression hexpression
  · cases h
  · next rest hshorter _ hexpression =>
    cases h
    exact .unexpected (subset_of_expression ⟨hshorter, hexpression⟩) (by decide) (by decide)

/-- What the parser says can be shown in a text in which the tokens lie, and its end. -/
theorem Complains.isShownIn (h : Complains stop ts d)
    (hstop : stop.start ≤ stop.stop ∧ stop.stop ≤ length)
    (hts : ∀ t ∈ ts, t.span.start ≤ t.span.stop ∧ t.span.stop ≤ length) : d.IsShownIn length := by
  cases h with
  | @unexpected want context rest hrest hwant hcontext =>
    rcases rest with _ | ⟨t, rest⟩
    · exact Diagnostic.isShownIn_token hwant TokenKind.eof.oneLine_describe hcontext hstop.1 hstop.2
    · obtain ⟨hspan, hlength⟩ := hts t (hrest List.mem_cons_self)
      exact Diagnostic.isShownIn_token hwant t.kind.oneLine_describe hcontext hspan hlength
  | @pipe span right hpipe =>
    obtain ⟨hspan, hlength⟩ := hts _ hpipe
    exact Diagnostic.isShownIn_token (by decide) right.oneLine_describe (by decide) hspan hlength

end Parser

/-- What is wrong with the grammar of a source text can be shown in it. -/
theorem Expr.isShownIn_of_parse {source : String} (h : Expr.parse source = .error d) :
    d.IsShownIn source.length := by
  unfold Expr.parse at h
  split at h
  · next hscan =>
    cases h
    exact Token.isShownIn_of_scan hscan
  · next ts hscan =>
    obtain ⟨us, hus, rfl⟩ := Token.scan_eq_ok_iff.mp hscan
    have hbounds : ∀ t ∈ us, t.span.start ≤ t.span.stop ∧ t.span.stop ≤ source.length := by
      intro t ht
      have hbound := hus.bounds t ht
      rw [Nat.zero_add, String.length_toList] at hbound
      omega
    have hcomplains := Parser.complains_of_ofTokens h
    rw [Parser.beforeEof_append_atEnd hus.isEof_eq_false,
      Parser.eofSpan_append_atEnd hus.isEof_eq_false] at hcomplains
    refine hcomplains.isShownIn ?_ hbounds
    rw [Token.atEnd, Span.point, Nat.zero_add, String.length_toList]
    exact ⟨Nat.le_refl _, Nat.le_refl _⟩

/-! ## Programs -/

namespace Program

variable {v : Vocabulary}

/-- What lowering can say about a node: it names the name that stands there, and its place. -/
inductive Blames : Expr → Diagnostic → Prop
  | reference (span : Span) (name : String) : Blames (.reference span name) (.reference name span)
  | function (span : Span) (name : String) (arguments : List Expr) :
      Blames (.application span name arguments) (.reference name span)
  | application (span : Span) (name : String) (arguments : List Expr) (want got : Nat) :
      Blames (.application span name arguments) (.application name want got span)

theorem blames_of_applicationFault? {span : Span} {name : String} {arguments : List Expr} {got : Nat}
    (h : applicationFault? v span name got = some d) :
    Blames (.application span name arguments) d := by
  unfold applicationFault? at h
  split at h
  · cases h
    exact .function span name arguments
  · split at h <;> cases h
    exact .application span name arguments _ got

mutual

theorem exists_blames_of_lowerInto : ∀ (e : Expr) {scope : Scope} {p : Program},
    lowerInto v scope p e = .error d → ∃ node ∈ e.nodes, Blames node d
  | .literal _ value, scope, p, h => by
    rw [lowerInto] at h
    cases h
  | .reference span name, scope, p, h => by
    rw [lowerInto] at h
    rw [Expr.nodes]
    split at h <;> cases h
    exact ⟨_, List.mem_cons_self, .reference span name⟩
  | .application span name arguments, scope, p, h => by
    rw [lowerInto] at h
    rw [Expr.nodes]
    split at h
    · next hfault =>
      cases h
      exact ⟨_, List.mem_cons_self, blames_of_applicationFault? hfault⟩
    · split at h
      · next harguments =>
        cases h
        obtain ⟨node, hnode, hblames⟩ := exists_blames_of_lowerAll arguments harguments
        exact ⟨node, List.mem_cons_of_mem _ hnode, hblames⟩
      · cases h
  | .binding _ name value body, scope, p, h => by
    rw [lowerInto] at h
    rw [Expr.nodes]
    split at h
    · next hvalue =>
      cases h
      obtain ⟨node, hnode, hblames⟩ := exists_blames_of_lowerInto value hvalue
      exact ⟨node, List.mem_cons_of_mem _ (List.mem_append_left _ hnode), hblames⟩
    · obtain ⟨node, hnode, hblames⟩ := exists_blames_of_lowerInto body h
      exact ⟨node, List.mem_cons_of_mem _ (List.mem_append_right _ hnode), hblames⟩

theorem exists_blames_of_lowerAll : ∀ (es : List Expr) {scope : Scope} {p : Program},
    lowerAll v scope p es = .error d → ∃ node ∈ Expr.nodesAll es, Blames node d
  | [], scope, p, h => by
    rw [lowerAll] at h
    cases h
  | e :: rest, scope, p, h => by
    rw [lowerAll] at h
    rw [Expr.nodesAll]
    split at h
    · next he =>
      cases h
      obtain ⟨node, hnode, hblames⟩ := exists_blames_of_lowerInto e he
      exact ⟨node, List.mem_append_left _ hnode, hblames⟩
    · split at h
      · next hrest =>
        cases h
        obtain ⟨node, hnode, hblames⟩ := exists_blames_of_lowerAll rest hrest
        exact ⟨node, List.mem_append_right _ hnode, hblames⟩
      · cases h

end

theorem exists_blames_of_ofExpr {e : Expr} (h : ofExpr v e = .error d) :
    ∃ node ∈ e.nodes, Blames node d := by
  unfold ofExpr at h
  dsimp only at h
  split at h
  · next hlower =>
    cases h
    exact exists_blames_of_lowerInto e hlower
  · cases h

end Program

/-! ## Names and places of nodes -/

theorem Identifier.oneLine_text (name : Identifier) : OneLine name.text := by
  refine oneLine_of_forall (p := isWordPart) (by decide) ?_
  have hword := name.isWord
  rcases htext : name.text.toList with _ | ⟨c, front⟩
  · nofun
  · rw [htext, SignalLab.isWord, Bool.and_eq_true, List.all_eq_true] at hword
    refine List.forall_mem_cons.mpr ⟨?_, hword.2⟩
    rw [isWordPart, hword.1, Bool.true_or]

theorem Phrase.oneLine_of_reference {t : Phrase} {span : Span} {name : String}
    (h : t.expr = .reference span name) : OneLine name := by
  cases t with
  | reference identifier =>
    rw [Phrase.expr] at h
    cases h
    exact identifier.oneLine_text
  | _ =>
    rw [Phrase.expr] at h
    cases h

theorem Phrase.oneLine_of_application {t : Phrase} {span : Span} {name : String}
    {arguments : List Expr} (h : t.expr = .application span name arguments) : OneLine name := by
  cases t with
  | application identifier =>
    rw [Phrase.expr] at h
    cases h
    exact identifier.oneLine_text
  | _ =>
    rw [Phrase.expr] at h
    cases h

/-- A node of a program is the expression of a phrase and lies in the text. -/
theorem Expr.exists_phrase_of_mem_nodes {source : String} {e node : Expr}
    (h : Expr.parse source = .ok e) (hnode : node ∈ e.nodes) :
    (∃ t : Phrase, t.expr = node.bare) ∧ node.span.start ≤ node.span.stop ∧
      node.span.stop ≤ source.length := by
  obtain ⟨derivation, us, hscans, hwrites⟩ := parse_eq_ok_iff.mp h
  have hordered := hscans.ordered
  obtain ⟨mid, hmid, hstands⟩ := (derivation.stands hordered hwrites).exists_of_mem_nodes node hnode
  refine ⟨?_, ?_, ?_⟩
  · obtain ⟨part, hpart⟩ := hstands.exists_writes
    obtain ⟨htokens, htree⟩ := part.bare_of_writes hpart
    refine part.exists_phrase (fun k hk => ?_) htree
    rw [← htokens] at hk
    obtain ⟨t, ht, rfl⟩ := List.mem_map.mp hk
    exact hscans.writable _ (List.mem_map_of_mem (hmid.subset ht))
  · rw [hstands.span_eq]
    exact Nat.le_of_lt ((hordered.part hmid).cover_start_lt_stop hstands.ne_nil)
  · obtain ⟨t, ht, hstop⟩ := Token.exists_cover_stop_eq hstands.ne_nil
    have hbound := (hscans.bounds t (hmid.subset ht)).2.2
    rw [hstands.span_eq, hstop]
    rwa [Nat.zero_add, String.length_toList] at hbound

/-- What lowering says about a source text can be shown in it. -/
theorem Program.Blames.isShownIn {source : String} {e node : Expr} (h : Blames node d)
    (hparse : Expr.parse source = .ok e) (hnode : node ∈ e.nodes) : d.IsShownIn source.length := by
  obtain ⟨⟨t, ht⟩, hspan, hstop⟩ := Expr.exists_phrase_of_mem_nodes hparse hnode
  cases h with
  | reference span name =>
    rw [Expr.bare_reference] at ht
    exact Diagnostic.isShownIn_reference (Phrase.oneLine_of_reference ht) hspan hstop
  | function span name arguments =>
    rw [Expr.bare_application] at ht
    exact Diagnostic.isShownIn_reference (Phrase.oneLine_of_application ht) hspan hstop
  | application span name arguments want got =>
    rw [Expr.bare_application] at ht
    exact Diagnostic.isShownIn_application (Phrase.oneLine_of_application ht) want got hspan hstop

/-! ## Source texts -/

variable {v : Vocabulary} {source : String}

/-- **Whatever is wrong with a source text can be shown in it**, with any vocabulary. -/
theorem isShownIn_of_compile (h : compile v source = .error d) : d.IsShownIn source.length := by
  unfold compile at h
  split at h
  · next hparse =>
    cases h
    exact Expr.isShownIn_of_parse hparse
  · next e hparse =>
    obtain ⟨node, hnode, hblames⟩ := Program.exists_blames_of_ofExpr h
    exact hblames.isShownIn hparse hnode

/-- No source text is refused for a malformed list of instructions. -/
theorem ne_program_of_compile (h : compile v source = .error d) (fault : ProgramFault) :
    d ≠ .program fault := by
  rintro rfl
  obtain ⟨span, hspan, -⟩ := (isShownIn_of_compile h).place
  cases hspan

end SignalLab
