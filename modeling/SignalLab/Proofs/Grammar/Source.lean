import SignalLab.Proofs.Grammar.Parsing
import SignalLab.Proofs.Token.Scanning

/-!
# From a source text to an expression

A text is accepted if it scans to tokens that a derivation writes, and what the derivation builds is
the answer (`Expr.parse_eq_ok_iff`). If a derivation writes only some of the tokens, then the part of
the text that they cover is accepted by itself, with the same expression moved to the front of it
(`Expr.exists_parse_slice`).
-/

namespace SignalLab

/-- The part of a text that a span holds. -/
def Span.slice (s : Span) (source : String) : String :=
  String.ofList ((source.toList.drop s.start).take s.length)

theorem Span.keepsMerge_shift (n : Nat) : KeepsMerge (Span.shift n) := by
  intro a b
  simp only [shift, merge, Span.mk.injEq]
  omega

/-- An expression is written with at least one token. -/
theorem Grammar.Expression.ne_nil_of_writes {d : Expression} {us : List Token} {e : Expr}
    (h : d.Writes us e) : us ≠ [] := by
  rintro rfl
  have htokens := (d.bare_of_writes h).1
  cases d with
  | binding name value body =>
    rw [tokens] at htokens
    cases htokens
  | pipeline p =>
    have hstarts := p.startsAtom_tokens []
    rw [List.append_nil, ← tokens, ← htokens] at hstarts
    cases hstarts

namespace Parser

theorem beforeEof_append_atEnd {us : List Token} (h : ∀ t ∈ us, t.isEof = false) (start : Nat)
    (cs : List Char) : beforeEof (us ++ [Token.atEnd start cs]) = us := by
  have hnone : ∀ t ∈ us, (!t.isEof) = true := fun t ht => by rw [h t ht]; rfl
  rw [beforeEof, List.takeWhile_append_of_pos hnone]
  exact List.append_nil us

theorem eofSpan_append_atEnd {us : List Token} (h : ∀ t ∈ us, t.isEof = false) (start : Nat)
    (cs : List Char) : eofSpan (us ++ [Token.atEnd start cs]) = (Token.atEnd start cs).span := by
  have hnone : us.find? Token.isEof = none := List.find?_eq_none.mpr fun t ht => by simp [h t ht]
  rw [eofSpan, List.find?_append, hnone]
  rfl

end Parser

namespace Expr

/-- **A text is read as the expression that a derivation builds with its tokens.** -/
theorem parse_eq_ok_iff {source : String} {e : Expr} :
    parse source = .ok e ↔
      ∃ (d : Grammar.Expression) (us : List Token),
        Token.Scans 0 source.toList us ∧ d.Writes us e := by
  constructor
  · intro h
    rcases hscan : Token.scan source with diagnostic | ts
    · rw [parse, hscan] at h
      cases h
    · rw [parse, hscan] at h
      obtain ⟨us, hus, rfl⟩ := Token.scan_eq_ok_iff.mp hscan
      have hread := Parser.ofTokens_eq_ok.mp h
      rw [Parser.beforeEof_append_atEnd hus.isEof_eq_false] at hread
      obtain ⟨d, vs, rfl, hwrites⟩ := Parser.expression_writes hread
      rw [List.append_nil] at hus
      exact ⟨d, vs, hus, hwrites⟩
  · rintro ⟨d, us, hus, hwrites⟩
    rw [parse, Token.scan_eq_ok_iff.mpr ⟨us, hus, rfl⟩]
    refine Parser.ofTokens_eq_ok.mpr ?_
    rw [Parser.beforeEof_append_atEnd hus.isEof_eq_false]
    generalize Parser.eofSpan (us ++ [Token.atEnd 0 source.toList]) = stop
    have hread : Parser.Yields (Parser.expression stop (us ++ [])) e [] :=
      Parser.expression_reads d [] hwrites Grammar.endsExpression_nil
    rwa [List.append_nil] at hread

/-- **What some of the tokens of a text write is what their part of the text is read as**, moved to
where that part stands. -/
theorem exists_parse_slice {source : String} {before us after : List Token}
    (hscans : Token.Scans 0 source.toList (before ++ us ++ after)) {d : Grammar.Expression}
    {e : Expr} (h : d.Writes us e) :
    ∃ e', parse ((Token.cover us).slice source) = .ok e' ∧
      e'.mapSpan (Span.shift (Token.cover us).start) = e := by
  obtain ⟨-, us', hus', hmoved⟩ := hscans.slice (Grammar.Expression.ne_nil_of_writes h)
  rw [← hmoved] at h
  obtain ⟨e', hwrites, he⟩ := d.writes_of_map (Span.keepsMerge_shift _) h
  refine ⟨e', parse_eq_ok_iff.mpr ⟨d, us', ?_, hwrites⟩, ?_⟩
  · rwa [Span.slice, String.toList_ofList]
  · exact he

end Expr

end SignalLab
