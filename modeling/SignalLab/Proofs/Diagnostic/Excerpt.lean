import SignalLab.Proofs.Compile.Faults
import SignalLab.Proofs.Text.Lines
import SignalLab.Proofs.Text.Trimming

/-!
# Diagnostics underline what is at fault

A diagnostic of a source text is shown as three lines (`Diagnostic.excerpt_underlines`): the line in
which its span starts, without the carriage returns at its end (`ShowsLine`), a row of carets under the
part of this line that the span covers (`Underlines`), and its message.
-/

namespace SignalLab

variable {cs line : List Char} {position offset column visible : Nat} {span : Span}
  {d : Diagnostic}

/-! ## Lines -/

/-- The line in which a position lies, as it is shown. The line feed that ends a line belongs to it, and
so does the end of the text to the last one. -/
def ShowsLine (cs : List Char) (position lineStart : Nat) (shown : List Char) : Prop :=
  ∃ before line behind returns, Text.IsLine cs before line behind ∧ before.length = lineStart ∧
    lineStart ≤ position ∧ position ≤ lineStart + line.length ∧
    line = shown ++ List.replicate returns '\r' ∧ shown.getLast? ≠ some '\r'

theorem visiblePart_eq (line : List Char) : visiblePart line = Text.dropWhileEnd (· == '\r') line :=
  rfl

/-- A line is its visible part with carriage returns behind it. -/
theorem exists_eq_visiblePart_append (line : List Char) :
    (∃ n, line = visiblePart line ++ List.replicate n '\r') ∧
      (visiblePart line).getLast? ≠ some '\r' := by
  rw [visiblePart_eq]
  constructor
  · obtain ⟨back, hback, hreturns⟩ := Text.exists_append_dropWhileEnd (· == '\r') line
    refine ⟨back.length, ?_⟩
    rwa [← List.eq_replicate_of_mem fun c hc => beq_iff_eq.mp (hreturns c hc)]
  · intro hlast
    have hne := Text.getLast?_dropWhileEnd (· == '\r') line '\r' hlast
    cases hne

/-- A position that lies in a text lies in the line that is looked up. -/
theorem exists_isLine_lineAt (cs : List Char) {position : Nat} (offset : Nat)
    (hstart : offset ≤ position) (hstop : position ≤ offset + cs.length) :
    ∃ before line behind, Text.IsLine cs before line behind ∧
      lineAt position offset (Text.splitLines cs) = (offset + before.length, line) ∧
      offset + before.length ≤ position ∧ position ≤ offset + before.length + line.length := by
  induction hlines : Text.splitLines cs generalizing cs offset with
  | nil => exact absurd hlines (List.splitOn_ne_nil _ _)
  | cons line more ih =>
    rcases Text.splitLines_cases cs with ⟨hcs, hsplit⟩ | ⟨first, rest, rfl, hfirst, hsplit⟩
    · obtain ⟨rfl, rfl⟩ := List.cons.inj (hsplit.symm.trans hlines)
      exact ⟨[], cs, [], ⟨by simp, by simp, hcs, by simp⟩, rfl, hstart, hstop⟩
    · obtain ⟨rfl, rfl⟩ := List.cons.inj (hsplit.symm.trans hlines)
      obtain ⟨second, more, hmore⟩ := List.exists_cons_of_ne_nil
        (show Text.splitLines rest ≠ [] from List.splitOn_ne_nil _ _)
      by_cases hfound : position ≤ offset + first.length
      · refine ⟨[], first, '\n' :: rest, ⟨rfl, by simp, hfirst, by simp⟩, ?_, hstart, hfound⟩
        rw [hmore, lineAt, if_pos hfound]
        · rfl
        · nofun
      · have hlength (cs : List Char) :
            (first ++ '\n' :: cs).length = first.length + 1 + cs.length := by
          rw [List.length_append, List.length_cons]
          omega
        rw [hlength] at hstop
        obtain ⟨before, line, behind, hline, hat, hbefore, hbehind⟩ :=
          ih rest (offset + first.length + 1) (by omega) (by omega) rfl
        refine ⟨_, line, behind, hline.behind_line, ?_, ?_, ?_⟩
        · rw [hmore, lineAt, if_neg hfound, ← hmore, hat, hlength]
          · simp only [Nat.add_assoc]
          · nofun
        · rw [hlength]
          omega
        · rw [hlength]
          omega

/-! ## Carets -/

/-- A row of carets under the part of a line that a span covers: the visible part, or if the span is
empty or begins behind it, the place where the span begins. -/
structure Underlines (row : List Char) (span : Span) (lineStart visible : Nat) : Prop where
  caret_iff : ∀ j, row[j]? = some '^' ↔
    if span.start < span.stop ∧ span.start - lineStart < visible then
      span.start ≤ lineStart + j ∧ lineStart + j < span.stop ∧ j < visible
    else j = span.start - lineStart
  blank : ∀ c ∈ row, c = '^' ∨ c = ' '
  last : row.getLast? = some '^'

theorem getElem?_carets_iff {count j : Nat} :
    (List.replicate column ' ' ++ List.replicate count '^')[j]? = some '^' ↔
      column ≤ j ∧ j < column + count := by
  rw [List.getElem?_append, List.length_replicate]
  split
  · next hlt => simp [hlt]
  · simp [List.getElem?_replicate]
    omega

theorem underlines_carets (visible : Nat) (hstart : offset ≤ span.start) :
    Underlines (List.replicate (span.start - offset) ' ' ++
      List.replicate (caretCount span (span.start - offset) visible) '^') span offset visible where
  caret_iff j := by
    rw [getElem?_carets_iff, caretCount, Span.length]
    split <;> omega
  blank c hc := by
    rcases List.mem_append.mp hc with hc | hc
    · exact .inr (List.eq_of_mem_replicate hc)
    · exact .inl (List.eq_of_mem_replicate hc)
  last := by
    have hpos : caretCount span (span.start - offset) visible ≠ 0 := by
      rw [caretCount]
      omega
    rw [List.getLast?_append, List.getLast?_replicate, if_neg hpos, Option.some_or]

/-! ## Excerpts -/

/-- An excerpt is three lines if the message is one. -/
theorem splitOn_lines {first second third : List Char} (hfirst : '\n' ∉ first)
    (hsecond : '\n' ∉ second) (hthird : '\n' ∉ third) :
    (first ++ '\n' :: (second ++ '\n' :: third)).splitOn '\n' = [first, second, third] := by
  rw [List.splitOn_append_cons_self_of_not_mem hfirst,
    List.splitOn_append_cons_self_of_not_mem hsecond, List.splitOn_eq_singleton hthird]

/-- What can be shown in a text is shown under the line in which it begins. -/
theorem Diagnostic.IsShownIn.excerpt {source : String} (h : d.IsShownIn source.length)
    (hspan : d.span? = some span) (hstart : span.start ≤ source.length) :
    ∃ lineStart shown carets, ShowsLine source.toList span.start lineStart shown ∧
      Underlines carets span lineStart shown.length ∧
      (d.excerpt source).toList.splitOn '\n' = [shown, carets, d.message.toList] := by
  obtain ⟨before, line, behind, hline, hat, hbefore, hbehind⟩ :=
    exists_isLine_lineAt source.toList 0 (Nat.zero_le span.start)
      (by rwa [Nat.zero_add, String.length_toList])
  rw [Nat.zero_add] at hat hbefore hbehind
  obtain ⟨⟨returns, hreturns⟩, hlast⟩ := exists_eq_visiblePart_append line
  have hcarets := underlines_carets (visiblePart line).length hbefore
  refine ⟨before.length, visiblePart line, _,
    ⟨before, line, behind, returns, hline, rfl, hbefore, hbehind, hreturns, hlast⟩, hcarets, ?_⟩
  have hshown : '\n' ∉ visiblePart line := by
    intro hmem
    refine hline.unbroken ?_
    rw [hreturns]
    exact List.mem_append_left _ hmem
  have hrow : '\n' ∉ List.replicate (span.start - before.length) ' ' ++
      List.replicate (caretCount span (span.start - before.length) (visiblePart line).length) '^' :=
    fun hmem => by rcases hcarets.blank _ hmem with hc | hc <;> cases hc
  have htext : (d.excerpt source).toList = visiblePart line ++ '\n' ::
      (List.replicate (span.start - before.length) ' ' ++
        List.replicate (caretCount span (span.start - before.length) (visiblePart line).length) '^' ++
          '\n' :: d.message.toList) := by
    rw [Diagnostic.excerpt, hspan]
    dsimp only
    rw [show lineAt span.start 0 (source.toList.splitOn '\n') = _ from hat]
    simp
  rw [htext]
  exact splitOn_lines hshown hrow h.oneLine

/-- **Diagnostics underline what is at fault.** Whatever source text is refused, its diagnostic has a
span in the text, and the excerpt is made of three lines: the line in which the span begins, without the
carriage returns at its end, carets under what the span covers of it, and the message. -/
theorem Diagnostic.excerpt_underlines {v : Vocabulary} {source : String}
    (h : compile v source = .error d) :
    ∃ span lineStart shown carets, d.span? = some span ∧ span.start ≤ span.stop ∧
      span.stop ≤ source.length ∧ ShowsLine source.toList span.start lineStart shown ∧
      Underlines carets span lineStart shown.length ∧
      (d.excerpt source).toList.splitOn '\n' = [shown, carets, d.message.toList] := by
  have hshown := isShownIn_of_compile h
  obtain ⟨span, hspan, hstart, hstop⟩ := hshown.place
  obtain ⟨lineStart, shown, carets, hline, hcarets, hlines⟩ :=
    hshown.excerpt hspan (Nat.le_trans hstart hstop)
  exact ⟨span, lineStart, shown, carets, hspan, hstart, hstop, hline, hcarets, hlines⟩

/-- A name that nothing binds, on a line that a return and a feed end. -/
theorem Diagnostic.excerpt_underlines_secondLine :
    let source := "let x = open in\r\n  mean foo x\r\n"
    let d : Diagnostic := .reference "foo" ⟨24, 27⟩
    compile (Vocabulary.standard (Series.constant 0.5)) source = .error d ∧
      d.excerpt source =
        "  mean foo x\n       ^^^\nUnknown reference 'foo' at position 24:27" ∧
      ∃ lineStart, ShowsLine source.toList 24 lineStart "  mean foo x".toList ∧
        Underlines "       ^^^".toList ⟨24, 27⟩ lineStart 12 := by
  intro source d
  have hparse : Expr.parse source = .ok (.binding ⟨0, 29⟩ "x" (.reference ⟨8, 12⟩ "open")
      (.application ⟨19, 29⟩ "mean" [.reference ⟨24, 27⟩ "foo", .reference ⟨28, 29⟩ "x"])) := by
    cbv
  have hcompile : compile (Vocabulary.standard (Series.constant 0.5)) source = .error d := by
    rw [compile, hparse]
    decide +kernel
  have hexcerpt : d.excerpt source =
      "  mean foo x\n       ^^^\nUnknown reference 'foo' at position 24:27" := by
    decide +kernel
  obtain ⟨span, lineStart, shown, carets, hspan, -, -, hline, hcarets, hlines⟩ :=
    excerpt_underlines hcompile
  cases hspan
  have hparts : "  mean foo x\n       ^^^\nUnknown reference 'foo' at position 24:27".toList.splitOn
      '\n' = ["  mean foo x".toList, "       ^^^".toList,
        "Unknown reference 'foo' at position 24:27".toList] := by
    decide +kernel
  have hlength : "  mean foo x".toList.length = 12 := by decide +kernel
  rw [hexcerpt] at hlines
  obtain ⟨rfl, hrest⟩ := List.cons.inj (hlines.symm.trans hparts)
  obtain ⟨rfl, -⟩ := List.cons.inj hrest
  rw [hlength] at hcarets
  exact ⟨hcompile, hexcerpt, lineStart, hline, hcarets⟩

end SignalLab
