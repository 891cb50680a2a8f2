import SignalLab.Proofs.Grammar.Tape

/-!
# The parser goes forward and stays inside its tokens

Every rule that keeps its place ends, at a place that is not behind the first end of the text, and
behind the place where it began if it has read something (`Ends`). So do the turns of the two loops.

The rules `binding` and `grouped` take a first token without looking at it. Begun at the end of the
text they would leave it behind; they are begun only where the word or the parenthesis stands that
they are for (`Rule.Fits`). This and the bound on the place hold for every rule that a program
begins (`Reaches.within`), by induction over what has been begun before.
-/

namespace SignalLab.Cursor

variable {α β : Type} {front ts : List Token} {stop : Span} {s : Tape} {p q : Nat}

/-! ## One token -/

/-- What is not the end of the text has a place behind it that is not behind that end. -/
theorem next_within (hs : s.Begins front stop) (hp : p ≤ front.length)
    (hkind : (s.tokenAt p).kind ≠ .eof) : p < s.next p ∧ s.next p ≤ front.length := by
  obtain ⟨ts, hts⟩ := Remain.exists hp
  cases ts with
  | nil =>
    rw [hs.tokenAt_eq hts] at hkind
    exact absurd rfl hkind
  | cons t ts =>
    have hlength := hts.add_length
    rw [List.length_cons] at hlength
    rw [hs.next_eq hts]
    omega

/-! ## Readings that end -/

/-- On all tapes that begin with `front`, a reading comes to one end. It is not behind `front`, and
not where it began if something is read. -/
def Ends (front : List Token) (stop : Span) (r : Tape → Reading α) (p : Nat) : Prop :=
  ∃ answer q, (q ≤ front.length ∧ ∀ a, answer = .ok a → p < q) ∧
    ∀ s : Tape, s.Begins front stop → Reads (r s) p answer q

variable {r : Tape → Reading α} {a : α} {d : Diagnostic}

/-- What is read is one token at least if fewer tokens remain. -/
theorem Gets.ends {rest : List Token} (hp : Remain front p ts) (h : Gets front stop r p a rest)
    (hlt : rest.length < ts.length) : Ends front stop r p := by
  obtain ⟨q, hq, hr⟩ := h
  have hbegin := hp.add_length
  have hend := hq.add_length
  exact ⟨.ok a, q, ⟨by omega, fun _ _ => by omega⟩, hr⟩

theorem Fails.ends (h : Fails front stop r p d) : Ends front stop r p := by
  obtain ⟨q, hq, hr⟩ := h
  exact ⟨.error d, q, ⟨hq, nofun⟩, hr⟩

/-- What reads the same as a reading that ends does end. -/
theorem Ends.congr {r' : Tape → Reading α} (h : Ends front stop r p)
    (hreads : ∀ s : Tape, s.Begins front stop → ∀ answer q,
      Reads (r s) p answer q → Reads (r' s) p answer q) : Ends front stop r' p := by
  obtain ⟨answer, q, hwithin, hr⟩ := h
  exact ⟨answer, q, hwithin, fun s hs => hreads s hs answer q (hr s hs)⟩

/-- The reading at hand comes to the one end. -/
theorem Ends.within {answer : Except Diagnostic α} (h : Ends front stop r p)
    (hs : s.Begins front stop) (hreads : Reads (r s) p answer q) :
    q ≤ front.length ∧ ∀ a, answer = .ok a → p < q := by
  obtain ⟨answer', q', hwithin, hr⟩ := h
  obtain ⟨rfl, rfl⟩ := (hr s hs).unique hreads
  exact hwithin

/-- What is read as a rule of the library reads it ends, for such a rule uses up tokens. -/
theorem ends_of_parsed {parsed : Except Diagnostic (β × Parser.Rest ts)} {g : β → α}
    (hp : Remain front p ts)
    (hgets : ∀ b rest, Parser.Yields parsed b rest → Gets front stop r p (g b) rest)
    (hfails : ∀ d, parsed = .error d → Fails front stop r p d) : Ends front stop r p := by
  rcases h : parsed with d | ⟨b, rest, hlt⟩
  · exact (hfails d h).ends
  · exact (hgets b rest ⟨hlt, h⟩).ends hp hlt

theorem expect_ends {kind : TokenKind} (hp : p ≤ front.length) (context : String)
    (hkind : kind ≠ .eof) : Ends front stop (expect · kind context) p := by
  obtain ⟨ts, hts⟩ := Remain.exists hp
  exact ends_of_parsed hts (fun _ _ => expect_gets hts) fun _ h => expect_fails hts h hkind

theorem expectName_ends (hp : p ≤ front.length) (context : String) :
    Ends front stop (expectName · context) p := by
  obtain ⟨ts, hts⟩ := Remain.exists hp
  exact ends_of_parsed (g := id) hts (fun _ _ => expectName_gets hts) fun _ => expectName_fails hts

theorem atom_ends (hp : p ≤ front.length) : Ends front stop Rule.atom.read p := by
  obtain ⟨ts, hts⟩ := Remain.exists hp
  exact ends_of_parsed (g := id) hts (fun _ _ => atom_gets hts) fun _ => atom_fails hts

theorem application_ends (hp : p ≤ front.length) : Ends front stop Rule.application.read p := by
  obtain ⟨ts, hts⟩ := Remain.exists hp
  exact ends_of_parsed (g := id) hts (fun _ _ => application_gets hts) fun _ => application_fails hts

theorem pipeline_ends (hp : p ≤ front.length) : Ends front stop Rule.pipeline.read p := by
  obtain ⟨ts, hts⟩ := Remain.exists hp
  exact ends_of_parsed (g := id) hts (fun _ _ => pipeline_gets hts) fun _ => pipeline_fails hts

theorem expression_ends (hp : p ≤ front.length) : Ends front stop Rule.expression.read p := by
  obtain ⟨ts, hts⟩ := Remain.exists hp
  exact ends_of_parsed (g := id) hts (fun _ _ => expression_gets hts) fun _ => expression_fails hts

/-! ## Rules that are begun -/

/-- The token at which a rule may be begun, where it is not looked at by the rule itself. -/
def Rule.Fits : Rule → Token → Prop
  | .binding, t => t.kind = .letWord
  | .grouped, t => t.kind = .opening
  | _, _ => True

/-- What is done with the token that is looked at is done at the same place. -/
theorem reads_peek_bind_iff {f : Token → Reading α} {answer : Except Diagnostic α} :
    Reads (peek s >>= f) p answer q ↔ Reads (f (s.tokenAt p)) p answer q := by
  rw [Reads, run_bind, reads_peek, Part.bind_some]
  rfl

/-- An expression that begins with the word of a binding is read as one. -/
theorem reads_expression_iff (h : (s.tokenAt p).kind = .letWord) {answer : Except Diagnostic Expr} :
    Reads (Rule.expression.read s) p answer q ↔ Reads (Rule.binding.read s) p answer q := by
  rw [expression_eq, expressionWith, reads_peek_bind_iff, if_pos h]
  rfl

/-- An atom that begins with a parenthesis is read as an expression in parentheses. -/
theorem reads_atom_iff (h : (s.tokenAt p).kind = .opening) {answer : Except Diagnostic Expr} :
    Reads (Rule.atom.read s) p answer q ↔ Reads (Rule.grouped.read s) p answer q := by
  rw [atom_eq, atomWith, reads_peek_bind_iff, h]
  rfl

/-- **Every rule ends where it may be begun.** -/
theorem Rule.ends (rule : Rule) (hs : s.Begins front stop) (hp : p ≤ front.length)
    (hfits : rule.Fits (s.tokenAt p)) : Ends front stop rule.read p := by
  -- all tapes that begin alike have the same token there
  have htoken : ∀ s' : Tape, s'.Begins front stop → s'.tokenAt p = s.tokenAt p := by
    obtain ⟨ts, hts⟩ := Remain.exists hp
    intro s' hs'
    rw [hs'.tokenAt_eq hts, hs.tokenAt_eq hts]
  cases rule with
  | expression => exact expression_ends hp
  | pipeline => exact pipeline_ends hp
  | application => exact application_ends hp
  | atom => exact atom_ends hp
  | binding =>
    refine (expression_ends hp).congr fun s' hs' answer q => (reads_expression_iff ?_).mp
    rw [htoken s' hs']
    exact hfits
  | grouped =>
    refine (atom_ends hp).congr fun s' hs' answer q => (reads_atom_iff ?_).mp
    rw [htoken s' hs']
    exact hfits

/-! ## Turns of the loops -/

theorem ArgumentTurn.within (hs : s.Begins front stop) (hp : p ≤ front.length)
    (h : ArgumentTurn s p q) : p < q ∧ q ≤ front.length := by
  obtain ⟨-, e, hatom⟩ := h
  obtain ⟨hle, hlt⟩ := (atom_ends hp).within hs hatom
  exact ⟨hlt e rfl, hle⟩

theorem PipeTurn.within (hs : s.Begins front stop) (hp : p ≤ front.length) (h : PipeTurn s p q) :
    p < q ∧ q ≤ front.length := by
  obtain ⟨hkind, e, happlication⟩ := h
  obtain ⟨hnext, hnextle⟩ := next_within hs hp (by simp [hkind])
  obtain ⟨hle, hlt⟩ := (application_ends hnextle).within hs happlication
  exact ⟨hnext.trans (hlt e rfl), hle⟩

/-- Any number of turns stays inside the tokens if each turn does. -/
theorem turns_within {turn : Nat → Nat → Prop}
    (hturn : ∀ {p q}, p ≤ front.length → turn p q → q ≤ front.length) (hp : p ≤ front.length)
    (h : Relation.ReflTransGen turn p q) : q ≤ front.length := by
  induction h with
  | refl => exact hp
  | tail _ hlast ih => exact hturn ih hlast

/-! ## Whatever a program begins -/

theorem ValueAt.within (hs : s.Begins front stop) (hp : p ≤ front.length)
    (hkind : (s.tokenAt p).kind = .letWord) (h : ValueAt s p q) : q ≤ front.length := by
  obtain ⟨name, t, q', hname, hequals⟩ := h
  obtain ⟨-, hnext⟩ := next_within hs hp (by simp [hkind])
  obtain ⟨hq', -⟩ := (expectName_ends hnext "let expression").within hs hname
  have hends : Ends front stop (expect · .equals "let expression") q' := expect_ends hq' _ (by simp)
  exact (hends.within hs hequals).1

theorem BodyAt.within (hs : s.Begins front stop) (hp : p ≤ front.length) (h : BodyAt s p q) :
    q ≤ front.length := by
  obtain ⟨value, t, q', hvalue, hin⟩ := h
  obtain ⟨hq', -⟩ := (expression_ends hp).within hs hvalue
  have hends : Ends front stop (expect · .inWord "let expression") q' := expect_ends hq' _ (by simp)
  exact (hends.within hs hin).1

/-- **A rule that a program begins is begun before the end of the text or at it**, and where it may
be begun. -/
theorem Reaches.within (hs : s.Begins front stop) {rule : Rule} (h : Reaches s rule p) :
    p ≤ front.length ∧ rule.Fits (s.tokenAt p) := by
  induction h with
  | program => exact ⟨Nat.zero_le _, trivial⟩
  | binding _ hkind ih => exact ⟨ih.1, hkind⟩
  | value _ hvalue ih => exact ⟨hvalue.within hs ih.1 ih.2, trivial⟩
  | body _ hvalue hbody ih => exact ⟨hbody.within hs (hvalue.within hs ih.1 ih.2), trivial⟩
  | pipeline _ _ ih => exact ⟨ih.1, trivial⟩
  | first _ ih => exact ⟨ih.1, trivial⟩
  | piped _ hfirst hturns hkind ih =>
    obtain ⟨hq, -⟩ := (application_ends ih.1).within hs hfirst
    have hq' := turns_within (fun hp hturn => (PipeTurn.within hs hp hturn).2) hq hturns
    exact ⟨(next_within hs hq' (by simp [hkind])).2, trivial⟩
  | head _ ih => exact ⟨ih.1, trivial⟩
  | argument _ hhead hturns _ ih =>
    obtain ⟨hq, -⟩ := (atom_ends ih.1).within hs hhead
    exact ⟨turns_within (fun hp hturn => (ArgumentTurn.within hs hp hturn).2) hq hturns, trivial⟩
  | grouped _ hkind ih => exact ⟨ih.1, hkind⟩
  | inner _ ih =>
    obtain ⟨hp, hkind⟩ := ih
    rw [Rule.Fits] at hkind
    exact ⟨(next_within hs hp (by simp [hkind])).2, trivial⟩

/-- **The parser goes forward and stays inside its tokens.** It has an answer for every list of
tokens. Every rule that it begins is begun at or before the first end of the text of the completed
list and ends there or before, and behind the place where it began if it has read something; each
turn of a loop goes forward as well. What stands behind this end changes nothing of what is read. -/
theorem parse_goes_forward (ts : List Token) :
    parse ts = Part.some (Expr.ofTokens ts) ∧
      (∀ rule p, Reaches (.complete ts) rule p →
        p ≤ (Tape.complete ts).eof ∧
        ∃ answer q, Reads (rule.read (.complete ts)) p answer q ∧ q ≤ (Tape.complete ts).eof ∧
          ∀ e, answer = .ok e → p < q) ∧
      (∀ p ≤ (Tape.complete ts).eof, ∀ q,
        ArgumentTurn (.complete ts) p q ∨ PipeTurn (.complete ts) p q →
          p < q ∧ q ≤ (Tape.complete ts).eof) ∧
      ∀ us, (Tape.complete us).tokens.take ((Tape.complete ts).eof + 1) =
          (Tape.complete ts).tokens.take ((Tape.complete ts).eof + 1) →
        parse us = parse ts ∧
          ∀ rule p, Reaches (.complete ts) rule p → ∀ answer q,
            Reads (rule.read (.complete ts)) p answer q →
              Reads (rule.read (.complete us)) p answer q := by
  have hs := Tape.begins_complete ts
  have hparse := program_answers hs
  rw [hs.eof_eq]
  refine ⟨hparse, fun rule p h => ?rule, fun p hp q h => ?turn, fun us hus => ?behind⟩
  case rule =>
    obtain ⟨hp, hfits⟩ := h.within hs
    obtain ⟨answer, q, ⟨hle, hlt⟩, hr⟩ := rule.ends hs hp hfits
    exact ⟨hp, answer, q, hr _ hs, hle, hlt⟩
  case turn =>
    rcases h with h | h
    · exact h.within hs hp
    · exact h.within hs hp
  case behind =>
    have hbegins : (Tape.complete us).Begins (Parser.beforeEof ts) (Parser.eofSpan ts) := by
      have htake := List.prefix_iff_eq_take.mp hs
      rw [List.length_append, List.length_singleton, ← hus] at htake
      rw [Tape.Begins, htake]
      exact List.take_prefix _ _
    refine ⟨(program_answers hbegins).trans hparse.symm, fun rule p h answer q hreads => ?_⟩
    obtain ⟨hp, hfits⟩ := h.within hs
    obtain ⟨answer', q', -, hr⟩ := rule.ends hs hp hfits
    obtain ⟨rfl, rfl⟩ := (hr _ hs).unique hreads
    exact hr _ hbegins

end SignalLab.Cursor
