import Mathlib.Data.List.TakeWhile
import SignalLab.Proofs.Grammar.Cursor
import SignalLab.Proofs.Grammar.Failing

/-!
# What is read on a tape

A tape begins with the tokens before its first end of the text. From a place before it the rules
that keep their place read what the rules of the library read from the tokens that remain there, and
fail where those fail (`Cursor.expression_gets`, `Cursor.expression_fails`). What they come to is
the same on all tapes with the same beginning (`Gets`, `Fails`), whatever stands behind it.

So a reading has an answer, for the rules of the library always have one (`Cursor.program_answers`).

## Shape of the argument

A rule is a chain of readings. `Gets.bind` and its companions go along such a chain, from a reading
that gets something to what is read behind it; each rule then takes one line for each of its
readings. The tokens that remain become fewer, and the inductions are on their number.
-/

namespace SignalLab

variable {front ts us rest : List Token} {stop : Span} {t : Token} {p q : Nat}

theorem length_lt_of_eq_cons (h : ts = t :: rest) : rest.length < ts.length := by
  rw [h, List.length_cons]
  exact Nat.lt_succ_self _

/-! ## Places before the first end of the text -/

/-- From a place on these are the tokens that remain of `front`. -/
def Remain (front : List Token) (p : Nat) (ts : List Token) : Prop :=
  ∃ before, front = before ++ ts ∧ before.length = p

theorem Remain.tail (h : Remain front p (t :: ts)) : Remain front (p + 1) ts := by
  obtain ⟨before, rfl, rfl⟩ := h
  exact ⟨before ++ [t], by simp, by simp⟩

theorem Remain.add_length (h : Remain front p ts) : p + ts.length = front.length := by
  obtain ⟨before, rfl, rfl⟩ := h
  rw [List.length_append]

theorem Remain.exists (h : p ≤ front.length) : ∃ ts, Remain front p ts :=
  ⟨front.drop p, front.take p, (List.take_append_drop p front).symm, List.length_take_of_le h⟩

namespace Tape

/-- A tape begins with some tokens and an end of the text behind them. -/
def Begins (s : Tape) (front : List Token) (stop : Span) : Prop :=
  front ++ [⟨.eof, stop⟩] <+: s.tokens

variable {s : Tape}

theorem getElem?_of_le_last (h : p ≤ s.last) : s.tokens[p]? = some (s.tokenAt p) := by
  have hlength := s.length_pos
  have hmin : min p s.last = p := Nat.min_eq_left h
  have hlt : p < s.tokens.length := by
    rw [last] at h
    omega
  rw [tokenAt, List.get_eq_getElem, List.getElem?_eq_getElem hlt]
  simp only [hmin]

theorem Begins.length_le_last (hs : s.Begins front stop) : front.length ≤ s.last := by
  have hlength := hs.length_le
  rw [List.length_append, List.length_singleton] at hlength
  rw [last]
  omega

/-- At a place stands the first of the tokens that remain, or the end of the text. -/
theorem Begins.tokenAt_eq (hs : s.Begins front stop) (hp : Remain front p ts) :
    s.tokenAt p = ts.headD ⟨.eof, stop⟩ := by
  have hlast : p ≤ s.last := by
    have := hp.add_length
    have := hs.length_le_last
    omega
  have hget := getElem?_of_le_last hlast
  obtain ⟨after, hafter⟩ := hs
  obtain ⟨before, rfl, rfl⟩ := hp
  rw [← hafter, List.append_assoc, List.append_assoc, List.getElem?_append_right (Nat.le_refl _),
    Nat.sub_self] at hget
  cases ts <;> exact (Option.some.inj hget).symm

theorem Begins.next_eq (hs : s.Begins front stop) (hp : Remain front p (t :: ts)) :
    s.next p = p + 1 := by
  have hlength := hp.add_length
  have hlast := hs.length_le_last
  rw [List.length_cons] at hlength
  exact if_pos (by omega)

/-! ## Completed lists -/

theorem eq_eof_of_isEof (h : t.isEof = true) : t = ⟨.eof, t.span⟩ := by
  obtain ⟨kind, span⟩ := t
  cases kind with
  | eof => rfl
  | _ => cases h

theorem isEof_eq_false_of_mem (h : t ∈ Parser.beforeEof ts) : t.isEof = false := by
  simpa using List.mem_takeWhile_imp h

/-- The tokens before the first end of the text, and this one. -/
theorem split_of_find? (h : ts.find? Token.isEof = some t) :
    ∃ after, ts = Parser.beforeEof ts ++ ⟨.eof, Parser.eofSpan ts⟩ :: after := by
  have hspan : Parser.eofSpan ts = t.span := by
    rw [Parser.eofSpan, h]
  obtain ⟨ht, before, after, hts, hbefore⟩ := List.find?_eq_some_iff_append.mp h
  have hfront : Parser.beforeEof ts = before := by
    rw [Parser.beforeEof, hts, List.takeWhile_append_of_pos hbefore,
      List.takeWhile_cons_of_neg (by simp [ht]), List.append_nil]
  exact ⟨after, by rw [hspan, hfront, ← eq_eof_of_isEof ht, ← hts]⟩

/-- A completed list begins with the tokens before the first end of the text, which is the one that
is added if there is no other. -/
theorem begins_complete (ts : List Token) :
    (complete ts).Begins (Parser.beforeEof ts) (Parser.eofSpan ts) := by
  rcases hfind : ts.find? Token.isEof with _ | t
  · have hnone : ∀ t ∈ ts, t.isEof = false := by simpa using List.find?_eq_none.mp hfind
    have hlast : ¬ ts.getLast?.any Token.isEof = true := by
      rcases hget : ts.getLast? with _ | t
      · nofun
      · simp [hnone t (List.mem_of_getLast? hget)]
    have hfront : Parser.beforeEof ts = ts :=
      List.takeWhile_eq_self_iff.mpr fun t ht => by rw [hnone t ht]; rfl
    have hspan : (⟨.eof, Parser.eofSpan ts⟩ : Token) = eofAfter ts := by
      rw [Parser.eofSpan, hfind, eofAfter]
      cases ts.getLast? <;> rfl
    rw [Begins, hfront, hspan]
    exact ⟨[], by rw [List.append_nil, complete, dif_neg hlast]⟩
  · obtain ⟨after, hafter⟩ := split_of_find? hfind
    have hprefix : ts <+: (complete ts).tokens := by
      rw [complete]
      split
      · exact List.prefix_rfl
      · exact List.prefix_append _ _
    refine List.IsPrefix.trans ⟨after, ?_⟩ hprefix
    rw [List.append_assoc]
    exact hafter.symm

/-- The place of the first end of the text. -/
theorem Begins.eof_eq (hs : s.Begins (Parser.beforeEof ts) stop) :
    s.eof = (Parser.beforeEof ts).length := by
  obtain ⟨after, hafter⟩ := hs
  have hnone : (Parser.beforeEof ts).findIdx Token.isEof = (Parser.beforeEof ts).length :=
    List.findIdx_eq_length.mpr fun t ht => isEof_eq_false_of_mem ht
  rw [Tape.eof, ← hafter, List.append_assoc, List.findIdx_append, hnone,
    if_neg (Nat.lt_irrefl _)]
  exact Nat.zero_add _

end Tape

namespace Cursor

variable {α β : Type}

/-! ## Readings at a place -/

section

variable {r : Reading α} {f : α → Reading β} {a : α} {d : Diagnostic} {s : Tape} {q' : Nat}
  {kind : TokenKind} {context : String}

/-- There is one answer. -/
theorem Reads.unique {answer answer' : Except Diagnostic α} (h : Reads r p answer q)
    (h' : Reads r p answer' q') : answer = answer' ∧ q = q' := by
  rw [Reads, h, Part.some_inj, Prod.mk.injEq] at h'
  exact h'

/-- What follows is read from the place that was reached, if something was read. -/
theorem run_bind (r : Reading α) (f : α → Reading β) (p : Nat) :
    (r >>= f).run.run p =
      (r.run.run p).bind fun answer => (ExceptT.bindCont f answer.1).run answer.2 := rfl

theorem Reads.bind {answer : Except Diagnostic β} (h : Reads r p (.ok a) q)
    (h' : Reads (f a) q answer q') : Reads (r >>= f) p answer q' := by
  rw [Reads, run_bind, h, Part.bind_some]
  exact h'

theorem Reads.bind_error (h : Reads r p (.error d) q) : Reads (r >>= f) p (.error d) q := by
  rw [Reads, run_bind, h, Part.bind_some]
  rfl

theorem reads_get (p : Nat) : Reads get p (.ok p) p := by
  show (Part.some (p, p)).bind (fun x => Part.some (Except.ok x.1, x.2)) = _
  exact Part.bind_some _ _

theorem reads_set (p q : Nat) : Reads (set q) p (.ok ⟨⟩) q := by
  show (Part.some (PUnit.unit, q)).bind (fun x => Part.some (Except.ok x.1, x.2)) = _
  exact Part.bind_some _ _

theorem reads_peek (s : Tape) (p : Nat) : Reads (peek s) p (.ok (s.tokenAt p)) p :=
  (reads_get p).bind rfl

theorem reads_advance (s : Tape) (p : Nat) :
    Reads (advance s) p (.ok (s.tokenAt p)) (s.next p) :=
  (reads_get p).bind ((reads_set p _).bind rfl)

theorem reads_expect (h : (s.tokenAt p).kind = kind) :
    Reads (expect s kind context) p (.ok (s.tokenAt p)) (s.next p) := by
  refine (reads_peek s p).bind ?_
  rw [if_pos h]
  exact reads_advance s p

theorem reads_expect_error (h : (s.tokenAt p).kind ≠ kind) :
    Reads (expect s kind context) p (.error (unexpected kind.describe context (s.tokenAt p))) p := by
  refine (reads_peek s p).bind ?_
  rw [if_neg h]
  rfl

end

/-! ## Readings before the first end of the text -/

/-- On every tape that begins with `front`, a reading gets `a` and comes to where `rest` remains. -/
def Gets (front : List Token) (stop : Span) (r : Tape → Reading α) (p : Nat) (a : α)
    (rest : List Token) : Prop :=
  ∃ q, Remain front q rest ∧ ∀ s : Tape, s.Begins front stop → Reads (r s) p (.ok a) q

/-- On every tape that begins with `front`, a reading fails at one place before its end. -/
def Fails (front : List Token) (stop : Span) (r : Tape → Reading α) (p : Nat) (d : Diagnostic) :
    Prop :=
  ∃ q ≤ front.length, ∀ s : Tape, s.Begins front stop → Reads (r s) p (.error d) q

variable {r r' : Tape → Reading α} {f : Tape → α → Reading β} {a : α} {b : β} {d : Diagnostic}

theorem Gets.of_eq (heq : ∀ s, r s = r' s) (h : Gets front stop r' p a rest) :
    Gets front stop r p a rest := by
  obtain rfl : r = r' := funext heq
  exact h

theorem Fails.of_eq (heq : ∀ s, r s = r' s) (h : Fails front stop r' p d) :
    Fails front stop r p d := by
  obtain rfl : r = r' := funext heq
  exact h

theorem gets_pure (hp : Remain front p ts) (a : α) : Gets front stop (fun _ => pure a) p a ts :=
  ⟨p, hp, fun _ _ => rfl⟩

theorem fails_throw (hp : Remain front p ts) (d : Diagnostic) :
    Fails front stop (fun _ => (throw d : Reading α)) p d :=
  ⟨p, by have := hp.add_length; omega, fun _ _ => rfl⟩

theorem Gets.bind (h : Gets front stop r p a ts)
    (h' : ∀ q, Remain front q ts → Gets front stop (f · a) q b us) :
    Gets front stop (fun s => r s >>= f s) p b us := by
  obtain ⟨q, hq, hr⟩ := h
  obtain ⟨q', hq', hf⟩ := h' q hq
  exact ⟨q', hq', fun s hs => (hr s hs).bind (hf s hs)⟩

theorem Gets.bind_fails (h : Gets front stop r p a ts)
    (h' : ∀ q, Remain front q ts → Fails front stop (f · a) q d) :
    Fails front stop (fun s => r s >>= f s) p d := by
  obtain ⟨q, hq, hr⟩ := h
  obtain ⟨q', hq', hf⟩ := h' q hq
  exact ⟨q', hq', fun s hs => (hr s hs).bind (hf s hs)⟩

theorem Fails.bind (h : Fails front stop r p d) : Fails front stop (fun s => r s >>= f s) p d := by
  obtain ⟨q, hq, hr⟩ := h
  exact ⟨q, hq, fun s hs => (hr s hs).bind_error⟩

theorem gets_advance (hp : Remain front p (t :: ts)) : Gets front stop advance p t ts := by
  refine ⟨p + 1, hp.tail, fun s hs => ?_⟩
  have ht : s.tokenAt p = t := hs.tokenAt_eq hp
  rw [← ht, ← hs.next_eq hp]
  exact reads_advance s p

/-! ## Single tokens -/

section

variable {g : Tape → Token → Reading β} {kind : TokenKind} {span : Span} {context name : String}

/-- What is done with the token at a place is decided by the tokens that remain. -/
theorem Gets.peek (hp : Remain front p ts)
    (h : Gets front stop (g · (ts.headD ⟨.eof, stop⟩)) p b us) :
    Gets front stop (fun s => peek s >>= g s) p b us := by
  obtain ⟨q, hq, hg⟩ := h
  refine ⟨q, hq, fun s hs => (reads_peek s p).bind ?_⟩
  rw [hs.tokenAt_eq hp]
  exact hg s hs

theorem Fails.peek (hp : Remain front p ts)
    (h : Fails front stop (g · (ts.headD ⟨.eof, stop⟩)) p d) :
    Fails front stop (fun s => peek s >>= g s) p d := by
  obtain ⟨q, hq, hg⟩ := h
  refine ⟨q, hq, fun s hs => (reads_peek s p).bind ?_⟩
  rw [hs.tokenAt_eq hp]
  exact hg s hs

theorem unexpected_eq (want context : String) (stop : Span) (ts : List Token) :
    Parser.unexpected stop want context ts = unexpected want context (ts.headD ⟨.eof, stop⟩) := by
  cases ts <;> rfl

/-- A kind of token that does not come next, other than the end of the text. -/
theorem kind_headD_ne (hkind : kind ≠ .eof)
    (hno : ∀ span ts', ts ≠ ⟨kind, span⟩ :: ts') : (ts.headD ⟨.eof, stop⟩).kind ≠ kind := by
  rintro rfl
  cases ts with
  | nil => exact hkind rfl
  | cons t ts => exact hno t.span ts rfl

theorem expect_gets (hp : Remain front p ts)
    (h : Parser.Yields (Parser.expect stop kind context ts) span rest) :
    Gets front stop (expect · kind context) p ⟨kind, span⟩ rest := by
  obtain rfl := Parser.expect_yields_iff.mp h
  refine .peek hp ?_
  simp only [List.headD_cons, if_true]
  exact gets_advance hp

theorem expect_fails (hp : Remain front p ts) (h : Parser.expect stop kind context ts = .error d)
    (hkind : kind ≠ .eof) : Fails front stop (expect · kind context) p d := by
  have hne : (ts.headD ⟨.eof, stop⟩).kind ≠ kind := by
    refine kind_headD_ne hkind ?_
    rintro span ts' rfl
    rw [Parser.expect, if_pos rfl] at h
    cases h
  rw [Parser.expect_error h, unexpected_eq]
  refine .peek hp ?_
  simp only [hne, if_false]
  exact fails_throw hp _

theorem expectName_gets (hp : Remain front p ts)
    (h : Parser.Yields (Parser.expectName stop context ts) name rest) :
    Gets front stop (expectName · context) p name rest := by
  obtain ⟨span, rfl⟩ := Parser.expectName_yields_iff.mp h
  refine .peek hp ?_
  exact (gets_advance hp).bind fun q hq => gets_pure hq name

theorem expectName_fails (hp : Remain front p ts)
    (h : Parser.expectName stop context ts = .error d) :
    Fails front stop (expectName · context) p d := by
  obtain ⟨hno, rfl⟩ := Parser.expectName_error h
  rw [unexpected_eq]
  refine .peek hp ?_
  rcases ts with _ | ⟨⟨kind, span⟩, ts⟩
  · exact fails_throw hp _
  · cases kind with
    | reference name => exact absurd rfl (hno name span ts)
    | _ => exact fails_throw hp _

end

theorem startsAtom_headD (stop : Span) (ts : List Token) :
    Parser.startsAtom [ts.headD ⟨.eof, stop⟩] = Parser.startsAtom ts := by
  rcases ts with _ | ⟨⟨kind, span⟩, ts⟩
  · rfl
  · cases kind <;> rfl

/-! ## What the rules read -/

mutual

theorem atom_gets {ts rest : List Token} {e : Expr} {p : Nat} (hp : Remain front p ts)
    (h : Parser.Yields (Parser.atom stop ts) e rest) : Gets front stop Rule.atom.read p e rest := by
  refine .of_eq atom_eq (.peek hp ?_)
  rcases Parser.atom_yields_iff.mp h with ⟨value, span, rfl, rfl⟩ | ⟨name, span, rfl, rfl⟩ |
    ⟨opening, closing, inner, ts', hts, hinner, rfl⟩
  · exact (gets_advance hp).bind fun q hq => gets_pure hq _
  · exact (gets_advance hp).bind fun q hq => gets_pure hq _
  · have hshorter : ts'.length < ts.length := length_lt_of_eq_cons hts
    rw [hts] at hp ⊢
    refine .of_eq grouped_eq ((gets_advance hp).bind fun q hq => ?_)
    refine (expression_gets hq hinner).bind fun q' hq' => ?_
    refine (expect_gets hq' (Parser.expect_yields_iff.mpr rfl)).bind fun q'' hq'' => ?_
    exact gets_pure hq'' _
termination_by 5 * ts.length
decreasing_by omega

theorem arguments_gets {ts rest : List Token} {es : List Expr} {p : Nat} (hp : Remain front p ts)
    (h : Parser.Yields (Parser.atoms stop ts) es rest) (before : List Expr) :
    Gets front stop (arguments · before) p (before ++ es) rest := by
  refine .of_eq (arguments_eq · before) (.peek hp ?_)
  rcases Parser.atoms_yields_iff.mp h with ⟨hstarts, rfl, rfl⟩ |
    ⟨e, mid, es', hstarts, hatom, hatoms, rfl⟩ <;>
    rw [← Parser.startsAtom_eq, ← startsAtom_headD stop] at hstarts
  · simp only [hstarts, Bool.false_eq_true, if_false, List.append_nil]
    exact gets_pure hp before
  · have hshorter := hatom.length_lt
    simp only [hstarts, if_true]
    refine (atom_gets hp hatom).bind fun q hq => ?_
    have hrest := arguments_gets hq hatoms (before ++ [e])
    rwa [List.append_assoc] at hrest
termination_by 5 * ts.length + 1
decreasing_by all_goals omega

theorem application_gets {ts rest : List Token} {e : Expr} {p : Nat} (hp : Remain front p ts)
    (h : Parser.Yields (Parser.application stop ts) e rest) :
    Gets front stop Rule.application.read p e rest := by
  refine .of_eq application_eq ?_
  rcases Parser.application_yields_iff.mp h with ⟨span, name, mid, es, hatom, hatoms, rfl⟩ |
    ⟨hhead, hatom⟩
  · have hshorter := hatom.length_lt
    refine (atom_gets hp hatom).bind fun q hq => ?_
    exact (arguments_gets hq hatoms []).bind fun q' hq' => gets_pure hq' _
  · refine (atom_gets hp hatom).bind fun q hq => ?_
    cases e with
    | reference span name => exact absurd rfl (hhead span name)
    | _ => exact gets_pure hq _
termination_by 5 * ts.length + 2
decreasing_by all_goals omega

theorem pipes_gets {ts rest : List Token} {left e : Expr} {p : Nat} (hp : Remain front p ts)
    (h : Parser.Yields (Parser.pipes stop left ts) e rest) :
    Gets front stop (pipes · left) p e rest := by
  refine .of_eq (pipes_eq · left) (.peek hp ?_)
  rcases Parser.pipes_yields_iff.mp h with ⟨hno, rfl, rfl⟩ |
    ⟨span, ts', right, mid, joined, hts, hright, hjoined, hpipes⟩
  · have hkind : (rest.headD ⟨.eof, stop⟩).kind ≠ .pipe := by
      refine kind_headD_ne (by simp) ?_
      rintro span ts' rfl
      cases hno
    simp only [hkind, if_false]
    exact gets_pure hp e
  · have hpipe : ts'.length < ts.length := length_lt_of_eq_cons hts
    have hshorter := hright.length_lt
    rw [hts] at hp ⊢
    refine (gets_advance hp).bind fun q hq => ?_
    refine (application_gets hq hright).bind fun q' hq' => ?_
    simp only [hjoined]
    exact pipes_gets hq' hpipes
termination_by 5 * ts.length
decreasing_by all_goals omega

theorem pipeline_gets {ts rest : List Token} {e : Expr} {p : Nat} (hp : Remain front p ts)
    (h : Parser.Yields (Parser.pipeline stop ts) e rest) : Gets front stop Rule.pipeline.read p e rest := by
  obtain ⟨first, mid, hfirst, hpipes⟩ := Parser.pipeline_yields_iff.mp h
  have hshorter := hfirst.length_lt
  refine .of_eq pipeline_eq ?_
  exact (application_gets hp hfirst).bind fun q hq => pipes_gets hq hpipes
termination_by 5 * ts.length + 3
decreasing_by all_goals omega

theorem binding_gets {ts rest : List Token} {e : Expr} {keyword : Span} {p : Nat}
    (hp : Remain front p (⟨.letWord, keyword⟩ :: ts))
    (h : Parser.Yields (Parser.binding stop keyword ts) e rest) :
    Gets front stop Rule.binding.read p e rest := by
  obtain ⟨name, atName, atEquals, atIn, afterEquals, value, afterIn, body, hts, hvalue, hbody,
    rfl⟩ := Parser.binding_yields_iff.mp h
  have hwords : afterEquals.length < ts.length := by
    rw [hts]
    simp only [List.length_cons]
    omega
  have hshorter : afterIn.length < afterEquals.length := by
    have := hvalue.length_lt
    rw [List.length_cons] at this
    omega
  rw [hts] at hp
  refine .of_eq binding_eq ((gets_advance hp).bind fun q hq => ?_)
  refine (expectName_gets hq (Parser.expectName_yields_iff.mpr ⟨_, rfl⟩)).bind fun q hq => ?_
  refine (expect_gets hq (Parser.expect_yields_iff.mpr rfl)).bind fun q hq => ?_
  refine (expression_gets hq hvalue).bind fun q hq => ?_
  refine (expect_gets hq (Parser.expect_yields_iff.mpr rfl)).bind fun q hq => ?_
  exact (expression_gets hq hbody).bind fun q hq => gets_pure hq _
termination_by 5 * ts.length
decreasing_by all_goals omega

/-- **What the parser of the library reads is read on every tape that begins with the same tokens**,
and the place comes to where the same tokens remain. -/
theorem expression_gets {ts rest : List Token} {e : Expr} {p : Nat} (hp : Remain front p ts)
    (h : Parser.Yields (Parser.expression stop ts) e rest) :
    Gets front stop Rule.expression.read p e rest := by
  refine .of_eq expression_eq (.peek hp ?_)
  rcases Parser.expression_yields_iff.mp h with ⟨keyword, ts', hts, hbinding⟩ | ⟨hno, hpipeline⟩
  · have hshorter : ts'.length < ts.length := length_lt_of_eq_cons hts
    rw [hts] at hp ⊢
    exact binding_gets hp hbinding
  · have hkind : (ts.headD ⟨.eof, stop⟩).kind ≠ .letWord := kind_headD_ne (by simp) hno
    simp only [hkind, if_false]
    exact pipeline_gets hp hpipeline
termination_by 5 * ts.length + 4
decreasing_by all_goals omega

end

/-! ## Where the rules fail -/

mutual

theorem atom_fails {ts : List Token} {d : Diagnostic} {p : Nat} (hp : Remain front p ts)
    (h : Parser.atom stop ts = .error d) : Fails front stop Rule.atom.read p d := by
  refine .of_eq atom_eq (.peek hp ?_)
  rcases Parser.atom_error h with ⟨hstarts, rfl⟩ | ⟨opening, ts', hts, hinside⟩
  · rw [unexpected_eq]
    rw [← startsAtom_headD stop] at hstarts
    generalize ts.headD ⟨.eof, stop⟩ = t at hstarts ⊢
    obtain ⟨kind, span⟩ := t
    cases kind with
    | literal value | reference name | opening => cases hstarts
    | _ => exact fails_throw hp _
  · have hshorter : ts'.length < ts.length := length_lt_of_eq_cons hts
    rw [hts] at hp ⊢
    refine .of_eq grouped_eq ((gets_advance hp).bind_fails fun q hq => ?_)
    rcases hinside with hinner | ⟨e, rest, hinner, hclosing⟩
    · exact (expression_fails hq hinner).bind
    · refine (expression_gets hq hinner).bind_fails fun q hq => ?_
      exact (expect_fails hq hclosing (by simp)).bind
termination_by 5 * ts.length
decreasing_by omega

theorem arguments_fails {ts : List Token} {d : Diagnostic} {p : Nat} (hp : Remain front p ts)
    (h : Parser.atoms stop ts = .error d) (before : List Expr) :
    Fails front stop (arguments · before) p d := by
  refine .of_eq (arguments_eq · before) (.peek hp ?_)
  obtain ⟨hstarts, hfails⟩ := Parser.atoms_error h
  rw [← startsAtom_headD stop] at hstarts
  simp only [hstarts, if_true]
  rcases hfails with hatom | ⟨e, mid, hatom, hatoms⟩
  · exact (atom_fails hp hatom).bind
  · have hshorter := hatom.length_lt
    exact (atom_gets hp hatom).bind_fails fun q hq => arguments_fails hq hatoms (before ++ [e])
termination_by 5 * ts.length + 1
decreasing_by all_goals omega

theorem application_fails {ts : List Token} {d : Diagnostic} {p : Nat} (hp : Remain front p ts)
    (h : Parser.application stop ts = .error d) : Fails front stop Rule.application.read p d := by
  refine .of_eq application_eq ?_
  rcases Parser.application_error h with hatom | ⟨span, name, mid, hatom, hatoms⟩
  · exact (atom_fails hp hatom).bind
  · have hshorter := hatom.length_lt
    refine (atom_gets hp hatom).bind_fails fun q hq => ?_
    exact (arguments_fails hq hatoms []).bind
termination_by 5 * ts.length + 2
decreasing_by all_goals omega

theorem pipes_fails {ts : List Token} {left : Expr} {d : Diagnostic} {p : Nat}
    (hp : Remain front p ts) (h : Parser.pipes stop left ts = .error d) :
    Fails front stop (pipes · left) p d := by
  refine .of_eq (pipes_eq · left) (.peek hp ?_)
  obtain ⟨span, ts', hts, hfails⟩ := Parser.pipes_error h
  have hpipe : ts'.length < ts.length := length_lt_of_eq_cons hts
  rw [hts] at hp ⊢
  refine (gets_advance hp).bind_fails fun q hq => ?_
  rcases hfails with hright | ⟨right, mid, hright, hjoined⟩
  · exact (application_fails hq hright).bind
  · have hshorter := hright.length_lt
    refine (application_gets hq hright).bind_fails fun q hq => ?_
    rcases hjoined with hjoined | ⟨joined, hjoined, hpipes⟩
    · simp only [hjoined]
      exact fails_throw hq d
    · simp only [hjoined]
      exact pipes_fails hq hpipes
termination_by 5 * ts.length
decreasing_by all_goals omega

theorem pipeline_fails {ts : List Token} {d : Diagnostic} {p : Nat} (hp : Remain front p ts)
    (h : Parser.pipeline stop ts = .error d) : Fails front stop Rule.pipeline.read p d := by
  refine .of_eq pipeline_eq ?_
  rcases Parser.pipeline_error h with hfirst | ⟨first, mid, hfirst, hpipes⟩
  · exact (application_fails hp hfirst).bind
  · have hshorter := hfirst.length_lt
    exact (application_gets hp hfirst).bind_fails fun q hq => pipes_fails hq hpipes
termination_by 5 * ts.length + 3
decreasing_by all_goals omega

theorem binding_fails {ts : List Token} {keyword : Span} {d : Diagnostic} {p : Nat}
    (hp : Remain front p (⟨.letWord, keyword⟩ :: ts))
    (h : Parser.binding stop keyword ts = .error d) : Fails front stop Rule.binding.read p d := by
  refine .of_eq binding_eq ((gets_advance hp).bind_fails fun q hq => ?_)
  rcases Parser.binding_error h with hname | ⟨name, afterName, hname, h⟩
  · exact (expectName_fails hq hname).bind
  refine (expectName_gets hq hname).bind_fails fun q hq => ?_
  rcases h with hequals | ⟨atEquals, afterEquals, hequals, h⟩
  · exact (expect_fails hq hequals (by simp)).bind
  have hshorter : afterEquals.length < ts.length := Nat.lt_trans hequals.1 hname.1
  refine (expect_gets hq hequals).bind_fails fun q hq => ?_
  rcases h with hvalue | ⟨value, afterValue, hvalue, h⟩
  · exact (expression_fails hq hvalue).bind
  refine (expression_gets hq hvalue).bind_fails fun q hq => ?_
  rcases h with hin | ⟨atIn, afterIn, hin, hbody⟩
  · exact (expect_fails hq hin (by simp)).bind
  have hshorter' : afterIn.length < afterEquals.length := Nat.lt_trans hin.1 hvalue.1
  refine (expect_gets hq hin).bind_fails fun q hq => ?_
  exact (expression_fails hq hbody).bind
termination_by 5 * ts.length
decreasing_by all_goals omega

/-- **What the parser of the library refuses is refused on every tape that begins with the same
tokens**, for the same reason and at one place. -/
theorem expression_fails {ts : List Token} {d : Diagnostic} {p : Nat} (hp : Remain front p ts)
    (h : Parser.expression stop ts = .error d) : Fails front stop Rule.expression.read p d := by
  refine .of_eq expression_eq (.peek hp ?_)
  rcases Parser.expression_error h with ⟨keyword, ts', hts, hbinding⟩ | ⟨hno, hpipeline⟩
  · have hshorter : ts'.length < ts.length := length_lt_of_eq_cons hts
    rw [hts] at hp ⊢
    exact binding_fails hp hbinding
  · have hkind : (ts.headD ⟨.eof, stop⟩).kind ≠ .letWord := kind_headD_ne (by simp) hno
    simp only [hkind, if_false]
    exact pipeline_fails hp hpipeline
termination_by 5 * ts.length + 4
decreasing_by all_goals omega

end

/-! ## Whole programs -/

/-- **A program has an answer on every tape**, that of the parser of the library for any list with
the same tokens before the end of the text. -/
theorem program_answers {s : Tape} (hs : s.Begins (Parser.beforeEof ts) (Parser.eofSpan ts)) :
    ((program s).run.run 0).map (·.1) = Part.some (Expr.ofTokens ts) := by
  have hp : Remain (Parser.beforeEof ts) 0 (Parser.beforeEof ts) := ⟨[], rfl, rfl⟩
  suffices hreads : ∃ q, Reads (program s) 0 (Expr.ofTokens ts) q by
    obtain ⟨q, hq⟩ := hreads
    rw [hq, Part.map_some]
  unfold Expr.ofTokens
  dsimp only
  split
  · next d h =>
    obtain ⟨q, -, hreads⟩ := expression_fails hp h
    exact ⟨q, (hreads s hs).bind_error⟩
  · next e hshorter h =>
    obtain ⟨q, hq, hreads⟩ := expression_gets hp ⟨hshorter, h⟩
    have hkind : (s.tokenAt q).kind = .eof := by rw [hs.tokenAt_eq hq]; rfl
    exact ⟨_, (hreads s hs).bind ((reads_expect hkind).bind rfl)⟩
  · next e rest hshorter hne h =>
    obtain ⟨q, hq, hreads⟩ := expression_gets hp ⟨hshorter, h⟩
    rw [unexpected_eq, ← hs.tokenAt_eq hq]
    refine ⟨q, (hreads s hs).bind (reads_expect_error ?_).bind_error⟩
    -- a token is left, and those before the end of the text do not stand for it
    rcases rest with _ | ⟨t, rest⟩
    · exact (hne rfl).elim
    · obtain ⟨before, hsplit, -⟩ := id hq
      have hmem : t ∈ Parser.beforeEof ts := by
        rw [hsplit]
        exact List.mem_append_right _ List.mem_cons_self
      have hnot := Tape.isEof_eq_false_of_mem hmem
      rw [hs.tokenAt_eq hq]
      rintro hkind
      rw [Token.isEof, show t.kind = .eof from hkind] at hnot
      cases hnot

end Cursor

end SignalLab
