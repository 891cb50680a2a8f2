import SignalLab.Proofs.Grammar.Parsing
import SignalLab.Proofs.Grammar.Progress

/-!
# The parser and a reader that follows it

While the parser works on whole rules, a reader takes the same tokens one at a time. What a rule
reads leads the reader behind it, and what the rule leaves is nothing that the reader would take as
more of the same (`expression_leads`). The reader may then only take what ends the expression
(`expression_ends`).

That something was read as an atom is said by a derivation, which leads the reader on by itself.
Where a rule goes on reading as long as it can, the derivation does not say that it could not go on,
so these statements follow the parser.
-/

namespace SignalLab.Parser

open SignalLab.Grammar (Leads StuckFrom buildsName advance)

variable {stop : Span} {us rest : List Token} {e : Expr}

/-! ## What is read leads behind it -/

/-- An atom leads behind a head, which takes arguments if it is a name, or behind an argument. -/
theorem atom_leads {ts rest : List Token} {e : Expr} (h : Yields (atom stop ts) e rest) :
    ∃ us, ts = us ++ rest ∧
      (∀ binds sole, Leads (Token.kinds us) (.start binds sole)
        (.behind (buildsName (some e)) (sole && buildsName (some e)))) ∧
      ∀ alone, Leads (Token.kinds us) (.behind true alone) (.behind true false) := by
  obtain ⟨d, us, rfl, hwrites⟩ := atom_writes h
  obtain ⟨htokens, htree⟩ := d.bare_of_writes hwrites
  have happlies := d.appliesNames_of_tree? htree
  have hname : buildsName d.tree? = buildsName (some e) := by
    rw [htree]
    cases e <;> simp [buildsName]
  refine ⟨us, rfl, fun binds sole => ?_, fun alone => ?_⟩
  · rw [htokens, ← hname]
    exact d.leads happlies binds sole
  · rw [htokens]
    exact d.leads_argument happlies alone

/-- Atoms in a row lead behind the last of them, and no atom follows them. -/
theorem atoms_leads {ts rest : List Token} {es : List Expr} (h : Yields (atoms stop ts) es rest) :
    ∃ us, ts = us ++ rest ∧ Grammar.startsAtom (Token.kinds rest) = false ∧
      ∀ alone, Leads (Token.kinds us) (.behind true alone) (.behind true (alone && es.isEmpty)) := by
  rcases atoms_yields_iff.mp h with ⟨hrest, rfl, rfl⟩ | ⟨e, mid, es', -, hatom, hatoms, rfl⟩
  · refine ⟨[], rfl, hrest, fun alone => ?_⟩
    rw [List.isEmpty_nil, Bool.and_true]
    exact Leads.nil _
  · have hshorter := hatom.length_lt
    obtain ⟨us, rfl, -, hus⟩ := atom_leads hatom
    obtain ⟨vs, rfl, hrest, hvs⟩ := atoms_leads hatoms
    refine ⟨us ++ vs, by rw [List.append_assoc], hrest, fun alone => ?_⟩
    rw [Token.kinds_append, List.isEmpty_cons, Bool.and_false]
    exact (hus alone).append (hvs false)
termination_by ts.length

/-- What follows cannot belong to an application that takes arguments if `more`. -/
def EndsApplication (more : Bool) (rest : List Token) : Prop :=
  more = true → Grammar.startsAtom (Token.kinds rest) = false

theorem buildsName_applied (span : Span) (name : String) (es : List Expr) :
    buildsName (some (applied (.reference span name) name es)) = es.isEmpty := by
  rcases es with _ | ⟨e, es⟩
  · rfl
  · rw [applied, List.getLast?_cons]
    rfl

theorem application_leads {ts rest : List Token} {e : Expr}
    (h : Yields (application stop ts) e rest) :
    ∃ us more, ts = us ++ rest ∧ EndsApplication more rest ∧
      ∀ binds sole, Leads (Token.kinds us) (.start binds sole)
        (.behind more (sole && buildsName (some e))) := by
  rcases application_yields_iff.mp h with ⟨span, name, mid, arguments, hatom, hatoms, rfl⟩ |
    ⟨hnone, hatom⟩
  · obtain ⟨us, rfl, hus, -⟩ := atom_leads hatom
    obtain ⟨vs, rfl, hrest, hvs⟩ := atoms_leads hatoms
    refine ⟨us ++ vs, true, by rw [List.append_assoc], fun _ => hrest, fun binds sole => ?_⟩
    rw [Token.kinds_append, buildsName_applied]
    have hhead := hus binds sole
    rw [show buildsName (some (.reference span name)) = true from rfl, Bool.and_true] at hhead
    exact hhead.append (hvs sole)
  · obtain ⟨us, rfl, hus, -⟩ := atom_leads hatom
    have hname : buildsName (some e) = false := by
      cases e with
      | reference span name => exact absurd rfl (hnone span name)
      | _ => rfl
    rw [hname] at hus
    refine ⟨us, false, rfl, nofun, fun binds sole => ?_⟩
    rw [hname]
    exact hus binds sole

theorem buildsName_of_pipeInto {pipe : Span} {left right joined : Expr}
    (h : pipeInto pipe left right = .ok joined) : buildsName (some joined) = false := by
  unfold pipeInto at h
  dsimp only at h
  split at h
  · cases h
    rfl
  · cases h
    rfl
  · cases h

/-- Pipes lead on from what stands to the left of them. -/
theorem pipes_leads {ts rest : List Token} {left e : Expr} {more : Bool}
    (hleft : EndsApplication more ts) (h : Yields (pipes stop left ts) e rest) :
    ∃ us more', ts = us ++ rest ∧ EndsApplication more' rest ∧
      Grammar.startsPipe (Token.kinds rest) = false ∧
      ∀ sole, Leads (Token.kinds us) (.behind more (sole && buildsName (some left)))
        (.behind more' (sole && buildsName (some e))) := by
  rcases pipes_yields_iff.mp h with ⟨hrest, rfl, rfl⟩ |
    ⟨span, ts', right, mid, joined, hts, hright, hjoined, hpipes⟩
  · exact ⟨[], more, rfl, hleft, hrest, fun sole => Leads.nil _⟩
  · have hshorter : mid.length < ts.length := by
      have := hright.length_lt
      rw [hts, List.length_cons]
      omega
    obtain ⟨us, more', rfl, hmid, hus⟩ := application_leads hright
    obtain ⟨vs, more'', rfl, hend, hrest, hvs⟩ := pipes_leads hmid hpipes
    refine ⟨⟨.pipe, span⟩ :: us ++ vs, more'', by simp [hts], hend, hrest, fun sole => ?_⟩
    -- behind a pipe nothing is a name any more, neither what was read nor what is built
    have hmiddle := hus false false
    have hlast := hvs sole
    rw [Bool.false_and] at hmiddle
    rw [buildsName_of_pipeInto hjoined, Bool.and_false] at hlast
    rw [Token.kinds_append, Token.kinds_cons]
    exact hmiddle.pipe.append hlast
termination_by ts.length

theorem pipeline_leads {ts rest : List Token} {e : Expr} (h : Yields (pipeline stop ts) e rest) :
    ∃ us more, ts = us ++ rest ∧ EndsApplication more rest ∧
      Grammar.startsPipe (Token.kinds rest) = false ∧
      ∀ binds sole, Leads (Token.kinds us) (.start binds sole)
        (.behind more (sole && buildsName (some e))) := by
  obtain ⟨first, mid, hfirst, hpipes⟩ := pipeline_yields_iff.mp h
  obtain ⟨us, more, rfl, hmid, hus⟩ := application_leads hfirst
  obtain ⟨vs, more', rfl, hend, hrest, hvs⟩ := pipes_leads hmid hpipes
  refine ⟨us ++ vs, more', by rw [List.append_assoc], hend, hrest, fun binds sole => ?_⟩
  rw [Token.kinds_append]
  exact (hus binds sole).append (hvs sole)

/-- **What the parser reads as an expression leads a reader behind it**, where neither a pipe nor an
argument follows. -/
theorem expression_leads {ts rest : List Token} {e : Expr}
    (h : Yields (expression stop ts) e rest) :
    ∃ us more, ts = us ++ rest ∧ EndsApplication more rest ∧
      Grammar.startsPipe (Token.kinds rest) = false ∧
      ∀ sole, Leads (Token.kinds us) (.start true sole)
        (.behind more (sole && buildsName (some e))) := by
  rcases expression_yields_iff.mp h with ⟨keyword, ts', hts, hbinding⟩ | ⟨-, hpipeline⟩
  · obtain ⟨name, atName, atEquals, atIn, afterEquals, value, afterIn, body, hts', hvalue, hbody,
      rfl⟩ := binding_yields_iff.mp hbinding
    have hwords : afterEquals.length < ts.length := by
      rw [hts, hts']
      simp only [List.length_cons]
      omega
    have hshorter : afterIn.length < afterEquals.length := by
      have := hvalue.length_lt
      rw [List.length_cons] at this
      omega
    obtain ⟨us, _, rfl, -, -, hus⟩ := expression_leads hvalue
    obtain ⟨vs, more, rfl, hend, hrest, hvs⟩ := expression_leads hbody
    refine ⟨⟨.letWord, keyword⟩ :: ⟨.reference name, atName⟩ :: ⟨.equals, atEquals⟩ ::
      (us ++ ⟨.inWord, atIn⟩ :: vs), more, by simp [hts, hts'], hend, hrest, ?_⟩
    intro sole pending
    have hname : ∀ span, buildsName (some (Expr.binding span name value body)) = false :=
      fun _ => rfl
    have hbody := hvs false
    rw [Bool.false_and] at hbody
    rw [hname, Bool.and_false]
    simp only [Token.kinds_cons, Token.kinds_append]
    exact (Grammar.foldlM_binding (hus false) name _ pending).trans (hbody pending)
  · obtain ⟨us, more, rfl, hend, hrest, hus⟩ := pipeline_leads hpipeline
    exact ⟨us, more, rfl, hend, hrest, hus true⟩
termination_by ts.length
decreasing_by all_goals omega

/-! ## What is read is derived -/

/-- What an atom is read from is written by a derivation. -/
theorem atom_derives (h : Yields (atom stop (us ++ rest)) e rest) :
    ∃ a : Grammar.Atom, a.tree? = some e.bare ∧ a.tokens = Token.kinds us := by
  obtain ⟨a, vs, hvs, hwrites⟩ := atom_writes h
  obtain rfl := List.append_cancel_right hvs
  obtain ⟨htokens, htree⟩ := a.bare_of_writes hwrites
  exact ⟨a, htree, htokens.symm⟩

theorem application_derives (h : Yields (application stop (us ++ rest)) e rest) :
    ∃ a : Grammar.Application, a.AppliesNames ∧ a.tokens = Token.kinds us := by
  obtain ⟨a, vs, hvs, hwrites⟩ := application_writes h
  obtain rfl := List.append_cancel_right hvs
  obtain ⟨htokens, htree⟩ := a.bare_of_writes hwrites
  exact ⟨a, a.appliesNames_of_tree? htree, htokens.symm⟩

theorem expression_derives (h : Yields (expression stop (us ++ rest)) e rest) :
    ∃ d : Grammar.Expression, d.AppliesNames ∧ d.tokens = Token.kinds us := by
  obtain ⟨d, vs, hvs, hwrites⟩ := expression_writes h
  obtain rfl := List.append_cancel_right hvs
  obtain ⟨htokens, htree⟩ := d.bare_of_writes hwrites
  exact ⟨d, d.appliesNames_of_tree? htree, htokens.symm⟩

/-! ## Behind an expression -/

/-- The kind of the next token, which is the end of the text if there is none. -/
def nextKind : List Token → TokenKind
  | [] => .eof
  | t :: _ => t.kind

theorem startsAtom_nextKind (ts : List Token) :
    Grammar.startsAtom [nextKind ts] = Grammar.startsAtom (Token.kinds ts) := by
  rcases ts with _ | ⟨⟨kind, span⟩, ts⟩
  · rfl
  · cases kind <;> rfl

theorem startsPipe_nextKind (ts : List Token) :
    Grammar.startsPipe [nextKind ts] = Grammar.startsPipe (Token.kinds ts) := by
  rcases ts with _ | ⟨⟨kind, span⟩, ts⟩
  · rfl
  · cases kind <;> rfl

/-- Behind an expression a reader is stuck at a token that does not end what is open around it: the
parser has read as many arguments and pipes as there are. -/
theorem expression_ends {ts rest : List Token} {e : Expr} (h : Yields (expression stop ts) e rest) :
    ∃ us, ts = us ++ rest ∧
      (∃ d : Grammar.Expression, d.AppliesNames ∧ d.tokens = Token.kinds us) ∧
      ∀ sole pending, nextKind rest ≠ Grammar.closer pending →
        StuckFrom (pending, .start true sole) (Token.kinds us) (nextKind rest) := by
  obtain ⟨us, more, rfl, hmore, hpipe, hus⟩ := expression_leads h
  refine ⟨us, rfl, expression_derives h, fun sole pending hcloser => ?_⟩
  have hstuck :
      advance (pending, .behind more (sole && buildsName (some e))) (nextKind rest) = none := by
    refine Grammar.advance_behind_eq_none hcloser ?_ fun htrue => ?_
    · rw [startsPipe_nextKind, hpipe]
    · rw [startsAtom_nextKind, hmore htrue]
  exact ⟨_, hus sole pending, hstuck⟩

end SignalLab.Parser
