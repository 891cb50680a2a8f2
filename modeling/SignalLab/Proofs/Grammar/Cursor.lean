import Mathlib
import SignalLab.Expr.Parser

/-!
# A parser that keeps its place

The rules of the grammar once more, for a list of tokens that is never cut. What has been read is
told by a place in the list, which only `advance` moves. It goes on by one and stays where it is at
the last token, so that there is always a token to look at.

Each rule is written in terms of readings for what it calls, which may be any readings. What the
rules read is the least fixed point of this (`readings`). Nothing in these definitions says that a
rule ever comes to an end: the rules call each other and the two loops call themselves without a
measure that gets smaller, and a reading that would go on forever has no answer. A reading that
fails has come to a place just as one that reads something. That all readings end, and where, is
proved in `Proofs.Grammar.Forward`.

## Tapes

A tape is a list of tokens that ends in an end of the text. One is added to a list that ends
otherwise (`Tape.complete`); the list is not searched for others, so that there may be several.
-/

namespace SignalLab

/-- A list of tokens whose last one stands for the end of the text. -/
structure Tape where
  tokens : List Token
  ends : tokens.getLast?.any Token.isEof = true

namespace Tape

theorem length_pos (s : Tape) : 0 < s.tokens.length := by
  rw [List.length_pos_iff]
  intro hnil
  have hends := s.ends
  rw [hnil] at hends
  cases hends

/-- The last place of a tape. -/
def last (s : Tape) : Nat := s.tokens.length - 1

/-- The token at a place; behind the last one it is the last one. -/
def tokenAt (s : Tape) (p : Nat) : Token :=
  s.tokens.get ⟨min p s.last, by
    have := s.length_pos
    rw [last]
    omega⟩

/-- The place behind a place; behind the last one there is none. -/
def next (s : Tape) (p : Nat) : Nat := if p < s.last then p + 1 else p

/-- The place of the first end of the text. -/
def eof (s : Tape) : Nat := s.tokens.findIdx Token.isEof

/-- The end of the text right after some tokens. -/
def eofAfter (ts : List Token) : Token :=
  ⟨.eof, Span.point ((ts.getLast?.map (·.span.stop)).getD 0)⟩

/-- Looks at the last token and adds an end of the text if it is none. -/
def complete (ts : List Token) : Tape :=
  if h : ts.getLast?.any Token.isEof = true then ⟨ts, h⟩
  else ⟨ts ++ [eofAfter ts], by rw [List.getLast?_concat]; rfl⟩

end Tape

namespace Cursor

/-! ## Readings -/

/-- Reads from a place on: what is read or what is wrong with it, and the place that is reached.
There is no answer if the reading does not end. -/
abbrev Reading (α : Type) := ExceptT Diagnostic (StateT Nat Part) α

/-- A reading from `p` on ends at `q` with an answer. -/
def Reads {α : Type} (r : Reading α) (p : Nat) (answer : Except Diagnostic α) (q : Nat) : Prop :=
  r.run.run p = Part.some (answer, q)

/-- Looks at the token at the place. -/
def peek (s : Tape) : Reading Token := do
  return s.tokenAt (← get)

/-- Takes the token at the place. -/
def advance (s : Tape) : Reading Token := do
  let p ← get
  set (s.next p)
  return s.tokenAt p

/-- The diagnostic that something else was wanted than a token. -/
def unexpected (want context : String) (t : Token) : Diagnostic :=
  .token want t.kind.describe context t.span

/-- Takes a token of a kind without a value. -/
def expect (s : Tape) (kind : TokenKind) (context : String) : Reading Token := do
  let t ← peek s
  if t.kind = kind then advance s else throw (unexpected kind.describe context t)

/-- Takes a name. -/
def expectName (s : Tape) (context : String) : Reading String := do
  let t ← peek s
  match t.kind with
  | .reference name =>
    let _ ← advance s
    return name
  | _ => throw (unexpected "reference" context t)

/-! ## The rules -/

/-- The rules that read an expression. -/
inductive Rule
  | expression
  | binding
  | pipeline
  | application
  | atom
  | grouped

/-- What the rules call: each other, the loop that reads arguments behind those that were read
before, and the loop that reads pipes behind the left one. -/
inductive Call
  | rule (rule : Rule)
  | arguments (before : List Expr)
  | pipes (left : Expr)

/-- What a call reads. -/
def Call.Result : Call → Type
  | .rule _ => Expr
  | .arguments _ => List Expr
  | .pipes _ => Expr

/-- A reading for each call, from each place. -/
abbrev Readings := (c : Call × Nat) → Part (Except Diagnostic c.1.Result × Nat)

namespace Readings

variable (r : Readings)

/-- The reading of a rule. -/
def rule (rule : Rule) : Reading Expr := fun p => r (.rule rule, p)

/-- The reading of the loop over arguments. -/
def arguments (before : List Expr) : Reading (List Expr) := fun p => r (.arguments before, p)

/-- The reading of the loop over pipes. -/
def pipes (left : Expr) : Reading Expr := fun p => r (.pipes left, p)

end Readings

/-- An expression in parentheses. -/
def groupedWith (s : Tape) (r : Readings) : Reading Expr := do
  let opening ← advance s
  let e ← r.rule .expression
  let closing ← expect s .closing "parenthesized expression"
  return e.withSpan (opening.span.merge closing.span)

/-- A literal, a reference, or an expression in parentheses. -/
def atomWith (s : Tape) (r : Readings) : Reading Expr := do
  let t ← peek s
  match t.kind with
  | .literal value =>
    let _ ← advance s
    return .literal t.span value
  | .reference name =>
    let _ ← advance s
    return .reference t.span name
  | .opening => r.rule .grouped
  | _ => throw (unexpected "reference, literal or \"(\"" "atomic expression" t)

/-- Another argument, if there is one, and what follows it. -/
def argumentsWith (s : Tape) (r : Readings) (before : List Expr) : Reading (List Expr) := do
  let t ← peek s
  if Parser.startsAtom [t] then
    let e ← r.rule .atom
    r.arguments (before ++ [e])
  else return before

/-- An atom, with arguments if it is a reference. -/
def applicationWith (r : Readings) : Reading Expr := do
  let head ← r.rule .atom
  match head with
  | .reference _ name =>
    let es ← r.arguments []
    return Parser.applied head name es
  | _ => return head

/-- Another pipe, if there is one, and what follows it. -/
def pipesWith (s : Tape) (r : Readings) (left : Expr) : Reading Expr := do
  let t ← peek s
  if t.kind = .pipe then
    let pipe ← advance s
    let right ← r.rule .application
    match Parser.pipeInto pipe.span left right with
    | .ok joined => r.pipes joined
    | .error d => throw d
  else return left

/-- An application with the pipes that follow it. -/
def pipelineWith (r : Readings) : Reading Expr := do
  let first ← r.rule .application
  r.pipes first

/-- A binding, from the word that begins it. -/
def bindingWith (s : Tape) (r : Readings) : Reading Expr := do
  let keyword ← advance s
  let name ← expectName s "let expression"
  let _ ← expect s .equals "let expression"
  let value ← r.rule .expression
  let _ ← expect s .inWord "let expression"
  let body ← r.rule .expression
  return .binding (keyword.span.merge body.span) name value body

/-- A binding or a pipeline. -/
def expressionWith (s : Tape) (r : Readings) : Reading Expr := do
  let t ← peek s
  if t.kind = .letWord then r.rule .binding else r.rule .pipeline

/-- What each call reads if those that it calls read what `r` says. -/
def step (s : Tape) (r : Readings) : Readings
  | (.rule .expression, p) => expressionWith s r p
  | (.rule .binding, p) => bindingWith s r p
  | (.rule .pipeline, p) => pipelineWith r p
  | (.rule .application, p) => applicationWith r p
  | (.rule .atom, p) => atomWith s r p
  | (.rule .grouped, p) => groupedWith s r p
  | (.arguments before, p) => argumentsWith s r before p
  | (.pipes left, p) => pipesWith s r left p

/-- What the calls read: the least readings that the rules do not change. -/
noncomputable def readings (s : Tape) : Readings := Part.fix (step s)

/-- What a rule reads. -/
noncomputable def Rule.read (rule : Rule) (s : Tape) : Reading Expr := (readings s).rule rule

/-- What the loop over arguments reads. -/
noncomputable def arguments (s : Tape) : List Expr → Reading (List Expr) := (readings s).arguments

/-- What the loop over pipes reads. -/
noncomputable def pipes (s : Tape) : Expr → Reading Expr := (readings s).pipes

/-- A whole program: an expression, and then the end of the text. -/
noncomputable def program (s : Tape) : Reading Expr := do
  let e ← Rule.expression.read s
  let _ ← expect s .eof "program"
  return e

/-- What a list of tokens is read as, from its first token on; there is no answer if the reading
does not end. -/
noncomputable def parse (ts : List Token) : Part (Except Diagnostic Expr) :=
  ((program (.complete ts)).run.run 0).map (·.1)

/-! ## The rules as equations

An answer comes from finitely many calls (`Continuous`), so that the fixed point is one: each rule
reads what it says with the readings of the others.
-/

section

open OmegaCompletePartialOrder

variable {α β : Type} {r : Readings → Reading α} {f : Readings → α → Reading β}

/-- Each answer of a reading comes from finitely many answers to its calls. -/
def Continuous (r : Readings → Reading α) : Prop := ∀ p, ωScottContinuous fun x => r x p

theorem continuous_const (r : Reading α) : Continuous fun _ => r :=
  fun _ => ωScottContinuous.const

theorem continuous_rule (rule : Rule) : Continuous (·.rule rule) :=
  fun p => ωScottContinuous.id.apply₂ (Call.rule rule, p)

theorem continuous_arguments (before : List Expr) : Continuous (·.arguments before) :=
  fun p => ωScottContinuous.id.apply₂ (Call.arguments before, p)

theorem continuous_pipes (left : Expr) : Continuous (·.pipes left) :=
  fun p => ωScottContinuous.id.apply₂ (Call.pipes left, p)

theorem Continuous.bind (hr : Continuous r) (hf : ∀ a, Continuous fun x => f x a) :
    Continuous fun x => r x >>= f x := by
  intro p
  refine ContinuousHom.ωScottContinuous.bind
    (g := fun x answer => (ExceptT.bindCont (f x) answer.1).run answer.2) (hr p) (.of_apply₂ ?_)
  rintro ⟨d | a, q⟩
  · exact ωScottContinuous.const
  · exact hf a q

theorem continuous_atomWith (s : Tape) : Continuous (atomWith s) := by
  refine (continuous_const _).bind fun t => ?_
  cases t.kind with
  | opening => exact continuous_rule .grouped
  | _ => exact continuous_const _

theorem continuous_groupedWith (s : Tape) : Continuous (groupedWith s) :=
  (continuous_const _).bind fun _ => (continuous_rule .expression).bind fun _ => continuous_const _

theorem continuous_argumentsWith (s : Tape) (before : List Expr) :
    Continuous (argumentsWith s · before) := by
  refine (continuous_const _).bind fun t => ?_
  split
  · exact (continuous_rule .atom).bind fun e => continuous_arguments _
  · exact continuous_const _

theorem continuous_applicationWith : Continuous applicationWith := by
  refine (continuous_rule .atom).bind fun head => ?_
  cases head with
  | reference span name => exact (continuous_arguments []).bind fun _ => continuous_const _
  | _ => exact continuous_const _

theorem continuous_pipesWith (s : Tape) (left : Expr) : Continuous (pipesWith s · left) := by
  refine (continuous_const _).bind fun t => ?_
  split
  · refine (continuous_const _).bind fun pipe => (continuous_rule .application).bind fun right => ?_
    split
    · exact continuous_pipes _
    · exact continuous_const _
  · exact continuous_const _

theorem continuous_pipelineWith : Continuous pipelineWith :=
  (continuous_rule .application).bind fun first => continuous_pipes first

theorem continuous_bindingWith (s : Tape) : Continuous (bindingWith s) :=
  (continuous_const _).bind fun _ => (continuous_const _).bind fun _ =>
    (continuous_const _).bind fun _ => (continuous_rule .expression).bind fun _ =>
      (continuous_const _).bind fun _ => (continuous_rule .expression).bind fun _ =>
        continuous_const _

theorem continuous_expressionWith (s : Tape) : Continuous (expressionWith s) := by
  refine (continuous_const _).bind fun t => ?_
  split
  · exact continuous_rule .binding
  · exact continuous_rule .pipeline

theorem continuous_step (s : Tape) : ωScottContinuous (step s) := by
  refine .of_apply₂ ?_
  rintro ⟨c, p⟩
  cases c with
  | rule rule =>
    cases rule with
    | expression => exact continuous_expressionWith s p
    | binding => exact continuous_bindingWith s p
    | pipeline => exact continuous_pipelineWith p
    | application => exact continuous_applicationWith p
    | atom => exact continuous_atomWith s p
    | grouped => exact continuous_groupedWith s p
  | arguments before => exact continuous_argumentsWith s before p
  | pipes left => exact continuous_pipesWith s left p

/-- **The readings are those that the rules say.** -/
theorem readings_eq (s : Tape) : readings s = step s (readings s) :=
  Part.fix_eq_of_ωScottContinuous (continuous_step s)

end

section

variable (s : Tape)

theorem expression_eq : Rule.expression.read s = expressionWith s (readings s) :=
  funext fun p => congrFun (readings_eq s) (.rule .expression, p)

theorem binding_eq : Rule.binding.read s = bindingWith s (readings s) :=
  funext fun p => congrFun (readings_eq s) (.rule .binding, p)

theorem pipeline_eq : Rule.pipeline.read s = pipelineWith (readings s) :=
  funext fun p => congrFun (readings_eq s) (.rule .pipeline, p)

theorem application_eq : Rule.application.read s = applicationWith (readings s) :=
  funext fun p => congrFun (readings_eq s) (.rule .application, p)

theorem atom_eq : Rule.atom.read s = atomWith s (readings s) :=
  funext fun p => congrFun (readings_eq s) (.rule .atom, p)

theorem grouped_eq : Rule.grouped.read s = groupedWith s (readings s) :=
  funext fun p => congrFun (readings_eq s) (.rule .grouped, p)

theorem arguments_eq (before : List Expr) :
    arguments s before = argumentsWith s (readings s) before :=
  funext fun p => congrFun (readings_eq s) (.arguments before, p)

theorem pipes_eq (left : Expr) : pipes s left = pipesWith s (readings s) left :=
  funext fun p => congrFun (readings_eq s) (.pipes left, p)

end

/-! ## Where the rules begin -/

/-- One turn of the loop over arguments, which takes an atom. -/
def ArgumentTurn (s : Tape) (p q : Nat) : Prop :=
  Parser.startsAtom [s.tokenAt p] = true ∧ ∃ e, Reads (Rule.atom.read s) p (.ok e) q

/-- One turn of the loop over pipes, which takes a pipe and an application. -/
def PipeTurn (s : Tape) (p q : Nat) : Prop :=
  (s.tokenAt p).kind = .pipe ∧ ∃ e, Reads (Rule.application.read s) (s.next p) (.ok e) q

/-- The value of a binding at `p` is to be read from `q` on. -/
def ValueAt (s : Tape) (p q : Nat) : Prop :=
  ∃ name t q', Reads (expectName s "let expression") (s.next p) (.ok name) q' ∧
    Reads (expect s .equals "let expression") q' (.ok t) q

/-- The body of a binding whose value begins at `p` is to be read from `q` on. -/
def BodyAt (s : Tape) (p q : Nat) : Prop :=
  ∃ value t q', Reads (Rule.expression.read s) p (.ok value) q' ∧
    Reads (expect s .inWord "let expression") q' (.ok t) q

/-- A rule is begun at a place while a program is read. -/
inductive Reaches (s : Tape) : Rule → Nat → Prop
  | program : Reaches s .expression 0
  | binding {p : Nat} (h : Reaches s .expression p) (hkind : (s.tokenAt p).kind = .letWord) :
      Reaches s .binding p
  | value {p q : Nat} (h : Reaches s .binding p) (hvalue : ValueAt s p q) : Reaches s .expression q
  | body {p q q' : Nat} (h : Reaches s .binding p) (hvalue : ValueAt s p q) (hbody : BodyAt s q q') :
      Reaches s .expression q'
  | pipeline {p : Nat} (h : Reaches s .expression p) (hkind : (s.tokenAt p).kind ≠ .letWord) :
      Reaches s .pipeline p
  | first {p : Nat} (h : Reaches s .pipeline p) : Reaches s .application p
  | piped {p q q' : Nat} {e : Expr} (h : Reaches s .pipeline p)
      (hfirst : Reads (Rule.application.read s) p (.ok e) q)
      (hturns : Relation.ReflTransGen (PipeTurn s) q q')
      (hkind : (s.tokenAt q').kind = .pipe) : Reaches s .application (s.next q')
  | head {p : Nat} (h : Reaches s .application p) : Reaches s .atom p
  | argument {p q q' : Nat} {span : Span} {name : String} (h : Reaches s .application p)
      (hhead : Reads (Rule.atom.read s) p (.ok (.reference span name)) q)
      (hturns : Relation.ReflTransGen (ArgumentTurn s) q q')
      (hstarts : Parser.startsAtom [s.tokenAt q'] = true) : Reaches s .atom q'
  | grouped {p : Nat} (h : Reaches s .atom p) (hkind : (s.tokenAt p).kind = .opening) :
      Reaches s .grouped p
  | inner {p : Nat} (h : Reaches s .grouped p) : Reaches s .expression (s.next p)

end Cursor

end SignalLab
