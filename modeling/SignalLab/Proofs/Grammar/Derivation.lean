import SignalLab.Expr.Parser

/-!
# The grammar of programs

A derivation is a tree by this grammar, in which a pipeline leans to the left:

    expression  = "let", name, "=", expression, "in", expression | pipeline
    pipeline    = application | pipeline, "|>", application
    application = atom | atom, atom, { atom }
    atom        = literal | reference | "(", expression, ")"

It writes a list of tokens (`tokens`) and builds an expression (`tree?`). Two rules ask for more
than their tokens: what is applied has to build a reference, and what is piped into has to build a
reference or an application. A derivation that breaks one of them builds nothing.

Places play no part here, so the expressions that derivations build have all their parts at one
place (`Expr.bare`).
-/

namespace SignalLab

/-! ## Expressions without places -/

namespace Expr

/-- The place of all parts of a bare expression. -/
def nowhere : Span := Span.point 0

/-- An expression without its places. -/
def bare (e : Expr) : Expr := e.mapSpan fun _ => nowhere

@[simp] theorem bare_literal (span : Span) (value : Float) :
    (literal span value).bare = .literal nowhere value := by
  rw [bare, mapSpan]

@[simp] theorem bare_reference (span : Span) (name : String) :
    (reference span name).bare = .reference nowhere name := by
  rw [bare, mapSpan]

theorem mapSpanAll_eq_map (f : Span → Span) (es : List Expr) :
    mapSpanAll f es = es.map (·.mapSpan f) := by
  induction es with
  | nil => rw [mapSpanAll, List.map_nil]
  | cons e rest ih => rw [mapSpanAll, ih, List.map_cons]

@[simp] theorem bare_application (span : Span) (name : String) (arguments : List Expr) :
    (application span name arguments).bare = .application nowhere name (arguments.map bare) := by
  rw [bare, mapSpan, mapSpanAll_eq_map]
  rfl

@[simp] theorem bare_binding (span : Span) (name : String) (value body : Expr) :
    (binding span name value body).bare = .binding nowhere name value.bare body.bare := by
  rw [bare, mapSpan]
  rfl

/-- Moving an expression does not change it but for its place. -/
@[simp] theorem bare_withSpan (span : Span) (e : Expr) : (e.withSpan span).bare = e.bare := by
  cases e <;> simp [withSpan]

end Expr

namespace Grammar

open SignalLab.Expr (nowhere)

/-! ## Derivations -/

mutual

/-- A derivation of an expression. -/
inductive Expression
  | binding (name : String) (value body : Expression)
  | pipeline (p : Pipeline)

/-- A derivation of a pipeline. -/
inductive Pipeline
  | application (a : Application)
  | pipe (left : Pipeline) (right : Application)

/-- A derivation of an application. -/
inductive Application
  | atom (a : Atom)
  | apply (head : Atom) (arguments : Arguments)

/-- Derivations of one or more atoms. -/
inductive Arguments
  | one (a : Atom)
  | more (a : Atom) (rest : Arguments)

/-- A derivation of an atom. -/
inductive Atom
  | literal (value : Float)
  | reference (name : String)
  | group (e : Expression)

end

/-! ## Tokens -/

mutual

/-- The tokens that a derivation of an expression writes. -/
def Expression.tokens : Expression → List TokenKind
  | .binding name value body =>
    .letWord :: .reference name :: .equals :: (value.tokens ++ .inWord :: body.tokens)
  | .pipeline p => p.tokens

/-- The tokens that a derivation of a pipeline writes. -/
def Pipeline.tokens : Pipeline → List TokenKind
  | .application a => a.tokens
  | .pipe left right => left.tokens ++ .pipe :: right.tokens

/-- The tokens that a derivation of an application writes. -/
def Application.tokens : Application → List TokenKind
  | .atom a => a.tokens
  | .apply head arguments => head.tokens ++ arguments.tokens

/-- The tokens that derivations of atoms write. -/
def Arguments.tokens : Arguments → List TokenKind
  | .one a => a.tokens
  | .more a rest => a.tokens ++ rest.tokens

/-- The tokens that a derivation of an atom writes. -/
def Atom.tokens : Atom → List TokenKind
  | .literal value => [.literal value]
  | .reference name => [.reference name]
  | .group e => .opening :: (e.tokens ++ [.closing])

end

/-! ## Trees -/

/-- What a pipe builds: the right side with the left one as its first argument. -/
def piped? (left : Expr) : Expr → Option Expr
  | .reference _ name => some (.application nowhere name [left])
  | .application _ name arguments => some (.application nowhere name (left :: arguments))
  | _ => none

/-- What an application to arguments builds: its head has to be a reference. -/
def applied? (head : Expr) (arguments : List Expr) : Option Expr :=
  match head with
  | .reference _ name => some (.application nowhere name arguments)
  | _ => none

theorem applied?_eq_some {head s : Expr} {arguments : List Expr}
    (h : applied? head arguments = some s) :
    ∃ span name, head = .reference span name ∧ s = .application nowhere name arguments := by
  cases head with
  | reference span name => exact ⟨span, name, rfl, (Option.some.inj h).symm⟩
  | _ => simp [applied?] at h

mutual

/-- The expression that a derivation builds. -/
def Expression.tree? : Expression → Option Expr
  | .binding name value body =>
    match value.tree?, body.tree? with
    | some x, some y => some (.binding nowhere name x y)
    | _, _ => none
  | .pipeline p => p.tree?

/-- The expression that a derivation of a pipeline builds. -/
def Pipeline.tree? : Pipeline → Option Expr
  | .application a => a.tree?
  | .pipe left right =>
    match left.tree?, right.tree? with
    | some x, some y => piped? x y
    | _, _ => none

/-- The expression that a derivation of an application builds. -/
def Application.tree? : Application → Option Expr
  | .atom a => a.tree?
  | .apply head arguments =>
    match head.tree?, arguments.trees? with
    | some x, some ys => applied? x ys
    | _, _ => none

/-- The expressions that derivations of atoms build. -/
def Arguments.trees? : Arguments → Option (List Expr)
  | .one a =>
    match a.tree? with
    | some x => some [x]
    | none => none
  | .more a rest =>
    match a.tree?, rest.trees? with
    | some x, some ys => some (x :: ys)
    | _, _ => none

/-- The expression that a derivation of an atom builds; parentheses leave it unchanged. -/
def Atom.tree? : Atom → Option Expr
  | .literal value => some (.literal nowhere value)
  | .reference name => some (.reference nowhere name)
  | .group e => e.tree?

end

/-! ## First tokens -/

/-- Whether the first token begins an atom. -/
def startsAtom : List TokenKind → Bool
  | .literal _ :: _ | .reference _ :: _ | .opening :: _ => true
  | _ => false

/-- Whether the first token is a pipe. -/
def startsPipe : List TokenKind → Bool
  | .pipe :: _ => true
  | _ => false

theorem Atom.startsAtom_tokens (a : Atom) (rest : List TokenKind) :
    startsAtom (a.tokens ++ rest) = true := by
  cases a <;> simp [Atom.tokens, startsAtom]

theorem Arguments.startsAtom_tokens (as : Arguments) (rest : List TokenKind) :
    startsAtom (as.tokens ++ rest) = true := by
  rcases as with a | ⟨a, as⟩
  · rw [Arguments.tokens, a.startsAtom_tokens]
  · rw [Arguments.tokens, List.append_assoc, a.startsAtom_tokens]

theorem Application.startsAtom_tokens (a : Application) (rest : List TokenKind) :
    startsAtom (a.tokens ++ rest) = true := by
  rcases a with a | ⟨head, arguments⟩
  · rw [Application.tokens, a.startsAtom_tokens]
  · rw [Application.tokens, List.append_assoc, head.startsAtom_tokens]

/-- A pipeline starts with the first of its applications. -/
theorem Pipeline.startsAtom_tokens : ∀ (p : Pipeline) (rest : List TokenKind),
    startsAtom (p.tokens ++ rest) = true
  | .application a, rest => by rw [Pipeline.tokens, a.startsAtom_tokens]
  | .pipe left right, rest => by
    rw [Pipeline.tokens, List.append_assoc, left.startsAtom_tokens]

end Grammar

end SignalLab
