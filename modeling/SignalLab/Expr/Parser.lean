import SignalLab.Expr
import SignalLab.Token.Scan

/-!
# From tokens to expressions

The parser reads a list of tokens by this grammar, looking at one token at a time:

    program     = expression, end of text
    expression  = binding | pipeline
    binding     = "let", reference, "=", expression, "in", expression
    pipeline    = application, { "|>", application }
    application = atom, { atom }
    atom        = literal | reference | "(", expression, ")"

Only an atom that is a reference takes arguments. The application to the right of a pipe gets what
stands to the left of it as its first argument, so `x |> f a` is `f x a`; it must be a reference or an
application. Both rules look at the expression and not at its text, so parentheses change neither.

## Shape of the parser

Each rule takes the tokens that remain, without the end of the text, and answers with an expression
and the tokens behind it. The answer carries a proof that tokens were used up, which is why rules that
call each other end. Where no token remains the parser is looking at the end of the text, whose place
is passed along for messages.
-/

namespace SignalLab

namespace Parser

/-! ## Tokens that remain -/

/-- The tokens behind some that were used up at the front of `ts`. -/
abbrev Rest (ts : List Token) := { rest : List Token // rest.length < ts.length }

/-- What a rule answers: an expression and the tokens behind it, or what is wrong. -/
abbrev Parsed (ts : List Token) := Except Diagnostic (Expr × Rest ts)

/-- The diagnostic that something else was wanted than the next token. -/
def unexpected (stop : Span) (want context : String) : List Token → Diagnostic
  | [] => .token want TokenKind.eof.describe context stop
  | t :: _ => .token want t.kind.describe context t.span

/-- Takes a token of a kind without a value. -/
def expect (stop : Span) (kind : TokenKind) (context : String) (ts : List Token) :
    Except Diagnostic (Span × Rest ts) :=
  match ts with
  | t :: rest =>
    if t.kind = kind then .ok (t.span, ⟨rest, by simp⟩)
    else .error (unexpected stop kind.describe context (t :: rest))
  | [] => .error (unexpected stop kind.describe context [])

/-- Takes a name. -/
def expectName (stop : Span) (context : String) (ts : List Token) :
    Except Diagnostic (String × Rest ts) :=
  match ts with
  | ⟨.reference name, _⟩ :: rest => .ok (name, ⟨rest, by simp⟩)
  | ts => .error (unexpected stop "reference" context ts)

/-- Whether the next token begins an atom. -/
def startsAtom : List Token → Bool
  | ⟨.literal _, _⟩ :: _ | ⟨.reference _, _⟩ :: _ | ⟨.opening, _⟩ :: _ => true
  | _ => false

/-! ## Pipes -/

/-- The application to the right of a pipe with `left` as its first argument. -/
def pipeInto (pipe : Span) (left right : Expr) : Except Diagnostic Expr :=
  let span := left.span.merge right.span
  match right with
  | .reference _ name => .ok (.application span name [left])
  | .application _ name arguments => .ok (.application span name (left :: arguments))
  | other => .error (.token "reference or application" other.describe "pipeline" pipe)

/-- A name applied to arguments, or the name alone if there are none. -/
def applied (head : Expr) (name : String) (arguments : List Expr) : Expr :=
  match arguments.getLast? with
  | none => head
  | some last => .application (head.span.merge last.span) name arguments

/-! ## The rules -/

mutual

/-- A literal, a reference, or an expression in parentheses, which it spans. -/
def atom (stop : Span) (ts : List Token) : Parsed ts :=
  match ts with
  | ⟨.literal value, span⟩ :: rest => .ok (.literal span value, ⟨rest, by simp⟩)
  | ⟨.reference name, span⟩ :: rest => .ok (.reference span name, ⟨rest, by simp⟩)
  | ⟨.opening, first⟩ :: rest =>
    match expression stop rest with
    | .error d => .error d
    | .ok (e, ⟨inner, hInner⟩) =>
      match expect stop .closing "parenthesized expression" inner with
      | .error d => .error d
      | .ok (last, ⟨outer, hOuter⟩) =>
        .ok (e.withSpan (first.merge last), ⟨outer, by simp only [List.length_cons]; omega⟩)
  | ts => .error (unexpected stop "reference, literal or \"(\"" "atomic expression" ts)
termination_by 5 * ts.length + 0
decreasing_by all_goals simp only [List.length_cons]; omega

/-- As many atoms as there are. -/
def atoms (stop : Span) (ts : List Token) :
    Except Diagnostic (List Expr × { rest : List Token // rest.length ≤ ts.length }) :=
  if startsAtom ts then
    match atom stop ts with
    | .error d => .error d
    | .ok (e, ⟨rest, hRest⟩) =>
      match atoms stop rest with
      | .error d => .error d
      | .ok (es, ⟨final, hFinal⟩) => .ok (e :: es, ⟨final, by omega⟩)
  else .ok ([], ⟨ts, Nat.le_refl _⟩)
termination_by 5 * ts.length + 1
decreasing_by all_goals omega

/-- An atom, with the atoms that follow as its arguments if it is a reference. -/
def application (stop : Span) (ts : List Token) : Parsed ts :=
  match atom stop ts with
  | .error d => .error d
  | .ok (head, ⟨rest, hRest⟩) =>
    match head with
    | .reference _ name =>
      match atoms stop rest with
      | .error d => .error d
      | .ok (arguments, ⟨final, hFinal⟩) =>
        .ok (applied head name arguments, ⟨final, by omega⟩)
    | _ => .ok (head, ⟨rest, hRest⟩)
termination_by 5 * ts.length + 2
decreasing_by all_goals omega

/-- The pipes that follow `left`. -/
def pipes (stop : Span) (left : Expr) (ts : List Token) :
    Except Diagnostic (Expr × { rest : List Token // rest.length ≤ ts.length }) :=
  match ts with
  | ⟨.pipe, span⟩ :: rest =>
    match application stop rest with
    | .error d => .error d
    | .ok (right, ⟨next, hNext⟩) =>
      match pipeInto span left right with
      | .error d => .error d
      | .ok joined =>
        match pipes stop joined next with
        | .error d => .error d
        | .ok (e, ⟨final, hFinal⟩) => .ok (e, ⟨final, by simp only [List.length_cons]; omega⟩)
  | ts => .ok (left, ⟨ts, Nat.le_refl _⟩)
termination_by 5 * ts.length + 0
decreasing_by all_goals simp only [List.length_cons]; omega

/-- An application with the pipes that follow it. -/
def pipeline (stop : Span) (ts : List Token) : Parsed ts :=
  match application stop ts with
  | .error d => .error d
  | .ok (first, ⟨rest, hRest⟩) =>
    match pipes stop first rest with
    | .error d => .error d
    | .ok (e, ⟨final, hFinal⟩) => .ok (e, ⟨final, by omega⟩)
termination_by 5 * ts.length + 3
decreasing_by all_goals omega

/-- What follows the word that begins a binding, which stands at `keyword`. -/
def binding (stop : Span) (keyword : Span) (ts : List Token) : Parsed ts :=
  match expectName stop "let expression" ts with
  | .error d => .error d
  | .ok (name, ⟨afterName, hName⟩) =>
    match expect stop .equals "let expression" afterName with
    | .error d => .error d
    | .ok (_, ⟨afterEquals, hEquals⟩) =>
      match expression stop afterEquals with
      | .error d => .error d
      | .ok (value, ⟨afterValue, hValue⟩) =>
        match expect stop .inWord "let expression" afterValue with
        | .error d => .error d
        | .ok (_, ⟨afterIn, hIn⟩) =>
          match expression stop afterIn with
          | .error d => .error d
          | .ok (body, ⟨rest, hBody⟩) =>
            .ok (.binding (keyword.merge body.span) name value body, ⟨rest, by omega⟩)
termination_by 5 * ts.length + 0
decreasing_by all_goals omega

/-- A binding or a pipeline. -/
def expression (stop : Span) (ts : List Token) : Parsed ts :=
  match ts with
  | ⟨.letWord, keyword⟩ :: rest =>
    match binding stop keyword rest with
    | .error d => .error d
    | .ok (e, ⟨final, hFinal⟩) => .ok (e, ⟨final, by simp only [List.length_cons]; omega⟩)
  | ts => pipeline stop ts
termination_by 5 * ts.length + 4
decreasing_by
  · simp only [List.length_cons]; omega
  · omega

end

/-! ## Whole programs -/

/-- The tokens before the end of the text. -/
def beforeEof (ts : List Token) : List Token := ts.takeWhile (!·.isEof)

/-- The place of the end of the text: that of the first token that stands for it, or else right after
the last token. -/
def eofSpan (ts : List Token) : Span :=
  match ts.find? Token.isEof with
  | some t => t.span
  | none =>
    match ts.getLast? with
    | some t => Span.point t.span.stop
    | none => Span.point 0

end Parser

namespace Expr

/-- The expression that a list of tokens writes. Nothing behind the first end of the text matters, and
a list without one ends after its last token. -/
def ofTokens (ts : List Token) : Except Diagnostic Expr :=
  let stop := Parser.eofSpan ts
  match Parser.expression stop (Parser.beforeEof ts) with
  | .error d => .error d
  | .ok (e, ⟨[], _⟩) => .ok e
  | .ok (_, ⟨rest, _⟩) => .error (Parser.unexpected stop TokenKind.eof.describe "program" rest)

/-- The expression that a source text writes. -/
def parse (source : String) : Except Diagnostic Expr :=
  match Token.scan source with
  | .error d => .error d
  | .ok ts => ofTokens ts

end Expr

end SignalLab
