import SignalLab.Span

/-!
# Tokens

A program is read as a list of tokens, each with the span of text it was made from. The list ends in a
token that stands for the end of the text.
-/

namespace SignalLab

/-- What a token is. -/
inductive TokenKind
  /-- A number. -/
  | literal (value : Float)
  /-- A name. -/
  | reference (name : String)
  /-- An opening parenthesis. -/
  | opening
  /-- A closing parenthesis. -/
  | closing
  /-- The equals sign of a binding. -/
  | equals
  /-- The sign that passes a value on to an application. -/
  | pipe
  /-- The word that begins a binding. -/
  | letWord
  /-- The word between a binding's value and its body. -/
  | inWord
  /-- The end of the text. -/
  | eof
  deriving DecidableEq

/-- The name of a kind of token in messages. -/
def TokenKind.describe : TokenKind → String
  | .literal _ => "literal"
  | .reference _ => "reference"
  | .opening => "("
  | .closing => ")"
  | .equals => "="
  | .pipe => "|>"
  | .letWord => "let"
  | .inWord => "in"
  | .eof => "eof"

/-- A token and its place in the source text. -/
structure Token where
  kind : TokenKind
  span : Span
  deriving DecidableEq

/-- Applies a function to the span of a token. -/
def Token.mapSpan (f : Span → Span) (t : Token) : Token := { t with span := f t.span }

/-- Whether a token stands for the end of the text. -/
def Token.isEof (t : Token) : Bool :=
  match t.kind with
  | .eof => true
  | _ => false

end SignalLab
