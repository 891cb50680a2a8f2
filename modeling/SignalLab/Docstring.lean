import SignalLab.Text.Blank

/-!
# The name and description of a program

A program is named by its leading comments. The first comment with any text is the name; the comments
on the lines directly below it are the description, joined by blanks. Blank lines and empty comments
before the name are passed over, and empty comments within the description too.
-/

namespace SignalLab

/-- What a program's leading comments say about it. -/
structure Docstring where
  name : String
  description : Option String
  deriving DecidableEq, Repr

namespace Docstring

/-- The name of a program without one. -/
def unnamed : String := "Algorithm"

/-- The text of a trimmed line that is a comment: without its comment signs and the blanks around
it. -/
def commentText? : List Char → Option (List Char)
  | '#' :: rest => some (Text.trimChars (rest.dropWhile (· == '#')))
  | _ => none

/-- Whether a trimmed line may stand before the name. -/
def isEmptyLine (line : List Char) : Bool :=
  line.isEmpty || commentText? line == some []

/-- The texts of the comments at the front of some lines. -/
def leadingComments : List (List Char) → List (List Char)
  | [] => []
  | line :: rest =>
    match commentText? line with
    | none => []
    | some text => text :: leadingComments rest

/-- What the leading comments of a source text say. -/
def ofSource (source : String) : Docstring :=
  let lines := (Text.lineChars source.toList).map Text.trimChars
  match leadingComments (lines.dropWhile isEmptyLine) with
  | [] => ⟨unnamed, none⟩
  | name :: texts =>
    let shown := texts.filter (!·.isEmpty)
    let description :=
      if shown.isEmpty then none else some (" ".intercalate (shown.map String.ofList))
    ⟨String.ofList name, description⟩

end Docstring

end SignalLab
