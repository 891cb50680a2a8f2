import SignalLab.Vocabulary

/-!
# The documentation of a vocabulary

Every name is listed under the heading of its group, with the names of its arguments and a line of
text. Groups stand in their own order and names in the order of the vocabulary.
-/

namespace SignalLab

/-- What the documentation says about a name. -/
structure NameDoc where
  name : String
  arity : Nat
  parameters : List String
  doc : String
  category : Category

/-- The name followed by the names of its arguments. -/
def NameDoc.signature (d : NameDoc) : String :=
  " ".intercalate (d.name :: d.parameters)

/-- The column in which the text of a name begins, counted from its signature. -/
def docColumn : Nat := 24

/-- The line of a name. -/
def NameDoc.line (d : NameDoc) : String :=
  let signature := d.signature
  let gap := String.ofList (List.replicate (docColumn - signature.length) ' ')
  "  " ++ signature ++ gap ++ " " ++ d.doc ++ "\n"

namespace Vocabulary

/-- The documentation of every name, in order. -/
def docs (v : Vocabulary) : List NameDoc :=
  v.entries.map fun (name, e) => ⟨name, e.arity, e.parameters, e.doc, e.category⟩

/-- The part of the listing that shows one group, unless it has no names. -/
def section? (v : Vocabulary) (category : Category) : Option String :=
  match v.docs.filter (·.category = category) with
  | [] => none
  | group => some (category.title ++ ":\n" ++ String.join (group.map NameDoc.line))

/-- The listing of all groups, or of one. -/
def listing (v : Vocabulary) (only : Option Category) : String :=
  let shown := Category.all.filter fun c => only.all (· = c)
  "\n".intercalate (shown.filterMap v.section?)

end Vocabulary

end SignalLab
