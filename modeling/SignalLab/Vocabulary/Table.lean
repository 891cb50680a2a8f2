import SignalLab.Vocabulary.Entry

/-!
# Tables of entries

A table keeps its entries in the order in which their names were first inserted. Inserting a name
again replaces its entry where it stands, so no name stands in a table twice.
-/

namespace SignalLab

/-- Entries under their names, in order of first insertion. -/
structure Table where
  entries : List (String × Entry)

namespace Table

/-- The table without entries. -/
def empty : Table := ⟨[]⟩

/-- The place of a name in a table. -/
def index? (t : Table) (name : String) : Option Nat :=
  t.entries.findIdx? (·.1 = name)

/-- The entry of a name. -/
def find? (t : Table) (name : String) : Option Entry :=
  match t.index? name with
  | none => none
  | some i => t.entries[i]?.map (·.2)

/-- Gives a name an entry: in its old place if it has one, and behind all others if not. -/
def insert (t : Table) (name : String) (entry : Entry) : Table :=
  match t.index? name with
  | some i => ⟨t.entries.set i (name, entry)⟩
  | none => ⟨t.entries ++ [(name, entry)]⟩

/-- Inserts named entries one after the other. -/
def insertAll (t : Table) (named : List (String × Entry)) : Table :=
  named.foldl (fun t (name, entry) => t.insert name entry) t

/-- How many entries a table has. -/
def size (t : Table) : Nat := t.entries.length

end Table

end SignalLab
