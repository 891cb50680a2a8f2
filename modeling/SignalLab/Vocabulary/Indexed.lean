import SignalLab.Vocabulary.Table
import Mathlib.Data.Nat.Notation

/-!
# Tables with an index

A table finds a name by going through its entries. An indexed table keeps the places of its names
beside the entries, so that look-up and insertion need not search. Nothing makes the two fit
together but the way in which insertion changes both: an index that were stale or shifted would find
another entry than the one that stands in order. Insertions make the same entries with an index and
without one, so a vocabulary keeps the plain table.
-/

namespace SignalLab

/-- Entries under their names, and an index of the places at which the names stand. -/
structure IndexedTable where
  entries : Array (String × Entry)
  index : Std.HashMap String Nat

namespace IndexedTable

/-- The indexed table without entries. -/
def empty : IndexedTable := ⟨#[], ∅⟩

/-- The entry of a name, which the index leads to. -/
def find? (t : IndexedTable) (name : String) : Option Entry :=
  match t.index[name]? with
  | some i => t.entries[i]?.map (·.2)
  | none => none

/-- Gives a name an entry: at the place that the index has for it, and otherwise behind all others,
which is then its place in the index. -/
def insert (t : IndexedTable) (name : String) (entry : Entry) : IndexedTable :=
  match t.index[name]? with
  | some i => { t with entries := t.entries.modify i fun old => (old.1, entry) }
  | none => ⟨t.entries.push (name, entry), t.index.insert name t.entries.size⟩

/-- Inserts named entries one after the other. -/
def insertAll (t : IndexedTable) (named : List (String × Entry)) : IndexedTable :=
  named.foldl (fun t (name, entry) => t.insert name entry) t

/-- The entries without the index. -/
def toTable (t : IndexedTable) : Table := ⟨t.entries.toList⟩

/-- The name that stands at a place. -/
def nameAt? (t : IndexedTable) (i : Nat) : Option String := t.entries[i]?.map (·.1)

/-- Where an insertion puts the entry of a name: where the name stands, or behind all others. -/
def place (t : IndexedTable) (name : String) : Nat := t.index[name]?.getD t.entries.size

end IndexedTable

end SignalLab
