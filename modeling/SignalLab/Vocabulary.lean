import SignalLab.Market.Feeds
import SignalLab.Vocabulary.Arithmetic
import SignalLab.Vocabulary.Logic
import SignalLab.Vocabulary.Rolling
import SignalLab.Vocabulary.Table

/-!
# The vocabulary of programs

A vocabulary gives the names that programs use a meaning. The standard one has the inputs of a market,
a few constants, and the functions of the three groups. Its inputs are zero until a market is bound.

## Binding

Binding a market leaves the table of entries alone and lays new meanings of the six inputs over it.
Names, order, roles and documentation are therefore the same for all vocabularies made from one by
binding, and a program lowered with one of them can be evaluated with any other.

The constant `random` stands for numbers drawn elsewhere. The vocabulary takes them as a signal, so
that everything here is a function of its arguments.
-/

namespace SignalLab

/-! ## The standard names -/

/-- The names of the inputs, reading zero, and of the age of a sample. -/
def inputEntries : List (String × Entry) :=
  let input (doc : String) : Entry := .ofSignal .inputs (Series.constant 0.0) doc
  [("price", input "current price"),
   ("volume", input "current volume"),
   ("open", input "current open"),
   ("close", input "current close"),
   ("high", input "current high"),
   ("low", input "current low"),
   ("time", .ofSignal .inputs Offset.toFloat "sample index (0 is latest)")]

/-- The number pi. -/
def piFloat : Float := 3.141592653589793

/-- The base of the natural logarithm. -/
def eulerFloat : Float := 2.718281828459045

/-- The names of the constants. -/
def constantEntries (draws : Signal) : List (String × Entry) :=
  [("random", .ofSignal .constants draws "random number in [0, 1)"),
   ("pi", .ofSignal .constants (Series.constant piFloat) "pi constant"),
   ("e", .ofSignal .constants (Series.constant eulerFloat) "euler constant")]

/-! ## Vocabularies -/

/-- A table of entries with some of their meanings replaced. -/
structure Vocabulary where
  table : Table
  overlay : Table

namespace Vocabulary

/-- The standard vocabulary, with the numbers that `random` stands for. -/
def standard (draws : Signal) : Vocabulary where
  table := Table.empty.insertAll
    (inputEntries ++ constantEntries draws ++ Arithmetic.entries ++ Logic.entries ++ Rolling.entries)
  overlay := Table.empty

/-- The entry of a name. -/
def find? (v : Vocabulary) (name : String) : Option Entry :=
  (v.overlay.find? name).or (v.table.find? name)

/-- What a name stands for. -/
def meaning? (v : Vocabulary) (name : String) : Option Meaning :=
  (v.find? name).map Entry.meaning

/-- All names with their entries, in order. -/
def entries (v : Vocabulary) : List (String × Entry) :=
  v.table.entries.map fun (name, entry) => (name, (v.overlay.find? name).getD entry)

/-- How many names a vocabulary has. -/
def size (v : Vocabulary) : Nat := v.table.size

/-- The references, in order. -/
def references (v : Vocabulary) : List String :=
  (v.entries.filter fun (_, entry) => entry.role = .reference).map (·.1)

/-- Lays a signal over a name that is a reference. -/
def overlaySignal (v : Vocabulary) (name : String) (value : Signal) : Vocabulary :=
  match v.find? name with
  | some entry =>
    match entry.role with
    | .reference => { v with overlay := v.overlay.insert name (entry.rebind value) }
    | .function => v
  | none => v

/-- The vocabulary whose inputs read a market. -/
def bind (v : Vocabulary) (feeds : Feeds) : Vocabulary :=
  feeds.named.foldl (fun v (name, value) => v.overlaySignal name value) v

end Vocabulary

end SignalLab
