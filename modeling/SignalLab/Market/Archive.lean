import SignalLab.Csv
import SignalLab.Disk.Path
import SignalLab.Failure
import SignalLab.Host
import SignalLab.Market.Request

/-!
# Markets in a folder

An archive is a folder with one file for each instrument, named after it. The file is a table with a
header, whose first six columns are the date, the opening, the highest, the lowest and the closing
price, and the volume. Blanks around a field do not count.

The rows may stand in any order. They are put in order of their dates, rows of one date staying in the
order of the file, and the latest of them are the history.

## Faults

Rows are read in the order of the file and fields from left to right, and the first fault decides. It
is located by the number of its row, counted from the header as row one.
-/

namespace SignalLab

namespace Archive

/-! ## Faults -/

/-- Why the history of an instrument cannot be had. -/
inductive Fault
  | unreadable (path : String) (fault : DiskFault)
  | badRecord (fault : Csv.LengthFault)
  | missingColumn (line : Nat) (column : String)
  | badDate (line : Nat) (text : String) (fault : DateFault)
  | badNumber (line : Nat) (column text : String) (fault : Decimal.FloatFault)
  | unlisted (path : String) (fault : DiskFault)
  deriving DecidableEq, Repr

/-- The text of a fault. -/
def Fault.message : Fault → String
  | .unreadable path fault =>
    let reason := fault.message
    s!"failed to read {path}: {reason}"
  | .badRecord fault =>
    let reason := fault.message
    s!"CSV parse error: {reason}"
  | .missingColumn line column => s!"line {line}: missing {column} column"
  | .badDate line text fault =>
    let reason := fault.message
    s!"line {line}: invalid date '{text}': {reason}"
  | .badNumber line column text fault =>
    let reason := fault.message
    s!"line {line}: invalid {column} value '{text}': {reason}"
  | .unlisted path fault =>
    let reason := fault.message
    s!"failed to read directory {path}: {reason}"

/-- The failure of a run on such a fault. -/
def Fault.failure (f : Fault) : Failure := .data f.message

/-! ## Rows -/

/-- The field of a column. -/
def fieldOf (line : Nat) (fields : List String) (index : Nat) (column : String) :
    Except Fault String :=
  match fields[index]? with
  | none => .error (.missingColumn line column)
  | some field => .ok (Text.trim field)

/-- The date of a row. -/
def dateOf (line : Nat) (fields : List String) : Except Fault Date := do
  let text ← fieldOf line fields 0 "date"
  match Date.ofText text with
  | .error fault => .error (.badDate line text fault)
  | .ok date => .ok date

/-- The number in a column. -/
def numberOf (line : Nat) (fields : List String) (index : Nat) (column : String) :
    Except Fault Float := do
  let text ← fieldOf line fields index column
  match Decimal.readFloat text with
  | .error fault => .error (.badNumber line column text fault)
  | .ok x => .ok x

/-- The bar that a row records. -/
def barOf (line : Nat) (fields : List String) : Except Fault Bar := do
  let date ← dateOf line fields
  let opening ← numberOf line fields 1 "open"
  let high ← numberOf line fields 2 "high"
  let low ← numberOf line fields 3 "low"
  let closing ← numberOf line fields 4 "close"
  let volume ← numberOf line fields 5 "volume"
  return ⟨date, opening, high, low, closing, volume⟩

/-! ## Files -/

/-- The number of the first row behind the header. -/
def firstLine : Nat := 2

/-- The bars of some rows, of which the first has the given number. -/
def barsFrom (line : Nat) : List (Except Csv.LengthFault (List String)) → Except Fault (List Bar)
  | [] => .ok []
  | .error fault :: _ => .error (.badRecord fault)
  | .ok fields :: rest => do
    let bar ← barOf line fields
    let bars ← barsFrom (line + 1) rest
    return bar :: bars

/-- The bars of a file, in order of their dates. -/
def barsOf (text : String) : Except Fault (List Bar) :=
  (barsFrom firstLine (Csv.rows text)).map fun bars =>
    bars.mergeSort fun a b => a.date.le b.date

/-- The history of the latest bars of a file. -/
def historyOf (text : String) (limit : Nat) : Except Fault History :=
  (barsOf text).map fun bars => History.ofBars (bars.drop (bars.length - limit))

/-! ## Folders -/

/-- What the files of an archive have behind the dot. -/
def extension : String := "csv"

/-- The path of the file of an instrument. -/
def pathOf (folder instrument : String) : String :=
  Path.join folder (instrument ++ "." ++ extension)

/-- The instrument whose file has the given name. -/
def instrumentOf? (fileName : String) : Option String :=
  match Path.splitExtension fileName with
  | (stem, some found) => if found = extension then some stem else none
  | (_, none) => none

/-- The instruments whose files have the given names, in order. -/
def instrumentsOf (fileNames : List String) : List String :=
  (fileNames.filterMap instrumentOf?).mergeSort fun a b => a ≤ b

variable {m : Type → Type} [Monad m] [Host m]

/-- Fetches a history from an archive. -/
def fetch (folder : String) (r : Request) : m (Except Failure History) := do
  let path := pathOf folder r.instrument
  match ← Host.readText path with
  | .error fault => return .error (Fault.unreadable path fault).failure
  | .ok text =>
    match historyOf text r.limit with
    | .error fault => return .error fault.failure
    | .ok history => return .ok history

/-- Lists the instruments of an archive. -/
def instruments (folder : String) : m (Except Failure (List String)) := do
  match ← Host.listNames folder with
  | .error fault => return .error (Fault.unlisted folder fault).failure
  | .ok names => return .ok (instrumentsOf names)

end Archive

end SignalLab
