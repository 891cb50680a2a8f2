import SignalLab.Decimal.Fixed
import SignalLab.Trial

/-!
# Reports

A trial is reported in two forms. The table has a row for every sample, with its index, its price, the
position and the equity, all numbers written out in full so that they read back exactly. The summary
has the figures, as percentages with two places or as ratios with four.

The table is written through a writer of the package `csv`, which is not part of this repository. That
it gathers bytes and hands them on in pieces of one size (`pieceSize`, `pieces`) is assumed of it.
-/

namespace SignalLab

namespace Report

/-! ## The table -/

/-- The first line of the table. -/
def header : String := "index,price,position,equity\n"

/-- The row of a sample. -/
def row (index : Nat) (price position equity : Float) : String :=
  ",".intercalate [toString index, Decimal.plain price, Decimal.plain position,
    Decimal.plain equity] ++ "\n"

/-- The rows of some samples, of which the first has the given index. -/
def rows (index : Nat) : List Float → List Float → List Float → List String
  | price :: prices, position :: positions, equity :: rest =>
    row index price position equity :: rows (index + 1) prices positions rest
  | _, _, _ => []

/-- The table of a trial. Its columns have to be of one length. -/
def table (prices positions equity : List Float) : Except Failure String :=
  let p := prices.length
  let q := positions.length
  let e := equity.length
  if p ≠ e ∨ q ≠ e then
    .error (.report s!"length mismatch: {p} prices, {q} positions, {e} equity points")
  else .ok (header ++ String.join (rows 0 prices positions equity))

/-! ## Writing the table -/

/-- How many bytes are gathered before they are written. -/
def pieceSize : Nat := 8192

/-- The pieces in which some bytes are written: all but the last are full. -/
def pieces (bytes : ByteArray) : List ByteArray :=
  (List.range ((bytes.size + (pieceSize - 1)) / pieceSize)).map fun i =>
    bytes.extract (i * pieceSize) ((i + 1) * pieceSize)

variable {m : Type → Type} [Monad m] [Host m]

/-- Writes pieces to a file. Full pieces are written while there are rows, and to refuse one is a
failure of the report; the last piece is written when the file is closed, and then it is the system
that stops. What has been written stays in any case. -/
def writePieces (file : Host.File m) : List ByteArray → m (Except Failure Unit)
  | [] => return .ok ()
  | piece :: rest => do
    match ← Host.append file piece with
    | .error fault => return .error (if rest.isEmpty then .stopped fault else .report fault.message)
    | .ok () => writePieces file rest

/-- Writes the table of a trial to a file, which is opened only for columns that make a table. -/
def write (prices positions equity : List Float) (path : String) : m (Except Failure Unit) := do
  match table prices positions equity with
  | .error failure => return .error failure
  | .ok text =>
    match ← Host.create path with
    | .error fault => return .error (.report fault.message)
    | .ok file => writePieces file (pieces text.toUTF8)

/-! ## The summary -/

/-- What stands for a figure that does not exist. -/
def noFigure : String := "n/a"

/-- A figure as a percentage. -/
def percent : Option Float → String
  | none => noFigure
  | some x => Decimal.fixed 2 (x * 100.0) ++ "%"

/-- A figure as a ratio. -/
def ratio : Option Float → String
  | none => noFigure
  | some x => Decimal.fixed 4 x

/-- The summary of a trial. -/
def summary (t : Trial) (s : Settings) : String :=
  let m := t.backtest.metrics
  let a := t.annualized
  "Backtest: " ++ s.instrument ++ " (" ++ toString t.history.size ++ " samples at "
    ++ s.frequency.text ++ ")\n"
    ++ "  Total return:      " ++ percent m.totalReturn ++ "\n"
    ++ "  Max drawdown:      " ++ percent m.maxDrawdown ++ "\n"
    ++ "  Volatility:        " ++ ratio m.volatility ++ "\n"
    ++ "  Sharpe:            " ++ ratio m.sharpe ++ "\n"
    ++ "  Annualized return: " ++ percent a.totalReturn ++ "\n"
    ++ "  Annualized sharpe: " ++ ratio a.sharpe ++ "\n"

end Report

end SignalLab
