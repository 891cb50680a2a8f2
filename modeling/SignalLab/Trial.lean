import SignalLab.Annualized
import SignalLab.Compile
import SignalLab.Market.Archive
import SignalLab.Market.Synthetic
import SignalLab.Settings

/-!
# Trials

A trial runs a program over the history of an instrument and backtests what it says. The program is
compiled first, so that no data are fetched for one that is at fault. The data are then asked for
once, and there have to be enough of them for one step.

Where the data come from is a parameter. The request is made in whatever surroundings the source of
the data needs; all else in a trial is a function of its arguments.
-/

namespace SignalLab

/-- The outcome of a trial. -/
structure Trial where
  history : History
  backtest : Backtest Float
  annualized : Annualized

namespace Trial

/-- The data that settings ask for. -/
def requestOf (s : Settings) : Request := ⟨s.instrument, s.limit, s.frequency⟩

/-- The trial of a compiled program over a history. -/
def ofHistory (v : Vocabulary) (p : Program) (s : Settings) (history : History) :
    Except Failure Trial :=
  if history.size < Settings.leastLimit then
    .error (.tooFewSamples s.instrument history.size Settings.leastLimit)
  else
    match p.eval (v.bind history.feeds) with
    | .error fault => .error (.program (.program fault))
    | .ok output =>
      let backtest := Backtest.run history.prices output s.costRate
      .ok ⟨history, backtest, .ofMetrics backtest.metrics (history.size - 1) s.frequency⟩

variable {m : Type → Type} [Monad m]

/-- The trial of a source text over the data that `fetch` answers with. -/
def run (fetch : Request → m (Except Failure History)) (v : Vocabulary) (source : String)
    (s : Settings) : m (Except Failure Trial) := do
  match compile v source with
  | .error d => return .error (.program d)
  | .ok p =>
    match ← fetch (requestOf s) with
    | .error failure => return .error failure
    | .ok history => return ofHistory v p s history

end Trial

/-- Fetches a history from a data source. -/
def DataSource.fetch {m : Type → Type} [Monad m] [Host m] :
    DataSource → Request → m (Except Failure History)
  | .synthetic, r => return Synthetic.fetch r
  | .archive folder, r => Archive.fetch folder r

/-- Lists the instruments of a data source; the synthetic market lists none, for it has them all. -/
def DataSource.instruments {m : Type → Type} [Monad m] [Host m] :
    DataSource → m (Except Failure (List String))
  | .synthetic => return .ok []
  | .archive folder => Archive.instruments folder

end SignalLab
