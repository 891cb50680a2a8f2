import SignalLab.Expr.Parser
import SignalLab.Program.Evaluation
import SignalLab.Program.Lowering

/-!
# From source texts to signals

`compile` reads a source text and lowers it. `evaluate` goes on to evaluate it over a market. Names are
resolved with the vocabulary as it is and read with the market bound to its inputs.
-/

namespace SignalLab

/-- The program of a source text. -/
def compile (v : Vocabulary) (source : String) : Except Diagnostic Program :=
  match Expr.parse source with
  | .error d => .error d
  | .ok e => Program.ofExpr v e

/-- The signal of a source text over a market. -/
def evaluate (v : Vocabulary) (feeds : Feeds) (source : String) : Except Diagnostic Signal :=
  match compile v source with
  | .error d => .error d
  | .ok p =>
    match p.eval (v.bind feeds) with
    | .error fault => .error (.program fault)
    | .ok signal => .ok signal

end SignalLab
