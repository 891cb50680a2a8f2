import SignalLab.Decimal.Read
import SignalLab.Failure
import SignalLab.Frequency
import SignalLab.Ini

/-!
# The settings of a run

The settings are read from a configuration, which answers for every key with a text, a whole number or
a number. All keys are checked before anything else happens, in the order of the fields, and the first
one at fault decides. Texts are read without the blanks around them, and blank ones count as absent.

| key                    | values                                | if absent   |
|------------------------|---------------------------------------|-------------|
| `[input] source`       | `synthetic` or `csv`, in any case     | `synthetic` |
| `[input] data_dir`     | a folder, needed for `csv`            |             |
| `[input] instrument`   | any text                              | a fault     |
| `[input] limit`        | a whole number, at least 2            | 500         |
| `[input] frequency`    | a frequency                           | `1d`        |
| `[backtest] cost_rate` | a finite number, at least 0           | 0           |
| `[logging] level`      | any text                              | `info`      |
-/

namespace SignalLab

/-! ## Configurations -/

/-- A configuration, as far as settings are concerned. A value that is there but is not a number is
answered by the reason why it is not. -/
structure Config where
  text? : ConfigKey → Option String
  whole? : ConfigKey → Except String (Option Int)
  number? : ConfigKey → Except String (Option Float)

/-- Whole numbers of a configuration lie below this bound, and not below its negative: they have
sixty-four bits. -/
def wholeBound : Nat := 0x8000000000000000

/-- The configuration of a configuration text. -/
def Ini.config (ini : Ini) : Config where
  text? k := ini.get? k.sectionName k.name
  whole? k :=
    match ini.get? k.sectionName k.name with
    | none => .ok none
    | some s =>
      match Decimal.readWhole wholeBound (wholeBound - 1) s with
      | .error fault => .error fault.message
      | .ok n => .ok (some n)
  number? k :=
    match ini.get? k.sectionName k.name with
    | none => .ok none
    | some s =>
      match Decimal.readFloat s with
      | .error fault => .error fault.message
      | .ok x => .ok (some x)

/-! ## Settings -/

/-- Where the data of a run come from. -/
inductive DataSource
  /-- The synthetic market. -/
  | synthetic
  /-- The files of a folder. -/
  | archive (folder : String)
  deriving DecidableEq, Repr

/-- The settings of a run. -/
structure Settings where
  source : DataSource
  instrument : String
  limit : Nat
  frequency : Frequency
  costRate : Float
  logLevel : String

namespace Settings

def sourceKey : ConfigKey := ⟨"input", "source"⟩
def folderKey : ConfigKey := ⟨"input", "data_dir"⟩
def instrumentKey : ConfigKey := ⟨"input", "instrument"⟩
def limitKey : ConfigKey := ⟨"input", "limit"⟩
def frequencyKey : ConfigKey := ⟨"input", "frequency"⟩
def costRateKey : ConfigKey := ⟨"backtest", "cost_rate"⟩
def logLevelKey : ConfigKey := ⟨"logging", "level"⟩

/-- The number of samples if none is configured. -/
def defaultLimit : Nat := 500

/-- The least number of samples, for one step. -/
def leastLimit : Nat := 2

/-- The log level if none is configured. -/
def defaultLogLevel : String := "info"

/-- The data source of a configuration. -/
def sourceOf (c : Config) : Except Failure DataSource :=
  match Text.lowercase ((Text.trimmed? (c.text? sourceKey)).getD "synthetic") with
  | "synthetic" => .ok .synthetic
  | "csv" =>
    match Text.trimmed? (c.text? folderKey) with
    | some folder => .ok (.archive folder)
    | none => .error (.configMissing folderKey)
  | other =>
    .error (.configInvalid sourceKey s!"unknown source '{other}', expected synthetic or csv")

/-- The instrument of a configuration. -/
def instrumentOf (c : Config) : Except Failure String :=
  match Text.trimmed? (c.text? instrumentKey) with
  | some instrument => .ok instrument
  | none => .error (.configMissing instrumentKey)

/-- The number of samples of a configuration. -/
def limitOf (c : Config) : Except Failure Nat :=
  match c.whole? limitKey with
  | .error reason => .error (.configInvalid limitKey reason)
  | .ok none => .ok defaultLimit
  | .ok (some n) =>
    if (leastLimit : Int) ≤ n then .ok n.toNat
    else .error (.configInvalid limitKey s!"limit must be at least {leastLimit}")

/-- The frequency of a configuration. -/
def frequencyOf (c : Config) : Except Failure Frequency :=
  match Text.trimmed? (c.text? frequencyKey) with
  | none => .ok .daily
  | some s =>
    match Frequency.ofText s with
    | .error fault => .error (.configInvalid frequencyKey fault.message)
    | .ok f => .ok f

/-- The cost rate of a configuration. -/
def costRateOf (c : Config) : Except Failure Float :=
  match c.number? costRateKey with
  | .error reason => .error (.configInvalid costRateKey reason)
  | .ok none => .ok 0.0
  | .ok (some x) =>
    if x.isFinite && x >= 0.0 then .ok x
    else .error (.configInvalid costRateKey "cost_rate must be a non-negative number")

/-- The log level of a configuration. -/
def logLevelOf (c : Config) : String :=
  (Text.trimmed? (c.text? logLevelKey)).getD defaultLogLevel

/-- The settings of a configuration, or its first fault. -/
def ofConfig (c : Config) : Except Failure Settings := do
  let source ← sourceOf c
  let instrument ← instrumentOf c
  let limit ← limitOf c
  let frequency ← frequencyOf c
  let costRate ← costRateOf c
  return ⟨source, instrument, limit, frequency, costRate, logLevelOf c⟩

end Settings

end SignalLab
