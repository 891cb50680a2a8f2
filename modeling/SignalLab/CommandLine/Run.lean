import SignalLab.CommandLine.Arguments
import SignalLab.Docstring
import SignalLab.Report
import SignalLab.Vocabulary.Help

/-!
# Running commands

A command prints its answer to one stream and remarks on its progress and its failure to the other, and
ends with an exit code. The only file that a command writes is the report of a run that has succeeded
so far, and that is the last thing it does.

`run` reads the configuration, then the program, and then either says what it would do or tries the
program. The configuration is valid before the program is read, and the program before data are
fetched; an instrument given as an option takes the place of the configured one.
-/

namespace SignalLab

namespace CommandLine

variable {m : Type → Type} [Monad m] [Host m]

/-! ## Remarks -/

/-- Remarks on a failure and ends with its exit code; a program at fault is shown in its text. -/
def fail (failure : Failure) (source : String) : m UInt8 := do
  Host.remark (failure.remark source)
  return failure.exitCode

/-- A line of remarks. -/
def remarkLine (text : String) : m Unit := Host.remark (text ++ "\n")

/-- A line of the answer. -/
def printLine (text : String) : m Unit := Host.print (text ++ "\n")

/-! ## Files -/

/-- Reads a configuration file. -/
def loadConfig (path : String) : m (Except Failure Config) := do
  if !(← Host.isPresent path) then return .error (.noConfig path)
  match ← Host.readText path with
  | .error fault =>
    let reason := fault.message
    return .error (.configUnreadable path s!"couldn't read {path}: {reason}")
  | .ok text =>
    match Ini.ofText text with
    | .error fault =>
      let reason := fault.message
      return .error (.configUnreadable path s!"couldn't read {path}: {reason}")
    | .ok ini => return .ok ini.config

/-- Reads a program file. -/
def loadProgram (path : String) : m (Except Failure String) := do
  match ← Host.readText path with
  | .error fault => return .error (.programUnreadable path fault)
  | .ok source => return .ok source

/-- The log level of a command: the configured one, where a configuration can be read. -/
def logLevel : Command → m String
  | .run config .. | .instruments config => do
    match ← loadConfig config with
    | .error _ => return Settings.defaultLogLevel
    | .ok c => return Settings.logLevelOf c
  | .check _ | .builtins _ => return Settings.defaultLogLevel

/-! ## Runs -/

/-- The settings of a run: those of its configuration, with the instrument that was given. -/
def settingsOf (c : Config) (instrument : Option String) : Except Failure Settings :=
  (Settings.ofConfig c).map fun s => { s with instrument := instrument.getD s.instrument }

/-- What a dry run says about a valid program and its settings. -/
def dryRunText (p : Program) (s : Settings) : String :=
  let source := match s.source with
    | .synthetic => "synthetic"
    | .archive folder => "csv (" ++ folder ++ ")"
  "\nProgram lowered to " ++ toString p.size ++ " instructions\n"
    ++ "\nInput:\n"
    ++ "  source: " ++ source ++ "\n"
    ++ "  instrument: " ++ s.instrument ++ "\n"
    ++ "  limit: " ++ toString s.limit ++ "\n"
    ++ "  frequency: " ++ s.frequency.text ++ "\n"
    ++ "\nDry run complete: configuration and program are valid\n"

/-- Says what a run would do. -/
def runDry (v : Vocabulary) (source : String) (s : Settings) : m UInt8 := do
  match compile v source with
  | .error d => fail (.program d) source
  | .ok p =>
    Host.remark (dryRunText p s)
    return 0

/-- Tries a program and reports. -/
def runTrial (v : Vocabulary) (source : String) (s : Settings) (output : Option String) :
    m UInt8 := do
  match ← Trial.run s.source.fetch v source s with
  | .error failure => fail failure source
  | .ok t =>
    Host.remark ("\n" ++ Report.summary t s)
    match output with
    | none => return 0
    | some path =>
      match ← Report.write t.history.prices t.backtest.positions t.backtest.equity path with
      | .error failure => fail failure source
      | .ok () =>
        remarkLine ("Report written to " ++ path)
        return 0

/-- Reads the configuration and the program of a run, and runs it. -/
def run (v : Vocabulary) (config program : String) (instrument output : Option String)
    (dryRun : Bool) : m UInt8 := do
  remarkLine ("Loading config from " ++ config)
  match ← loadConfig config with
  | .error failure => fail failure ""
  | .ok c =>
    match settingsOf c instrument with
    | .error failure => fail failure ""
    | .ok s =>
      remarkLine ("Loading program from " ++ program)
      match ← loadProgram program with
      | .error failure => fail failure ""
      | .ok source =>
        remarkLine ("Program: " ++ (Docstring.ofSource source).name)
        if dryRun then runDry v source s else runTrial v source s output

/-! ## Other commands -/

/-- Lists the instructions of a program. -/
def check (v : Vocabulary) (program : String) : m UInt8 := do
  remarkLine ("Checking program: " ++ program)
  match ← loadProgram program with
  | .error failure => fail failure ""
  | .ok source =>
    let docs := Docstring.ofSource source
    printLine ("Name: " ++ docs.name)
    if let some description := docs.description then
      printLine ("Description: " ++ description)
    match compile v source with
    | .error d => fail (.program d) source
    | .ok p =>
      printLine ("\n" ++ p.listing)
      remarkLine ("Program is valid (" ++ toString p.size ++ " instructions)")
      return 0

/-- Lists the vocabulary. -/
def builtins (v : Vocabulary) (category : Option Category) : m UInt8 := do
  Host.print (v.listing category)
  return 0

/-- Lists the instruments of the configured data source. -/
def instruments (config : String) : m UInt8 := do
  match ← loadConfig config with
  | .error failure => fail failure ""
  | .ok c =>
    match Settings.sourceOf c with
    | .error failure => fail failure ""
    | .ok source =>
      match ← source.instruments with
      | .error failure => fail failure ""
      | .ok names =>
        match source, names with
        | .synthetic, _ => remarkLine "Synthetic source: any instrument id is accepted"
        | .archive folder, [] => remarkLine ("No instruments found in " ++ folder)
        | .archive _, names =>
          Host.print (String.join (names.map (· ++ "\n")))
          remarkLine (toString names.length ++ " instruments found")
        return 0

/-! ## Commands -/

/-- Runs a command and answers with its exit code. -/
def execute (v : Vocabulary) : Command → m UInt8
  | .run config program instrument output dryRun => run v config program instrument output dryRun
  | .check program => check v program
  | .builtins category => builtins v category
  | .instruments config => instruments config

end CommandLine

end SignalLab
