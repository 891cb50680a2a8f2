import SignalLab.Vocabulary.Category

/-!
# The arguments of a command line

The first argument names a command, and options follow. An option has a long name behind two hyphens
and may have a short one of one character behind a single hyphen. Its value is the next argument, or
stands behind an equals sign, or directly behind a short name. A switch is an option without a value.

## Which fault is reported

Arguments are read from left to right. A value is examined when the next option begins or the arguments
end: it has to be there, the option must not have been given before, and the value has to be one that
the option takes. An argument that is no option and no value, and a value given to a switch, are
reported at once, before a value that is still to be examined. Only when all is read are options looked
for that have to be there. A request for help ends the reading.

## What is assumed

Arguments are taken apart by the package `clap`, which is not part of this repository. The forms of
options and the order in which faults are reported are assumed of it; which options a command has, and
which of them it needs, is told here (`Command`).
-/

namespace SignalLab

/-! ## Commands -/

/-- A command with its options. -/
inductive Command
  /-- Try a program on a market. -/
  | run (config program : String) (instrument output : Option String) (dryRun : Bool)
  /-- List the instructions of a program. -/
  | check (program : String)
  /-- List the vocabulary. -/
  | builtins (category : Option Category)
  /-- List the instruments of the configured data source. -/
  | instruments (config : String)
  deriving DecidableEq, Repr

/-- Why a command line is not a command. -/
inductive UsageFault
  /-- Help is asked for. -/
  | help
  /-- There are no arguments. -/
  | noCommand
  /-- The first argument names no command. -/
  | unknownCommand
  /-- An argument is neither an option nor a value of one. -/
  | unknownArgument
  /-- An option lacks its value, or has an empty one where that makes no sense. -/
  | noValue
  /-- A switch is given a value. -/
  | unneededValue
  /-- An option is given twice. -/
  | repeated
  /-- A value is not one that its option takes. -/
  | badValue
  /-- An option that is needed is missing. -/
  | missingOption
  deriving DecidableEq, Repr

namespace CommandLine

/-! ## Options -/

/-- The values that an option takes. -/
inductive ValueKind
  /-- No value: the option is a switch. -/
  | switch
  /-- A path, which must not be empty. -/
  | path
  /-- Any text. -/
  | anyText
  /-- A group of the vocabulary. -/
  | category
  deriving DecidableEq, Repr

/-- An option of a command. -/
structure OptionSpec where
  name : String
  short? : Option Char
  kind : ValueKind
  needed : Bool
  deriving DecidableEq, Repr

/-- The options given so far, with their values. -/
abbrev Given := List (String × String)

/-- An option whose value has not been examined yet. -/
structure Pending where
  option : OptionSpec
  value? : Option String

/-- Why an option does not take a value, if it does not. -/
def ValueKind.fault? (kind : ValueKind) (value : String) : Option UsageFault :=
  match kind with
  | .switch | .anyText => none
  | .path => if value.isEmpty then some .noValue else none
  | .category =>
    match Category.ofText value with
    | .ok _ => none
    | .error _ => some .badValue

/-- Adds an option with its value to those given before. -/
def give (given : Given) (option : OptionSpec) (value : String) : Except UsageFault Given :=
  if (given.lookup option.name).isSome then .error .repeated
  else
    match option.kind.fault? value with
    | some fault => .error fault
    | none => .ok ((option.name, value) :: given)

/-- Examines the value that is still to be examined. -/
def settle (given : Given) : Option Pending → Except UsageFault Given
  | none => .ok given
  | some ⟨_, none⟩ => .error .noValue
  | some ⟨option, some value⟩ => give given option value

/-- The name of the switch that asks for help. -/
def helpName : String := "help"

/-- The short name of the switch that asks for help. -/
def helpShort : Char := 'h'

/-- What reading one argument leads to. -/
structure Progress where
  given : Given
  pending : Option Pending

/-- A switch that is given. -/
def giveSwitch (given : Given) (pending : Option Pending) (option : OptionSpec) :
    Except UsageFault Progress := do
  let given ← settle given pending
  let given ← give given option ""
  return ⟨given, none⟩

/-- An option whose value, if it is already known, is attached to it. -/
def giveOption (given : Given) (pending : Option Pending) (option : OptionSpec)
    (attached : Option String) : Except UsageFault Progress := do
  let given ← settle given pending
  match attached with
  | none => return ⟨given, some ⟨option, none⟩⟩
  | some value =>
    let given ← give given option value
    return ⟨given, none⟩

/-- Reads a long option, without its hyphens. -/
def readLong (options : List OptionSpec) (given : Given) (pending : Option Pending)
    (text : List Char) : Except UsageFault Progress :=
  let name := String.ofList (text.takeWhile (· != '='))
  let attached := match text.dropWhile (· != '=') with
    | [] => none
    | _ :: value => some (String.ofList value)
  match options.find? (·.name = name) with
  | some option =>
    if option.kind ≠ .switch then giveOption given pending option attached
    else if attached.isSome then .error .unneededValue
    else giveSwitch given pending option
  | none =>
    if name ≠ helpName then .error .unknownArgument
    else if attached.isSome then .error .unneededValue
    else do
      let _ ← settle given pending
      .error .help

/-- Reads short options that follow one hyphen. -/
def readShort (options : List OptionSpec) (given : Given) (pending : Option Pending) :
    List Char → Except UsageFault Progress
  | [] => .ok ⟨given, pending⟩
  | c :: rest =>
    match options.find? (·.short? = some c) with
    | some option =>
      if option.kind = .switch then do
        let ⟨given, pending⟩ ← giveSwitch given pending option
        readShort options given pending rest
      else
        giveOption given pending option <|
          match rest with
          | [] => none
          | '=' :: value => some (String.ofList value)
          | value => some (String.ofList value)
    | none =>
      if c ≠ helpShort then .error .unknownArgument
      else do
        let _ ← settle given pending
        .error .help

/-- Reads the arguments behind the name of a command. -/
def readOptions (options : List OptionSpec) (given : Given) (pending : Option Pending) :
    List String → Except UsageFault Given
  | [] => settle given pending
  | arg :: rest =>
    match arg.toList with
    | ['-', '-'] => if rest.isEmpty then settle given pending else .error .unknownArgument
    | '-' :: '-' :: text =>
      match readLong options given pending text with
      | .error fault => .error fault
      | .ok ⟨given, pending⟩ => readOptions options given pending rest
    | '-' :: c :: text =>
      match readShort options given pending (c :: text) with
      | .error fault => .error fault
      | .ok ⟨given, pending⟩ => readOptions options given pending rest
    | _ =>
      match pending with
      | some ⟨option, none⟩ => readOptions options given (some ⟨option, some arg⟩) rest
      | _ => .error .unknownArgument

/-! ## The options of each command -/

/-- The option that names the configuration file. -/
def configOption : OptionSpec := ⟨"config", some 'c', .path, true⟩

/-- The option that names the program file. -/
def programOption : OptionSpec := ⟨"program", some 'p', .path, true⟩

/-- The option that replaces the configured instrument. -/
def instrumentOption : OptionSpec := ⟨"instrument", none, .anyText, false⟩

/-- The option that names the file of the report. -/
def outputOption : OptionSpec := ⟨"output", some 'o', .path, false⟩

/-- The switch that keeps a run from fetching data. -/
def dryRunOption : OptionSpec := ⟨"dry-run", none, .switch, false⟩

/-- The option that restricts the listing of the vocabulary. -/
def categoryOption : OptionSpec := ⟨"category", none, .category, false⟩

/-- The commands by name, each with its options. -/
def commands : List (String × List OptionSpec) :=
  [("run", [configOption, programOption, instrumentOption, outputOption, dryRunOption]),
   ("check", [programOption]),
   ("builtins", [categoryOption]),
   ("instruments", [configOption])]

/-- The value of an option, empty if it is not given. -/
def valueOf (given : Given) (option : OptionSpec) : String :=
  (given.lookup option.name).getD ""

/-- The command with the given name and options. -/
def commandOf (name : String) (given : Given) : Command :=
  match name with
  | "run" =>
    .run (valueOf given configOption) (valueOf given programOption)
      (given.lookup instrumentOption.name) (given.lookup outputOption.name)
      (given.lookup dryRunOption.name).isSome
  | "check" => .check (valueOf given programOption)
  | "instruments" => .instruments (valueOf given configOption)
  | _ =>
    .builtins ((given.lookup categoryOption.name).bind fun s => (Category.ofText s).toOption)

/-! ## Command lines -/

/-- The words that follow a request for help by name: none, or the name of a command. -/
def readHelp : List String → UsageFault
  | [] => .help
  | [name] =>
    if name = helpName ∨ (commands.lookup name).isSome then .help else .unknownCommand
  | _ => .unknownCommand

/-- What is wrong with a first argument that names no command, where `rest` follows it. -/
def firstFault (arg : String) (rest : List String) : UsageFault :=
  match arg.toList with
  | ['-', '-'] =>
    match rest with
    | [] => .noCommand
    | name :: _ =>
      if name = helpName ∨ (commands.lookup name).isSome then .unknownArgument
      else .unknownCommand
  | '-' :: '-' :: text =>
    match readLong [] [] none text with
    | .error fault => fault
    | .ok _ => .unknownArgument
  | '-' :: c :: _ => if c = helpShort then .help else .unknownArgument
  | _ => .unknownCommand

/-- The command that a list of arguments gives. -/
def parse : List String → Except UsageFault Command
  | [] => .error .noCommand
  | name :: rest =>
    if name = helpName then .error (readHelp rest)
    else
      match commands.lookup name with
      | none => .error (firstFault name rest)
      | some options =>
        match readOptions options [] none rest with
        | .error fault => .error fault
        | .ok given =>
          if options.all fun o => !o.needed || (given.lookup o.name).isSome then
            .ok (commandOf name given)
          else .error .missingOption

end CommandLine

end SignalLab
