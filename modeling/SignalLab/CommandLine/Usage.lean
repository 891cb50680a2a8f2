import SignalLab.CommandLine.Arguments

/-!
# What is said about a wrong command line

A request for help is answered and not a failure. Any other fault of a command line is remarked on, and
the exit code is then 2.
-/

namespace SignalLab

namespace CommandLine

/-- How commands are written. -/
def usage : String :=
  "usage: signallab <command> [options]\n"
    ++ "\n"
    ++ "  run --config <file> --program <file> [--instrument <name>] [--output <file>] [--dry-run]\n"
    ++ "      evaluate a program over market data and backtest its output\n"
    ++ "  check --program <file>\n"
    ++ "      print the instruction listing of a program\n"
    ++ "  builtins [--category <name>]\n"
    ++ "      list the names that programs may use\n"
    ++ "  instruments --config <file>\n"
    ++ "      list the instruments of the configured data source\n"

end CommandLine

namespace UsageFault

/-- The text of a fault. -/
def message : UsageFault → String
  | .help | .noCommand => CommandLine.usage
  | .unknownCommand => "error: unrecognized command\n\n" ++ CommandLine.usage
  | .unknownArgument => "error: unexpected argument\n\n" ++ CommandLine.usage
  | .noValue => "error: a value is required for an option\n\n" ++ CommandLine.usage
  | .unneededValue => "error: a value was given to a switch\n\n" ++ CommandLine.usage
  | .repeated => "error: an option is given more than once\n\n" ++ CommandLine.usage
  | .badValue => "error: invalid value for an option\n\n" ++ CommandLine.usage
  | .missingOption => "error: a required option is missing\n\n" ++ CommandLine.usage

/-- The exit code of a fault. -/
def exitCode : UsageFault → UInt8
  | .help => 0
  | _ => 2

end UsageFault

end SignalLab
