import SignalLab.Diagnostic
import SignalLab.Disk.Fault
import SignalLab.Market.History

/-!
# Why a run fails

A run can fail on its configuration, its program, its data, its report, or the system it runs on. Each
kind of failure has a text and an exit code: 1 for the report and the system, 2 for the configuration,
3 for the data and 4 for the program.

One failure is not foreseen. If more samples are asked for than a column can have, the run does not
end by itself but is broken off, with the words of the system that breaks it off and with its exit
code, 101.
-/

namespace SignalLab

/-- A place in a configuration. -/
structure ConfigKey where
  sectionName : String
  name : String
  deriving DecidableEq, Repr

/-- The text of a place in a configuration. -/
def ConfigKey.text (k : ConfigKey) : String := "[" ++ k.sectionName ++ "] " ++ k.name

/-- Why a run fails. -/
inductive Failure
  /-- A configuration file cannot be read. -/
  | configUnreadable (file reason : String)
  /-- A configuration lacks a value that has no default. -/
  | configMissing (key : ConfigKey)
  /-- A configuration has a value that cannot be used. -/
  | configInvalid (key : ConfigKey) (reason : String)
  /-- The program is at fault. -/
  | program (diagnostic : Diagnostic)
  /-- The data cannot be had. -/
  | data (reason : String)
  /-- The columns of the data differ in length. -/
  | columns (fault : ColumnFault)
  /-- There are too few samples. -/
  | tooFewSamples (instrument : String) (samples least : Nat)
  /-- The report cannot be written. -/
  | report (reason : String)
  /-- A configuration file does not exist. -/
  | noConfig (file : String)
  /-- A program file cannot be read. -/
  | programUnreadable (file : String) (fault : DiskFault)
  /-- The system stops what it has begun. -/
  | stopped (fault : DiskFault)
  /-- More samples are asked for than a column can have. -/
  | overflow
  deriving DecidableEq, Repr

namespace Failure

/-- The text of a failure. -/
def message : Failure → String
  | .configUnreadable file reason => s!"config parse error in {file}: {reason}"
  | .configMissing key =>
    let key := key.text
    s!"missing config key {key}"
  | .configInvalid key reason =>
    let key := key.text
    s!"invalid config value {key}: {reason}"
  | .program diagnostic => diagnostic.message
  | .data reason => s!"data error: {reason}"
  | .columns fault => fault.message
  | .tooFewSamples instrument samples least =>
    s!"insufficient data for {instrument}: have {samples} samples, need {least}"
  | .report reason => s!"report error: {reason}"
  | .noConfig file => s!"config file not found: {file}"
  | .programUnreadable file fault =>
    let reason := fault.message
    s!"failed to read {file}: {reason}"
  | .stopped fault => fault.message
  | .overflow => "capacity overflow"

/-- The text of a failure where the source text of the program is at hand. -/
def messageWith (source : String) : Failure → String
  | .program diagnostic => diagnostic.excerpt source
  | other => other.message

/-- What is remarked on a failure. What breaks a run off is not announced as an error. -/
def remark (source : String) : Failure → String
  | .overflow => overflow.message ++ "\n"
  | other => "error: " ++ other.messageWith source ++ "\n"

/-- The exit code of a failure. -/
def exitCode : Failure → UInt8
  | .report _ | .noConfig _ | .programUnreadable .. | .stopped _ => 1
  | .configUnreadable .. | .configMissing _ | .configInvalid .. => 2
  | .data _ | .columns _ | .tooFewSamples .. => 3
  | .program _ => 4
  | .overflow => 101

end Failure

end SignalLab
