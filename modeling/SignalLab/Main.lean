import SignalLab.CommandLine.Run
import SignalLab.CommandLine.Usage
import SignalLab.Disk
import SignalLab.Series.Draws

/-!
# The program

The command line is read from the arguments of the program and run on the actual system: its files and
its two output streams. The numbers behind `random` are drawn from a seed that the system provides.
-/

namespace SignalLab

/-- The fault with a number of the system. -/
def DiskFault.ofNumber (number : Nat) (words : String) : DiskFault :=
  match number with
  | 2 => .noSuchFile
  | 20 => .notFolder
  | 21 => .isFolder
  | 36 => .nameTooLong
  | _ => .other number words

/-- The number of the system behind the code of an error, which may be its complement. -/
def systemNumber (code : UInt32) : Nat :=
  if code.toNat < UInt32.size / 2 then code.toNat else UInt32.size - code.toNat

/-- The fault that an error of the system is. -/
def DiskFault.ofError : IO.Error → DiskFault
  | .alreadyExists _ code words | .otherError code words | .resourceBusy code words
  | .resourceVanished code words | .unsupportedOperation code words | .hardwareFault code words
  | .unsatisfiedConstraints code words | .illegalOperation code words | .protocolError code words
  | .timeExpired code words | .interrupted _ code words | .noFileOrDirectory _ code words
  | .invalidArgument _ code words | .permissionDenied _ code words
  | .resourceExhausted _ code words | .inappropriateType _ code words
  | .noSuchThing _ code words => .ofNumber (systemNumber code) words
  | .unexpectedEof => .other 0 "unexpected end of file"
  | .userError words => .other 0 words

/-- Uses a path, if it can be one; what the system refuses is a fault. -/
def usePath {α : Type} (path : String) (use : String → IO α) : IO (Except DiskFault α) := do
  match Disk.pathFault? path with
  | some fault => return .error fault
  | none =>
    try
      return .ok (← use path)
    catch e =>
      return .error (DiskFault.ofError e)

/-- Commands run on the actual system. -/
instance : Host IO where
  isPresent path := do
    let here ← IO.currentDir
    match ← usePath path fun path => (here / path).metadata with
    | .ok _ => return true
    | .error _ => return false
  readText path := do
    match ← usePath path fun path => IO.FS.readBinFile path with
    | .error fault => return .error fault
    | .ok bytes =>
      match String.fromUTF8? bytes with
      | none => return .error .notText
      | some text => return .ok text
  listNames path := do
    let here ← IO.currentDir
    match ← usePath path fun path => (here / path).readDir with
    | .error fault => return .error fault
    | .ok entries => return .ok (entries.toList.map (·.fileName))
  File := IO.FS.Handle
  create path := usePath path fun path => IO.FS.Handle.mk path .write
  append file bytes := do
    try
      file.write bytes
      file.flush
      return .ok ()
    catch e =>
      return .error (DiskFault.ofError e)
  print := IO.print
  remark := IO.eprint

end SignalLab

open SignalLab in
/-- Runs the command that the arguments give. -/
def main (args : List String) : IO UInt32 := do
  match CommandLine.parse args with
  | .error fault =>
    if fault = .help then IO.print fault.message else IO.eprint fault.message
    return fault.exitCode.toUInt32
  | .ok command =>
    let seed ← IO.rand 0 (UInt64.size - 1)
    let vocabulary := Vocabulary.standard (draws seed.toUInt64)
    let code ← (CommandLine.execute vocabulary command : IO UInt8)
    return code.toUInt32
