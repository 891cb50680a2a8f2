/-!
# What a disk can refuse

Files are read and written by path, and a path can lead nowhere. The texts of these faults are those of
the system, with its number for the fault; what has no number is refused before the system is asked.
-/

namespace SignalLab

/-- Why a file or folder cannot be used. -/
inductive DiskFault
  /-- Nothing stands at the path. -/
  | noSuchFile
  /-- The path goes on behind something that is no folder. -/
  | notFolder
  /-- A folder stands where a file was wanted. -/
  | isFolder
  /-- A name or the whole path is longer than the system allows. -/
  | nameTooLong
  /-- The path holds the character that ends paths. -/
  | nulInPath
  /-- The content is not a text. -/
  | notText
  /-- Any other fault, by the system's number and words for it. -/
  | other (number : Nat) (words : String)
  deriving DecidableEq, Repr

/-- The words of the system with its number for a fault. -/
def systemText (words : String) (number : Nat) : String :=
  let number := toString number
  s!"{words} (os error {number})"

/-- The text of a fault. -/
def DiskFault.message : DiskFault → String
  | .noSuchFile => systemText "No such file or directory" 2
  | .notFolder => systemText "Not a directory" 20
  | .isFolder => systemText "Is a directory" 21
  | .nameTooLong => systemText "File name too long" 36
  | .nulInPath => "file name contained an unexpected NUL byte"
  | .notText => "stream did not contain valid UTF-8"
  | .other number words => systemText words number

end SignalLab
