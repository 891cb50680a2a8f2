/-!
# Paths as texts

A path is the text that a user wrote. It is joined and cut as a text, and only a disk knows where it
leads.
-/

namespace SignalLab.Path

/-- Whether a path starts at the root. -/
def isAbsolute (path : String) : Bool := path.toList.head? == some '/'

/-- A path as seen from a folder; an absolute path is seen from the root wherever one stands. -/
def join (folder path : String) : String :=
  if isAbsolute path then path
  else if folder.isEmpty || folder.toList.getLast? == some '/' then folder ++ path
  else folder ++ "/" ++ path

/-- Splits a file name at its last dot into what stands before and behind it. A name whose only dot is
its first character has no part behind it. -/
def splitExtension (name : String) : String × Option String :=
  let fromEnd := name.toList.reverse
  let behind := fromEnd.takeWhile (· != '.')
  let before := (fromEnd.drop (behind.length + 1)).reverse
  if before.isEmpty || name == ".." then (name, none)
  else (String.ofList before, some (String.ofList behind.reverse))

end SignalLab.Path
