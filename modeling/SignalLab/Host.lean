import SignalLab.Disk.Fault

/-!
# What a command asks of its surroundings

A command reads and writes files and prints to two streams, the one for its answer and the one for
what it has to say about it. It does so through the operations below and in no other way. The actual
system gives them one meaning, and a scene of files and printed texts, which is a value, another.

A file is written in steps. It is opened first, and then bytes are added to it, as often as there are
some. Each step can be refused, and what the steps before it have done is not undone by that.
-/

namespace SignalLab

/-- Surroundings in which commands run. -/
class Host (m : Type → Type) where
  /-- Whether anything stands at a path. -/
  isPresent : String → m Bool
  /-- The content of a text file. -/
  readText : String → m (Except DiskFault String)
  /-- The names of what stands in a folder, in any order. -/
  listNames : String → m (Except DiskFault (List String))
  /-- A file that is open for writing. -/
  File : Type
  /-- Opens a file for writing. If there was one at the path, then what it held is gone; if there was
  none, then there is one now. -/
  create : String → m (Except DiskFault File)
  /-- Writes bytes behind those that have been written to a file. -/
  append : File → ByteArray → m (Except DiskFault Unit)
  /-- Prints to the stream of answers. -/
  print : String → m Unit
  /-- Prints to the stream of remarks. -/
  remark : String → m Unit

end SignalLab
