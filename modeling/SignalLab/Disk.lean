import SignalLab.Disk.Fault
import SignalLab.Host

/-!
# A disk as a value

A disk holds files and folders by location: the list of names from the root. A path is followed name by
name from the root, or from the working folder if it is relative. A dot or an empty name stays, two
dots go up, and both only in a folder.

## Media

Not all that is written need be kept. A disk may be full, or a device may take bytes only to drop them.
The medium of a disk says for every location what becomes of the bytes that are written to a file
there: all are kept, or as many as there is room for, or none. Where the room ends, the write that
goes beyond it is refused, after as much of it as fits has been written.

## Scenes

A scene is a disk with the texts printed so far. Commands that run in a scene change it and nothing
else, so that what a command does is a function of the scene it starts from. The medium of the disk
does not change and is part of the type of the scene; a plain scene is one whose medium keeps all.
-/

namespace SignalLab

/-! ## Locations -/

/-- What stands at a location. -/
inductive Content
  | file (bytes : ByteArray)
  | folder

/-- The names from the root to a file or folder. -/
abbrev Location := List String

/-- Files and folders by location. The root is always a folder. -/
structure Disk where
  entries : List (Location × Content)

/-- The longest name, in bytes. -/
def longestName : Nat := 255

/-- The longest path, in bytes. -/
def longestPath : Nat := 4095

namespace Disk

/-- A disk with nothing on it. -/
def empty : Disk := ⟨[]⟩

/-- What stands at a location. -/
def find? (d : Disk) (place : Location) : Option Content :=
  if place.isEmpty then some .folder else d.entries.lookup place

/-- Puts something at a location in place of what stood there. -/
def put (d : Disk) (place : Location) (c : Content) : Disk :=
  ⟨(place, c) :: d.entries.filter (·.1 != place)⟩

/-- The names of what stands directly in a folder. -/
def namesIn (d : Disk) (folder : Location) : List String :=
  (d.entries.filterMap fun (place, _) =>
    if place.dropLast = folder then place.getLast? else none).eraseDups

/-! ## Following paths -/

/-- One step along a path: the location that a name leads to from a folder. -/
def step (d : Disk) (here : Location) (name : String) : Except DiskFault Location :=
  match d.find? here with
  | none => .error .noSuchFile
  | some (.file _) => .error .notFolder
  | some .folder =>
    if name = "" ∨ name = "." then .ok here
    else if name = ".." then .ok here.dropLast
    else if longestName < name.utf8ByteSize then .error .nameTooLong
    else if (d.find? (here ++ [name])).isNone then .error .noSuchFile
    else .ok (here ++ [name])

/-- The location that some names lead to, one after the other. -/
def follow (d : Disk) (here : Location) : List String → Except DiskFault Location
  | [] => .ok here
  | name :: rest =>
    match d.step here name with
    | .error fault => .error fault
    | .ok there => d.follow there rest

/-- Why a path leads nowhere whatever the disk holds. -/
def pathFault? (path : String) : Option DiskFault :=
  if path.toList.contains '\x00' then some .nulInPath
  else if path.isEmpty then some .noSuchFile
  else if longestPath < path.utf8ByteSize then some .nameTooLong
  else none

/-- The names along a path. An absolute path begins with an empty name. -/
def namesOf (path : String) : List String :=
  (path.toList.splitOn '/').map String.ofList

/-- Where a path starts. -/
def startOf (working : Location) (path : String) : Location :=
  if path.toList.head? = some '/' then [] else working

/-- The location that a path leads to. -/
def locate (d : Disk) (working : Location) (path : String) : Except DiskFault Location :=
  match pathFault? path with
  | some fault => .error fault
  | none => d.follow (startOf working path) (namesOf path)

/-! ## Reading and writing -/

/-- The text of a file. -/
def readText (d : Disk) (working : Location) (path : String) : Except DiskFault String :=
  match d.locate working path with
  | .error fault => .error fault
  | .ok place =>
    match d.find? place with
    | none => .error .noSuchFile
    | some .folder => .error .isFolder
    | some (.file bytes) =>
      match String.fromUTF8? bytes with
      | none => .error .notText
      | some text => .ok text

/-- The names in a folder. -/
def listNames (d : Disk) (working : Location) (path : String) : Except DiskFault (List String) :=
  match d.locate working path with
  | .error fault => .error fault
  | .ok place =>
    match d.find? place with
    | none => .error .noSuchFile
    | some (.file _) => .error .notFolder
    | some .folder => .ok (d.namesIn place)

/-- Where a file with the given path is written: the folder before the last name has to exist, and the
last name has to be that of a file or of nothing yet. -/
def locateNew (d : Disk) (working : Location) (path : String) : Except DiskFault Location :=
  match pathFault? path with
  | some fault => .error fault
  | none =>
    let fromEnd := (namesOf path).reverse
    let trailing := fromEnd.takeWhile (· == "")
    match fromEnd.drop trailing.length with
    | [] => .error .isFolder
    | last :: before =>
      match d.follow (startOf working path) before.reverse with
      | .error fault => .error fault
      | .ok folder =>
        match d.find? folder with
        | some .folder =>
          if !trailing.isEmpty ∨ last = "." ∨ last = ".." then .error .isFolder
          else if longestName < last.utf8ByteSize then .error .nameTooLong
          else
            match d.find? (folder ++ [last]) with
            | some .folder => .error .isFolder
            | _ => .ok (folder ++ [last])
        | _ => .error .notFolder

/-- Opens a file for writing: it stands where its path leads, and holds nothing. -/
def create (d : Disk) (working : Location) (path : String) : Except DiskFault (Location × Disk) :=
  (d.locateNew working path).map fun place => (place, d.put place (.file .empty))

/-- What the file at a location holds. -/
def bytesAt (d : Disk) (place : Location) : ByteArray :=
  match d.find? place with
  | some (.file bytes) => bytes
  | _ => .empty

end Disk

/-! ## Media -/

/-- What becomes of the bytes that are written to a file. -/
inductive Keeping
  /-- All are kept. -/
  | all
  /-- Only so many are kept. More are refused with a fault. -/
  | upTo (size : Nat) (fault : DiskFault)
  /-- None is kept, and none is refused. -/
  | nothing

namespace Keeping

/-- What a file holds to which some bytes have been written. -/
def kept : Keeping → ByteArray → ByteArray
  | .all, bytes => bytes
  | .upTo size _, bytes => bytes.extract 0 size
  | .nothing, _ => .empty

/-- Why a file cannot be made as long as that, if it cannot. -/
def refusal? : Keeping → Nat → Option DiskFault
  | .upTo size fault, wanted => if size < wanted then some fault else none
  | .all, _ | .nothing, _ => none

end Keeping

/-- What becomes of the bytes that are written to the file at a location. -/
abbrev Medium := Location → Keeping

/-- The medium that keeps all. -/
def Medium.lasting : Medium := fun _ => .all

/-- Writes bytes behind those that the file at a location holds, and answers whether there was room for
all of them. -/
def Disk.append (d : Disk) (medium : Medium) (place : Location) (more : ByteArray) :
    Except DiskFault Unit × Disk :=
  let bytes := d.bytesAt place ++ more
  let answer := match (medium place).refusal? bytes.size with
    | some fault => .error fault
    | none => .ok ()
  (answer, d.put place (.file ((medium place).kept bytes)))

/-! ## Scenes -/

/-- A disk on a medium, the folder one stands in, and what has been printed to the two streams. -/
structure SceneOn (medium : Medium) where
  disk : Disk
  working : Location
  printed : String
  remarks : String

/-- A scene on a medium that keeps all. -/
abbrev Scene := SceneOn .lasting

/-- Commands run in a scene as functions of it. -/
instance {medium : Medium} : Host (StateM (SceneOn medium)) where
  isPresent path := do
    let s ← get
    return (s.disk.locate s.working path).toOption.isSome
  readText path := do
    let s ← get
    return s.disk.readText s.working path
  listNames path := do
    let s ← get
    return s.disk.listNames s.working path
  File := Location
  create path := do
    let s ← get
    match s.disk.create s.working path with
    | .error fault => return .error fault
    | .ok (place, disk) =>
      modify fun s => { s with disk := disk }
      return .ok place
  append place more := do
    let s ← get
    let (answer, disk) := s.disk.append medium place more
    modify fun s => { s with disk := disk }
    return answer
  print text := modify fun s => { s with printed := s.printed ++ text }
  remark text := modify fun s => { s with remarks := s.remarks ++ text }

end SignalLab
