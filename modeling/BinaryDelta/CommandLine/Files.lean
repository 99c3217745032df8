import BinaryDelta.Bytes

/-!
# Files

A directory tree as the command line sees it, and the rules by which a path is followed through it:
every component but the last has to lead to a directory, a dot stays there, two dots go up, and a
slash at the end asks for a directory. The tree is known as far as commands can name it. Paths
start at the root or at the working directory, and two dots at the root stay there.

* `Files.lookup` says what is at the end of a path, or why there is nothing.
* `Files.destination` says where a file would be created, or why it cannot be.
-/

namespace BinaryDelta.CommandLine

/-- The contents of a file: bytes, and so many zeros behind them, which take no memory. -/
structure StoredFile where
  bytes : ByteArray := ByteArray.empty
  hole : Nat := 0
  /-- Is everything that is written to it lost? -/
  discards : Bool := false

/-- The size of a file. -/
def StoredFile.size (f : StoredFile) : Nat := f.bytes.size + f.hole

/-! ## Places and paths -/

/-- A place in the tree: the names that lead to it from the root. -/
structure Place where
  names : List String := []
  deriving Repr, DecidableEq

namespace Place

/-- The directory that a place is in. The root is in itself. -/
def parent (place : Place) : Place := ⟨place.names.dropLast⟩

/-- Where a component leads from a directory. -/
def step (here : Place) (component : String) : Place :=
  if component = "." then here
  else if component = ".." then here.parent
  else ⟨here.names ++ [component]⟩

/-- Is a place another one, or somewhere below it? -/
def isWithin (inner outer : Place) : Bool := outer.names.isPrefixOf inner.names

/-- The path that leads to a place. -/
def toText (place : Place) : String := "/" ++ String.intercalate "/" place.names

end Place

/-- A path, component by component. Slashes in a row count as one. -/
structure Path where
  /-- Does the path start at the root? -/
  absolute : Bool
  components : List String
  /-- Does it end with a slash? -/
  closed : Bool

namespace Path

/-- The path that a text spells. -/
def ofText (text : String) : Path where
  absolute := text.startsWith "/"
  components := (text.splitOn "/").filter (· != "")
  closed := text.endsWith "/"

/-- The directory at which the path starts when it is followed from a directory. -/
def start (path : Path) (here : Place) : Place := if path.absolute then {} else here

/-- Where the path leads from a directory if all its components exist. -/
def place (path : Path) (here : Place) : Place :=
  path.components.foldl Place.step (path.start here)

/-- The longest component, in bytes. -/
def maxComponentSize : Nat := 255

/-- The longest path, in bytes. -/
def maxSize : Nat := 4095

end Path

/-- Why a path leads nowhere, or not to a file. -/
inductive PathFault where
  | missing
  | notDirectory
  | isDirectory
  | nameTooLong
  deriving Repr, DecidableEq

/-- The wording of the system. -/
def PathFault.message : PathFault → String
  | missing => "No such file or directory (os error 2)"
  | notDirectory => "Not a directory (os error 20)"
  | isDirectory => "Is a directory (os error 21)"
  | nameTooLong => "File name too long (os error 36)"

/-! ## The tree -/

/-- The device that reads as an empty file and loses what is written to it. -/
def nullDevice : Place × StoredFile := (⟨["dev", "null"]⟩, { discards := true })

/-- Directories that every system has. -/
def systemDirectories : List Place :=
  ["bin", "dev", "etc", "home", "lib", "opt", "proc", "root", "run", "sbin", "sys", "tmp", "usr",
    "var"].map fun name => ⟨[name]⟩

/-- What is at a place. -/
inductive Node where
  | file (file : StoredFile)
  | directory

/-- Files by their place. The directories are those that the files are in, the working directory and
those that it is in, and others that are known to exist. -/
structure Files where
  /-- Where paths start that do not start at the root. -/
  workingDirectory : Place := ⟨["tmp", "working-directory"]⟩
  entries : List (Place × StoredFile) := [nullDevice]
  directories : List Place := systemDirectories
  /-- The places that were written to, the last one first. -/
  written : List Place := []

namespace Files

/-- Is there a directory at the place? -/
def isDirectory (files : Files) (place : Place) : Bool :=
  files.workingDirectory.isWithin place || files.directories.contains place ||
    files.entries.any fun (file, _) => file != place && file.isWithin place

/-- What is at a place, if anything is. -/
def at? (files : Files) (place : Place) : Option Node :=
  match files.entries.lookup place with
  | some file => some (.file file)
  | none => if files.isDirectory place then some .directory else none

/-- What is where a component leads from a directory. -/
def follow (files : Files) (here : Place) (component : String) : Except PathFault (Place × Node) :=
  if Path.maxComponentSize < component.utf8ByteSize then .error .nameTooLong
  else
    let there := here.step component
    match files.at? there with
    | none => .error .missing
    | some node => .ok (there, node)

/-- The directory where components lead, all of which have to be directories. -/
def enter (files : Files) (here : Place) : List String → Except PathFault Place
  | [] => .ok here
  | component :: components =>
    match files.follow here component with
    | .error fault => .error fault
    | .ok (_, .file _) => .error .notDirectory
    | .ok (there, .directory) => files.enter there components

/-- The directory in which the last component of a path is to be looked for. -/
def directoryOf (files : Files) (path : Path) : Except PathFault Place :=
  files.enter (path.start files.workingDirectory) path.components.dropLast

/-- What is at the end of a path, and where that is. -/
def lookup (files : Files) (text : String) : Except PathFault (Place × Node) := do
  if Path.maxSize < text.utf8ByteSize then throw .nameTooLong
  let path := Path.ofText text
  let here ← files.directoryOf path
  match path.components.getLast? with
  | none => if path.absolute then return (here, .directory) else throw .missing
  | some component =>
    match ← files.follow here component with
    | (there, .directory) => return (there, .directory)
    | (there, .file file) => if path.closed then throw .notDirectory else return (there, .file file)

/-- Where a file is created, or emptied, by a path. -/
def destination (files : Files) (text : String) : Except PathFault Place := do
  if Path.maxSize < text.utf8ByteSize then throw .nameTooLong
  let path := Path.ofText text
  let here ← files.directoryOf path
  match path.components.getLast? with
  | none => throw (if path.absolute then .isDirectory else .missing)
  | some component =>
    if component = "." || component = ".." || path.closed then throw .isDirectory
    match files.follow here component with
    | .ok (_, .directory) => throw .isDirectory
    | .ok (there, .file _) => return there
    | .error .missing => return here.step component
    | .error fault => throw fault

/-- Is there a file or a directory at the end of the path? -/
def has (files : Files) (text : String) : Bool := (files.lookup text).isOk

/-- The file at the end of a path. -/
def find? (files : Files) (text : String) : Option StoredFile :=
  match files.lookup text with
  | .ok (_, .file file) => some file
  | _ => none

/-- Adds a file that exists. -/
def addFile (files : Files) (place : Place) (file : StoredFile) : Files :=
  { files with entries := (place, file) :: files.entries }

/-- Adds a directory that exists. -/
def addDirectory (files : Files) (place : Place) : Files :=
  { files with directories := place :: files.directories }

/-- Does the file at a place lose what is written to it? -/
def discards (files : Files) (place : Place) : Bool :=
  (files.entries.lookup place).any (·.discards)

/-- Puts bytes into the file at a place, instead of those that may be there. -/
def write (files : Files) (place : Place) (bytes : ByteArray) : Files :=
  if files.discards place then files
  else
    { files with
      entries := (place, { bytes }) :: files.entries.filter (·.1 != place)
      written := place :: files.written.filter (· != place) }

end Files

end BinaryDelta.CommandLine
