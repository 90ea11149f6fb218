import TreeLang.Files.Path

/-!
# A tree of files

Files and directories by location, and the directory that relative paths start from. To open a path
is to walk it: unlike `Path.locate`, every place on the way must be a directory.
-/

namespace TreeLang

/-- Why a file cannot be read. -/
inductive FileFault where
  | missing
  | notDirectory
  | isDirectory
  | nameTooLong
  | invalid
deriving DecidableEq, Repr

/-- The wording of a fault with the path as it was given. Directories open, and only reading them
fails. -/
def FileFault.message (path : String) : FileFault → String
  | .missing => "open " ++ path ++ ": no such file or directory"
  | .notDirectory => "open " ++ path ++ ": not a directory"
  | .isDirectory => "read " ++ path ++ ": is a directory"
  | .nameTooLong => "open " ++ path ++ ": file name too long"
  | .invalid => "open " ++ path ++ ": invalid argument"

/-- What stands at a location. -/
inductive FileEntry where
  | file (text : String)
  | directory
deriving DecidableEq, Repr, Inhabited

/-- A tree of files. The root is always a directory. -/
structure FileTree where
  base : Path.Location := []
  entries : List (Path.Location × FileEntry) := []
deriving Repr, Inhabited

namespace FileTree

/-- What stands at a location, the latest entry for it. -/
def entry? (t : FileTree) (place : Path.Location) : Option FileEntry :=
  if place.isEmpty then some .directory
  else (t.entries.find? (·.1 == place)).map (·.2)

/-- Makes a directory and those above it. -/
def addDirectory (t : FileTree) (place : Path.Location) : FileTree :=
  { t with entries := (Path.upward place).map (·, .directory) ++ t.entries }

/-- Writes a file, in directories made for it. -/
def addFile (t : FileTree) (place : Path.Location) (text : String) : FileTree :=
  let t := t.addDirectory place.dropLast
  { t with entries := (place, .file text) :: t.entries }

/-- An empty tree with its working directory. -/
def ofBase (base : Path.Location) : FileTree :=
  ({ base } : FileTree).addDirectory base

/-- The number of octets that a name may have. -/
def nameLimit : Nat := 255

/-- The number of octets that a path may have. -/
def pathLimit : Nat := 4095

/-- Walks the segments; each step needs a directory to start from. -/
def walk (t : FileTree) : (place : Path.Location) → List String → Except FileFault Path.Location
  | place, [] => .ok place
  | place, segment :: rest =>
    match t.entry? place with
    | none => .error .missing
    | some (.file _) => .error .notDirectory
    | some .directory =>
      if segment.utf8ByteSize > nameLimit then .error .nameTooLong
      else t.walk (Path.step place segment) rest

/-- The entry that a path leads to. The null character is in no path. -/
def find (t : FileTree) (path : String) : Except FileFault FileEntry :=
  if path.toList.contains '\x00' then .error .invalid
  else if path.isEmpty then .error .missing
  else if path.utf8ByteSize > pathLimit then .error .nameTooLong
  else do
    let start := if Path.isAbsolute path then [] else t.base
    let place ← t.walk start (Path.segments path)
    match t.entry? place with
    | some e => pure e
    | none => throw .missing

/-- The text of the file at a path. -/
def read (t : FileTree) (path : String) : Except FileFault String := do
  match ← t.find path with
  | .file text => pure text
  | .directory => throw .isDirectory

/-- Something stands at the path. -/
def isPresent (t : FileTree) (path : String) : Bool := (t.find path).toBool

end FileTree

end TreeLang
