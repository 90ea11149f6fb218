import TreeLang.Text.Pieces

/-!
# Paths

A path is a text of segments between slashes. A location is the list of segments from the root that
a path leads to when `.` and `..` are resolved by their names alone, without a look at any file.
-/

namespace TreeLang.Path

/-- A place in the tree of files: the names from the root down. -/
abbrev Location := List String

/-- The segments of a path, empty ones included. -/
def segments (path : String) : List String := Text.split path "/"

/-- The path starts at the root. -/
def isAbsolute (path : String) : Bool := path.startsWith "/"

/-- One segment on: empty ones and `.` stay, `..` goes up, and the root is its own parent. -/
def step (place : Location) (segment : String) : Location :=
  if segment = "" || segment = "." then place
  else if segment = ".." then place.dropLast
  else place ++ [segment]

/-- Where a path leads from the working directory `base`. -/
def locate (base : Location) (path : String) : Location :=
  (segments path).foldl step (if isAbsolute path then [] else base)

/-- The text of a location, which starts at the root. -/
def Location.text (l : Location) : String := "/" ++ Text.join "/" l

/-- The path of the directory that a path is in; empty, for the working directory, if the path has
one segment. -/
def directory (path : String) : String :=
  let init := (segments path).dropLast
  if init.isEmpty then "" else Text.join "/" init ++ "/"

/-- A location and all places above it, up to the root. -/
def upward (l : Location) : List Location :=
  (List.range (l.length + 1)).map fun n => l.take (l.length - n)

end TreeLang.Path
