import TreeLang.Files.Tree
import TreeLang.Settings.Decode

/-!
# The settings of a project

They stand in a file of one of two names, in the project's directory or above it. The nearest
directory wins, and in one directory the first name.
-/

namespace TreeLang.Settings

/-- The names that a file of settings may have. -/
def fileNames : List String := ["minilang.yaml", "minilang.yml"]

/-- The places to look for settings, in order, for files at a location. -/
def candidates (place : Path.Location) : List String :=
  (Path.upward place).flatMap fun dir =>
    fileNames.map fun name => Path.Location.text (dir ++ [name])

/-- Settings from a file that was read, or why there are none. -/
def ofFile (path : String) (content : Except FileFault String) : Except String Settings :=
  match content with
  | .error f => .error ("reading config " ++ path ++ ": " ++ f.message path)
  | .ok text => (ofText text).mapError (·.message path)

/-- The first candidate in a tree of files. -/
def find? (t : FileTree) (dir : String) : Option String :=
  (candidates (Path.locate t.base dir)).find? t.isPresent

/-- The settings in a file of a tree. -/
def load (t : FileTree) (path : String) : Except String Settings := ofFile path (t.read path)

end TreeLang.Settings
