import TreeLang.Text.Lines

/-!
# Entries of an interactive session

An entry goes on over several lines as long as brackets are open. Brackets inside quotes do not
count, and a backslash inside quotes takes the next character along.
-/

namespace TreeLang.Command

/-- Where a scan for brackets is. -/
structure Brackets where
  depth : Int := 0
  quoted : Bool := false
  escaped : Bool := false
deriving DecidableEq, Repr, Inhabited

namespace Brackets

/-- One character on. -/
def step (s : Brackets) (c : Char) : Brackets :=
  if s.escaped then { s with escaped := false }
  else if s.quoted && c = '\\' then { s with escaped := true }
  else if c = '"' then { s with quoted := !s.quoted }
  else if s.quoted then s
  else if c = '[' || c = '\x7b' then { s with depth := s.depth + 1 }
  else if c = ']' || c = '\x7d' then { s with depth := s.depth - 1 }
  else s

end Brackets

/-- The number of brackets that are open at the end of a text. -/
def bracketDepth (cs : List Char) : Int := (cs.foldl Brackets.step {}).depth

/-- An entry while it is read. -/
inductive Reading where
  | pending (text : String)
  | complete (entry : String)
deriving DecidableEq, Repr, Inhabited

/-- Adds a line to the lines before it, which may be none. The entry is complete when no bracket is
open. -/
def addLine (pending line : String) : Reading :=
  let text := if pending.isEmpty then line else pending ++ "\n" ++ line
  if bracketDepth text.toList ≤ 0 then .complete text else .pending text

/-! ## The record of entries -/

/-- The number of entries that are kept. -/
def historyLimit : Nat := 1000

/-- The last entries within the limit. -/
def lastEntries (entries : List String) : List String :=
  entries.drop (entries.length - historyLimit)

/-- The entries in a record, one on a line, up to the first line that is too long or no text. -/
def entriesOf (record : Text.Octets) : List String :=
  ((Text.lines record).takeWhile fun l => l.whole && l.octets.isText).map (·.octets.text)

/-- Adds an entry, on one line. An entry that repeats the one before it is not added. -/
def addEntry (entries : List String) (entry : String) : List String :=
  let line := entry.map fun c => if c = '\n' then ' ' else c
  if entries.getLast? = some line then entries else lastEntries (entries ++ [line])

end TreeLang.Command
