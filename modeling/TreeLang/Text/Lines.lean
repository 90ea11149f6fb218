import TreeLang.Text.Octets

/-!
# Lines

A line ends at a line feed, with or without a carriage return before it; what follows the last line
feed is a line too, unless it is empty.

A `LineReader` gives out the lines of a stream. It takes octets from the stream only when it holds
no whole line, and then as many as it has room for, so that two readers of one stream each get what
the other has left. `next?` gives out no more than the reader has room for, and so a longer line in
parts; `line` gives out a line of any length.
-/

namespace TreeLang.Text

/-- The octet that ends a line. -/
def lineFeed : Nat := 10

/-- The octet that may stand in front of a line feed. -/
def carriageReturn : Nat := 13

/-- The octets without one carriage return at their end. -/
def dropReturn (os : Octets) : Octets :=
  if os.getLast? = some carriageReturn then os.dropLast else os

/-- A line as a reader gives it out, without its end, or a part of a line. -/
structure Line where
  octets : Octets
  whole : Bool := true
deriving DecidableEq, Repr, Inhabited

/-- A reader of lines: the octets that it holds, and those that are left in the stream. -/
structure LineReader where
  held : Octets := []
  stream : Octets := []
deriving DecidableEq, Repr, Inhabited

namespace LineReader

/-- The number of octets that a reader has room for. -/
def capacity : Nat := 4096

/-- Nothing has to be taken from the stream: the reader holds a whole line, or it is full. -/
def isReady (r : LineReader) : Bool :=
  r.held.contains lineFeed || decide (capacity ≤ r.held.length)

/-- Fills the reader up to `size` octets from the stream. -/
def fill (r : LineReader) (size : Nat) : LineReader :=
  let room := size - r.held.length
  { held := r.held ++ r.stream.take room, stream := r.stream.drop room }

/-- The octets in front of the first line feed, and the reader behind that line feed. -/
def cut (r : LineReader) : Octets × LineReader :=
  let front := r.held.takeWhile (· ≠ lineFeed)
  (front, { r with held := r.held.drop (front.length + 1) })

/-- The next line, or as much of it as there is room for; nothing at the end of the stream. A part
does not end with a carriage return, because a line feed may follow. -/
def next? (r : LineReader) : Option (Line × LineReader) :=
  let r := if r.isReady then r else r.fill capacity
  if r.held.isEmpty then none
  else if r.held.contains lineFeed then
    let (front, r) := r.cut
    some (⟨dropReturn front, true⟩, r)
  else
    let rest := { r with held := [] }
    if r.held.length < capacity then some (⟨r.held, true⟩, rest)
    else if r.held.getLast? = some carriageReturn then
      some (⟨r.held.dropLast, false⟩, { r with held := [carriageReturn] })
    else some (⟨r.held, false⟩, rest)

/-- The next line up to its line feed, however long it is; it is empty at the end of the stream. The
reader fills itself as often as the line needs it. -/
def line (r : LineReader) : Octets × LineReader :=
  if r.held.contains lineFeed then r.cut
  else
    let length := r.held.length + (r.stream.takeWhile (· ≠ lineFeed)).length + 1
    (r.fill ((length + capacity - 1) / capacity * capacity)).cut

/-- The lines and parts of lines that a reader gives out, at most `count` of them. -/
def take : (count : Nat) → LineReader → List Line
  | 0, _ => []
  | count + 1, r =>
    match r.next? with
    | none => []
    | some (l, r) => l :: take count r

end LineReader

/-- The lines of octets, longer ones in parts. Each takes at least one octet. -/
def lines (os : Octets) : List Line := LineReader.take os.length { stream := os }

/-- The text of the lines, each with a line feed. -/
def unlines (ls : List String) : String := String.join (ls.map (· ++ "\n"))

/-- The part in front of the first `c`, and the part behind it, which is empty if there is none. -/
def cutAtFirst (c : Char) (s : String) : String × String :=
  let front := s.toList.takeWhile (· ≠ c)
  (String.ofList front, String.ofList (s.toList.drop (front.length + 1)))

end TreeLang.Text
