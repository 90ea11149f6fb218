/-!
# Reading positions

A cursor is the unread rest of a document together with its position. Lines and columns count
characters from zero; a carriage return with its line feed is one break. The cursor also counts the
line breaks passed since the last character that was neither blank nor break.

The text is taken in by blocks of 512 octets, and only when a scan asks for characters. So a
character that no document may hold is noticed when its block is taken in, and not at all if the
document ends before that. The main operations are `Scan.need`, which asks for characters, and
`Scan.skip` and `Scan.skipBreak`, which pass them.
-/

namespace TreeLang.Document

/-- A position: characters from the start, line, and column, all from zero. -/
structure Mark where
  index : Nat := 0
  line : Nat := 0
  column : Nat := 0
deriving DecidableEq, Repr, Inhabited

/-! ## Classes of characters -/

/-- Space or tab. -/
def isBlank (c : Char) : Bool := c = ' ' || c = '\t'

/-- The five line breaks. -/
def isBreak (c : Char) : Bool :=
  c = '\n' || c = '\r' || c = '\u0085' || c = '\u2028' || c = '\u2029'

/-- Characters of anchors, directive names and tag handles. -/
def isWordChar (c : Char) : Bool := c.isAlphanum || c = '_' || c = '-'

/-- The characters that a document may hold. -/
def isAllowed (c : Char) : Bool :=
  let n := c.toNat
  n = 0x09 || n = 0x0A || n = 0x0D || (0x20 ≤ n && n ≤ 0x7E) || n = 0x85 ||
    (0xA0 ≤ n && n ≤ 0xD7FF) || (0xE000 ≤ n && n ≤ 0xFFFD) || 0x10000 ≤ n

/-- The text ends here, or a blank or a break follows. -/
def startsBlank : List Char → Bool
  | [] => true
  | c :: _ => isBlank c || isBreak c

/-- The text ends here, or a break follows. -/
def startsBreak : List Char → Bool
  | [] => true
  | c :: _ => isBreak c

/-- `---` or `...` with a blank, a break or the end behind it. -/
def startsMarker : List Char → Bool
  | '-' :: '-' :: '-' :: r => startsBlank r
  | '.' :: '.' :: '.' :: r => startsBlank r
  | _ => false

/-! ## Blocks -/

/-- The number of octets in a block. -/
def blockOctets : Nat := 512

/-- A block: the number of its characters, or nothing if one of them is not allowed. -/
abbrev Block := Option Nat

/-- Divides a text into blocks. The current block has `count` characters so far, which take `octets`
octets; `clean` tells that all of them are allowed. A character belongs to the block in which it
ends. -/
def divideFrom : (text : List Char) → (octets count : Nat) → (clean : Bool) → List Block
  | [], _, count, clean => if count = 0 then [] else [if clean then some count else none]
  | c :: r, octets, count, clean =>
    if octets + c.utf8Size ≤ blockOctets then
      divideFrom r (octets + c.utf8Size) (count + 1) (clean && isAllowed c)
    else (if clean then some count else none) :: divideFrom r c.utf8Size 1 (isAllowed c)

/-- The unread rest of a document, the number `left` of its characters, and where it starts. Of the
characters, `atHand` have been taken in, and `blocks` has the blocks to come; each time that more is
asked for than there is, the end of the text counts as one more character. `orderMark` tells that
the next character was a byte order mark when a block was last taken in. -/
structure Cursor where
  rest : List Char
  left : Nat
  mark : Mark := {}
  breaks : Nat := 0
  atHand : Nat := 0
  blocks : List Block := []
  orderMark : Bool := false
deriving Repr

/-- The byte order mark. -/
def byteOrderMark : Char := '\ufeff'

namespace Cursor

/-- The start of a text. A byte order mark in front is no part of it, but takes room in the first
block. -/
def ofText (text : List Char) : Cursor :=
  match text with
  | [] => { rest := [], left := 0 }
  | c :: r =>
    if c = byteOrderMark then
      { rest := r, left := r.length, blocks := divideFrom r c.utf8Size 0 true }
    else { rest := text, left := text.length, blocks := divideFrom text 0 0 true }

/-- The first unread character satisfies `p`. -/
def has (c : Cursor) (p : Char → Bool) : Bool :=
  match c.rest with
  | [] => false
  | x :: _ => p x

/-- Takes in blocks until `n` characters are at hand. -/
def takeIn (n : Nat) : List Block → (atHand : Nat) → Option (Nat × List Block)
  | [], atHand => some (atHand + 1, [])
  | none :: _, _ => none
  | some k :: blocks, atHand =>
    if n ≤ atHand + k then some (atHand + k, blocks) else takeIn n blocks (atHand + k)

/-- Steps over one character that is no break. -/
def skip (c : Cursor) : Cursor :=
  { c with
    rest := c.rest.drop 1
    left := c.left - 1
    mark := ⟨c.mark.index + 1, c.mark.line, c.mark.column + 1⟩
    breaks := if c.has isBlank then c.breaks else 0
    atHand := c.atHand - 1 }

/-- Steps over one line break, if one is here. -/
def skipBreak (c : Cursor) : Cursor :=
  let pass (n : Nat) : Cursor :=
    { c with
      rest := c.rest.drop n
      left := c.left - n
      mark := ⟨c.mark.index + n, c.mark.line + 1, 0⟩
      breaks := c.breaks + 1
      atHand := c.atHand - n }
  match c.rest with
  | '\r' :: '\n' :: _ => pass 2
  | x :: _ => if isBreak x then pass 1 else c
  | [] => c

/-- The text of the break here: a line feed, except that the two Unicode separators stand for
themselves. -/
def breakText (c : Cursor) : List Char :=
  match c.rest with
  | x :: _ => if x = '\u2028' || x = '\u2029' then [x] else if isBreak x then ['\n'] else []
  | [] => []

end Cursor

/-! ## Scans -/

/-- A scan moves a cursor and finds something, or finds the text broken. -/
abbrev Scan (α : Type) := StateT Cursor Option α

namespace Scan

/-- The text is broken here. -/
def fail {α : Type} : Scan α := fun _ => none

/-- Asks for `n` characters. -/
def need (n : Nat) : Scan Unit := fun c =>
  if n ≤ c.atHand then some ((), c)
  else
    (Cursor.takeIn n c.blocks c.atHand).map fun (atHand, blocks) =>
      ((), { c with atHand, blocks, orderMark := c.has (· = byteOrderMark) })

/-- Steps over one character that is no break. -/
def skip : Scan Unit := modify Cursor.skip

/-- Steps over one character and asks for another one. -/
def step : Scan Unit := do
  skip
  need 1

/-- Steps over `n` characters that are no breaks. -/
def advance : (n : Nat) → Scan Unit
  | 0 => pure ()
  | n + 1 => do
    skip
    advance n

/-- Steps over one line break, if one is here. -/
def skipBreak : Scan Unit := do
  need 2
  modify Cursor.skipBreak

/-- Steps over one line break and gives its text. -/
def readBreak : Scan (List Char) := do
  let text := (← get).breakText
  skipBreak
  pure text

/-- Whether the first unread character satisfies `p`. -/
def sees (p : Char → Bool) : Scan Bool := do pure ((← get).has p)

/-- The current position. -/
def mark : Scan Mark := do pure (← get).mark

/-- Steps over at most `n` characters that satisfy `p`. -/
def skipWithin (p : Char → Bool) : (n : Nat) → Scan Unit
  | 0 => pure ()
  | n + 1 => do
    if ← sees p then
      step
      skipWithin p n

/-- Steps over all characters that satisfy `p`, which holds of no break. -/
def skipWhile (p : Char → Bool) : Scan Unit := do
  need 1
  skipWithin p (← get).left

/-- Steps over all characters that satisfy `p` and gives them. -/
def readWhile (p : Char → Bool) : Scan (List Char) := do
  let text := (← get).rest.takeWhile p
  skipWhile p
  pure text

/-- Steps over the rest of the line, up to its break. -/
def skipLine : Scan Unit := skipWhile fun x => !isBreak x

end Scan

end TreeLang.Document
