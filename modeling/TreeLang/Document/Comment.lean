import TreeLang.Document.Property

/-!
# Comments

Comments are no tokens, but they have a say in where a block ends: a block reaches up to the
comments behind it that are indented like its content. So a scan keeps the comments that no token
has taken over yet, each with the places that this depends on.

A comment belongs to the token on its line, or it is the head of the token that follows, or the foot
of what came before. Which of them it is follows from its column and from the empty lines around it.
-/

namespace TreeLang.Document

open Scan

/-- What a comment belongs to. -/
inductive Comment.Place where
  | head
  | line
  | foot
deriving DecidableEq, Repr

/-- A comment. It starts at `start`, where columns count from one, and ends at `stop`; `scan` is
where the white space in front of it starts. A token that starts at `token` or behind it takes the
comment over. -/
structure Comment where
  place : Comment.Place
  scan : Mark := {}
  token : Mark
  start : Mark
  stop : Mark := {}
deriving Repr

/-- How far a scan looks for the start of a comment. -/
def commentReach : Nat := 512

/-- Steps over everything up to the position `seen`, and over the rest of the line from there. -/
def passComment (seen : Nat) : (fuel : Nat) → Scan Unit
  | 0 => pure ()
  | fuel + 1 => do
    need 1
    let c ← get
    if startsBreak c.rest then
      if c.mark.index < seen then
        skipBreak
        passComment seen fuel
    else
      skip
      passComment seen fuel

/-! ## On the line of a token -/

/-- The number of blanks in front of a comment on this line, if there is one; `passed` of them have
been looked at. -/
def blanksBeforeComment : (left : Nat) → (passed : Nat) → Scan (Option Nat)
  | 0, _ => pure none
  | left + 1, passed => do
    need (passed + 1)
    match ((← get).rest.drop passed).head? with
    | some x =>
      if isBlank x then blanksBeforeComment left (passed + 1)
      else pure (if x = '#' then some passed else none)
    | none => pure none

/-- A comment on the line of the token that started at `token`. -/
def scanLineComment (token : Mark) : Scan (Option Comment) := do
  if (← get).breaks > 0 then pure none
  else
    match ← blanksBeforeComment commentReach 0 with
    | none => pure none
    | some blanks =>
      let c ← get
      passComment (c.mark.index + blanks) (c.left + 1)
      let m := c.mark
      pure (some ⟨.line, {}, token, ⟨m.index + blanks, m.line, m.column + blanks⟩, {}⟩)

/-! ## On lines of their own -/

/-- What surrounds comments: the token in front of them, the indentation of the block, whether they
are in a flow collection, and the line on which a comment is still the foot of what came before. -/
structure CommentSite where
  previous : Token
  indent : Nat
  inFlow : Bool
  footLine : Option Nat

/-- What a look for comments knows. `pending` tells that a comment has been read and not yet placed;
it started at `start`. `line` and `column` say how far the look has come. -/
structure CommentLook where
  found : List Comment := []
  pending : Bool := false
  scan : Mark
  token : Mark
  start : Mark := {}
  line : Nat
  column : Nat
  firstEmpty : Bool
  recentEmpty : Bool := false

namespace CommentLook

/-- Places the pending comment as a foot that ends here. -/
def close (l : CommentLook) (token : Mark) (index : Nat) : CommentLook :=
  let here : Mark := ⟨index, l.line, l.column⟩
  { l with
    found := ⟨.foot, l.scan, token, l.start, here⟩ :: l.found
    pending := false, scan := here, token := here }

/-- The pending comment starts left of the block. -/
def dedented (l : CommentLook) (site : CommentSite) : Bool := l.start.column - 1 < site.indent

/-- At the end of a line without content, or at a closing bracket, a pending comment may turn out to
be a foot: in front of the first empty line, if it starts right below the content before it or left
of the block. -/
def atLineEnd (l : CommentLook) (site : CommentSite) (closing : Bool) (index : Nat) : CommentLook :=
  let isFoot := closing || (!l.recentEmpty && l.firstEmpty &&
    ((site.footLine == some l.start.line && site.previous.kind != .value) || l.dedented site))
  if l.pending && isFoot then l.close (if l.dedented site then l.start else l.token) index else l

/-- In front of content or of a comment that stands left of the block and in another column, a
pending comment is a foot. -/
def atContent (l : CommentLook) (site : CommentSite) (index : Nat) : CommentLook :=
  let left := l.column - 1 < site.indent
  if l.pending && left && l.column != l.start.column then l.close l.token index
  else l

/-- Goes on with the next line. -/
def nextLine (l : CommentLook) : CommentLook :=
  { l with firstEmpty := false, recentEmpty := true, column := 0, line := l.line + 1 }

end CommentLook

/-- The text behind its first octet. The octets behind the first one of a wide character are neither
white space nor comment. -/
def behindOctet : List Char → List Char
  | [] => []
  | x :: r => if x.utf8Size = 1 then r else '\u0080' :: r

/-- Looks for the start of a comment in `ahead`, the text behind `passed` octets. Gives the number
of octets looked at, and whether a comment starts there. -/
def lookForComment (site : CommentSite) (index : Nat) : (left : Nat) → (passed : Nat) →
    (ahead : List Char) → CommentLook → Scan (CommentLook × Nat × Bool)
  | 0, passed, _, l => pure (l, passed, false)
  | left + 1, passed, ahead, l => do
    need (passed + 1)
    let l := { l with column := l.column + 1 }
    match ahead with
    | [] => pure (l.atLineEnd site false (index + passed), passed, false)
    | x :: _ =>
      if isBlank x then lookForComment site index left (passed + 1) (behindOctet ahead) l
      else if site.inFlow && (x = ']' || x = '\x7d') then
        pure (l.atLineEnd site true (index + passed), passed, false)
      else if isBreak x then
        lookForComment site index left (passed + 1) (behindOctet ahead)
          (l.atLineEnd site false (index + passed)).nextLine
      else pure (l.atContent site (index + passed), passed, x = '#')

/-- Reads comments as long as only white space divides them; the first look has passed nothing, each
further one starts behind the break that ends a comment. -/
def scanCommentsFrom (site : CommentSite) : (fuel : Nat) → (passed : Nat) → CommentLook →
    Scan CommentLook
  | 0, _, l => pure l
  | fuel + 1, passed, l => do
    let c ← get
    let ahead := if passed = 0 then c.rest else behindOctet c.rest
    let (l, passed, found) ←
      lookForComment site c.mark.index (commentReach - passed) passed ahead l
    let here := c.mark.index + passed
    if found then
      let l := if l.pending then l else { l with start := ⟨here, l.line, l.column⟩ }
      passComment here (c.left + 1)
      scanCommentsFrom site fuel 1
        { l with pending := true, recentEmpty := false, column := 0, line := (← mark).line }
    else
      let last : Comment := ⟨.head, l.scan, l.start, l.start, ⟨here - 1, l.line, l.column⟩⟩
      pure (if l.pending then { l with found := last :: l.found } else l)

/-- The comments here, in order; the cursor is on the first one and is left behind the last one. The
white space in front of them starts at `scan`. -/
def scanComments (previous : Token) (indent : Int) (inFlow : Bool) (scan : Mark) :
    Scan (List Comment) := do
  let c ← get
  let m := c.mark
  let below := m.line + 1 - c.breaks + (if c.breaks = 0 && m.column > 1 then 1 else 0)
  let site : CommentSite :=
    { previous, indent := indent.toNat, inFlow
      footLine := if scan.line > 0 then some below else none }
  let l ← scanCommentsFrom site (c.left + 1) 0
    { scan, token := previous.start, line := m.line, column := m.column
      firstEmpty := c.breaks ≤ 1 }
  pure l.found.reverse

end TreeLang.Document
