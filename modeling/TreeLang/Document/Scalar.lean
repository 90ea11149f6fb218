import TreeLang.Document.Token

/-!
# Scanning scalars

The four written forms of a scalar. Plain and quoted scalars may run over several lines: a single
break between words reads as a space, each further break as itself. A block scalar keeps its lines
(`|`) or folds them (`>`); its indentation is found from the first line with text, and its last
breaks are kept, dropped or clipped to one.

Every scan leaves the cursor behind the scalar and gives its text.
-/

namespace TreeLang.Document

open Scan

/-! ## White space between words -/

/-- A run of blanks and breaks. `blanks` are those before the first break, `first` is the text of
the first break and `more` that of the others; `broken` holds once a break has been passed. -/
structure Gap where
  blanks : List Char := []
  first : List Char := []
  more : List Char := []
  broken : Bool := false
deriving Repr

/-- The text that a gap inside a scalar stands for. -/
def Gap.fold (g : Gap) : List Char :=
  if g.broken then
    match g.first with
    | '\n' :: _ => if g.more.isEmpty then [' '] else g.more
    | first => first ++ g.more
  else g.blanks

/-- Reads blanks and breaks. A tab in a column below `indent` that follows a break is refused. -/
def Gap.scan (indent : Int) : (fuel : Nat) → Gap → Scan Gap
  | 0, g => pure g
  | fuel + 1, g => do
    let c ← get
    match c.rest with
    | [] => pure g
    | x :: _ =>
      if isBlank x then
        if g.broken && (c.mark.column : Int) < indent && x = '\t' then fail
        else
          step
          Gap.scan indent fuel (if g.broken then g else { g with blanks := g.blanks ++ [x] })
      else if isBreak x then
        let text ← readBreak
        need 1
        Gap.scan indent fuel
          (if g.broken then { g with more := g.more ++ text }
          else { g with blanks := [], first := text, broken := true })
      else pure g

/-! ## Plain scalars -/

/-- A plain word ends here: at a blank, a break, a colon with a blank behind it, or in a flow
collection at one of its indicators. -/
def endsPlainWord (inFlow : Bool) : List Char → Bool
  | [] => true
  | x :: r =>
    isBlank x || isBreak x || (x = ':' && startsBlank r) ||
      (inFlow && (x = ',' || x = '?' || x = '[' || x = ']' || x = '\x7b' || x = '\x7d'))

/-- A plain scalar as it grows. `text` is what has been read, backwards, `stop` is where its last
word ended, and `gap` is the white space behind it, which counts only if another word follows. -/
structure PlainText where
  text : List Char := []
  gap : Gap := {}
  stop : Mark
deriving Repr

/-- Reads one word of a plain scalar. -/
def scanPlainWord (inFlow : Bool) : (fuel : Nat) → PlainText → Scan PlainText
  | 0, p => pure p
  | fuel + 1, p => do
    match (← get).rest with
    | [] => pure p
    | x :: r =>
      if endsPlainWord inFlow (x :: r) then pure p
      else
        skip
        let stop ← mark
        need 2
        scanPlainWord inFlow fuel ⟨x :: (p.gap.fold.reverse ++ p.text), {}, stop⟩

/-- Reads words and the gaps between them. -/
def scanPlainFrom (inFlow : Bool) (indent : Int) : (fuel : Nat) → PlainText → Scan PlainText
  | 0, p => pure p
  | fuel + 1, p => do
    need 4
    let c ← get
    if (c.mark.column = 0 && startsMarker c.rest) || c.has (· = '#') then pure p
    else
      let p ← scanPlainWord inFlow c.left p
      if !(← sees fun x => isBlank x || isBreak x) then pure p
      else
        need 1
        let gap ← Gap.scan indent ((← get).left + 1) p.gap
        let p := { p with gap }
        if !inFlow && ((← mark).column : Int) < indent then pure p
        else scanPlainFrom inFlow indent fuel p

/-- A plain scalar inside the block indentation `indent`. -/
def scanPlain (inFlow : Bool) (indent : Int) : Scan PlainText := do
  scanPlainFrom inFlow (indent + 1) ((← get).left + 1) { stop := ← mark }

/-! ## Quoted scalars -/

/-- The value of a hexadecimal digit. -/
def hexValue? (c : Char) : Option Nat :=
  if '0' ≤ c && c ≤ '9' then some (c.toNat - 48)
  else if 'a' ≤ c && c ≤ 'f' then some (c.toNat - 87)
  else if 'A' ≤ c && c ≤ 'F' then some (c.toNat - 55)
  else none

/-- The number written by exactly `n` hexadecimal digits at the front. -/
def hexNumber? : (n : Nat) → List Char → (acc : Nat) → Option Nat
  | 0, _, acc => some acc
  | _ + 1, [], _ => none
  | n + 1, x :: r, acc => (hexValue? x).bind fun d => hexNumber? n r (16 * acc + d)

/-- The character that a backslash and this letter stand for. -/
def escapeLetter? : Char → Option Char
  | '0' => some '\x00'
  | 'a' => some '\x07'
  | 'b' => some '\x08'
  | 't' => some '\t'
  | '\t' => some '\t'
  | 'n' => some '\n'
  | 'v' => some '\x0b'
  | 'f' => some '\x0c'
  | 'r' => some '\r'
  | 'e' => some '\x1b'
  | ' ' => some ' '
  | '"' => some '"'
  | '\'' => some '\''
  | '\\' => some '\\'
  | 'N' => some '\u0085'
  | '_' => some '\u00a0'
  | 'L' => some '\u2028'
  | 'P' => some '\u2029'
  | _ => none

/-- The number of hexadecimal digits behind a backslash and this letter. -/
def escapeWidth? : Char → Option Nat
  | 'x' => some 2
  | 'u' => some 4
  | 'U' => some 8
  | _ => none

/-- The character that a backslash and the letters behind it stand for. The cursor is on the
backslash, and is left behind the escape. -/
def scanEscape : Scan Char := do
  match (← get).rest with
  | _ :: x :: _ =>
    match escapeLetter? x, escapeWidth? x with
    | some y, _ =>
      advance 2
      pure y
    | none, some w =>
      advance 2
      need w
      match hexNumber? w (← get).rest 0 with
      | some n =>
        if (0xD800 ≤ n && n ≤ 0xDFFF) || n > 0x10FFFF then fail
        else
          advance w
          pure (Char.ofNat n)
      | none => fail
    | none, none => fail
  | _ => fail

/-- Reads one word inside quotes: up to the closing quote, to white space, or over a backslash at
the end of a line, which joins the lines. `text` is what has been read, backwards; the truth value
tells that lines were joined. -/
def scanQuotedWord (double : Bool) : (fuel : Nat) → (text : List Char) → Scan (List Char × Bool)
  | 0, _ => fail
  | fuel + 1, text => do
    match (← get).rest with
    | [] => pure (text, false)
    | x :: r =>
      if isBlank x || isBreak x || (double && x = '"') then pure (text, false)
      else if double && x = '\\' then
        if r.head?.any isBreak then
          need 3
          skip
          modify Cursor.skipBreak
          pure (text, true)
        else
          let y ← scanEscape
          need 2
          scanQuotedWord double fuel (y :: text)
      else if !double && x = '\'' && r.head? != some '\'' then pure (text, false)
      else
        -- Two single quotes stand for one.
        advance (if !double && x = '\'' then 2 else 1)
        need 2
        scanQuotedWord double fuel (x :: text)

/-- Reads words and gaps up to the closing quote; `text` is what has been read, backwards. -/
def scanQuotedFrom (double : Bool) : (fuel : Nat) → (text : List Char) → Scan (List Char)
  | 0, _ => fail
  | fuel + 1, text => do
    need 4
    let c ← get
    if (c.mark.column = 0 && startsMarker c.rest) || c.rest.isEmpty then fail
    else
      let (text, joined) ← scanQuotedWord double (c.left + 1) text
      need 1
      if ← sees (· = if double then '"' else '\'') then
        skip
        pure text.reverse
      else
        -- An escaped break counts as passed, but leaves no text.
        let gap ← Gap.scan 0 ((← get).left + 1) { broken := joined }
        scanQuotedFrom double fuel (gap.fold.reverse ++ text)

/-- A quoted scalar; the cursor is on its opening quote. -/
def scanQuoted (double : Bool) : Scan (List Char) := do
  skip
  scanQuotedFrom double ((← get).left + 1) []

/-! ## Block scalars -/

/-- What happens to the breaks at the end of a block scalar. -/
inductive Chomp where
  | clip
  | drop
  | keep
deriving DecidableEq, Repr

/-- The chomping mark here, if there is one. -/
def scanChomp : Scan (Option Chomp) := do
  need 1
  match (← get).rest with
  | '+' :: _ =>
    skip
    pure (some .keep)
  | '-' :: _ =>
    skip
    pure (some .drop)
  | _ => pure none

/-- The indentation mark here, if there is one: a digit, which must not be zero. -/
def scanIncrement : Scan (Option Nat) := do
  need 1
  match (← get).rest with
  | x :: _ =>
    if x = '0' then fail
    else if x.isDigit then
      skip
      pure (some (x.toNat - 48))
    else pure none
  | [] => pure none

/-- The marks behind `|` or `>`, in either order. -/
def scanBlockMarks : Scan (Chomp × Option Nat) := do
  match ← scanChomp with
  | some chomp => pure (chomp, ← scanIncrement)
  | none =>
    match ← scanIncrement with
    | some n => pure ((← scanChomp).getD .clip, some n)
    | none => pure (.clip, none)

/-- Passes empty lines and indentation. `indent` is zero while it is not known; `deepest` is the
furthest column seen. A tab inside the indentation is refused. -/
def scanIndentFrom (indent : Nat) : (fuel : Nat) → (deepest : Nat) → (breaks : List Char) →
    Scan (Nat × List Char)
  | 0, deepest, breaks => pure (deepest, breaks)
  | fuel + 1, deepest, breaks => do
    need 1
    let c ← get
    skipWithin (· = ' ') (if indent = 0 then c.left else indent - c.mark.column)
    let c ← get
    let deepest := max deepest c.mark.column
    if (indent = 0 || c.mark.column < indent) && c.has (· = '\t') then fail
    else if !c.has isBreak then pure (deepest, breaks)
    else
      let text ← readBreak
      scanIndentFrom indent fuel deepest (breaks ++ text)

/-- Passes empty lines and indentation, and settles the indentation when it is not known: the
furthest column seen, but deeper than the surrounding block and at least one. -/
def scanIndent (outer : Int) (indent : Nat) : Scan (Nat × List Char) := do
  let (deepest, breaks) ← scanIndentFrom indent ((← get).left + 1) 0 []
  pure (if indent = 0 then max (max deepest (outer + 1).toNat) 1 else indent, breaks)

/-- The growing text of a block scalar, backwards: `lead` is the break behind the last line, `trail`
the empty lines behind it, and `indented` tells that the last line started with a blank. -/
structure BlockText where
  text : List Char := []
  lead : List Char := []
  trail : List Char := []
  indented : Bool := false

/-- The text of the breaks between the lines read so far and the next line, which starts with a
blank if `blank` holds. Folding turns a single break into a space, and drops the first of several;
lines that start with a blank are not folded. -/
def BlockText.joint (b : BlockText) (literal blank : Bool) : List Char :=
  match b.lead with
  | '\n' :: _ =>
    if !literal && !b.indented && !blank then (if b.trail.isEmpty then [' '] else b.trail)
    else b.lead ++ b.trail
  | lead => lead ++ b.trail

/-- Reads the lines of a block scalar. -/
def scanBlockLines (literal : Bool) (outer : Int) (indent : Nat) : (fuel : Nat) → BlockText →
    Scan BlockText
  | 0, b => pure b
  | fuel + 1, b => do
    let c ← get
    if c.mark.column = indent && !c.rest.isEmpty then
      let blank := c.has isBlank
      let line ← readWhile fun x => !isBreak x
      let text := line.reverse ++ ((b.joint literal blank).reverse ++ b.text)
      let lead ← readBreak
      let (_, trail) ← scanIndent outer indent
      scanBlockLines literal outer indent fuel ⟨text, lead, trail, blank⟩
    else pure b

/-- The first line of a block scalar behind its `|` or `>`: the marks, blanks, and a comment, whose
position is given. -/
def scanBlockHeader : Scan (Chomp × Option Nat × Option Mark) := do
  let (chomp, increment) ← scanBlockMarks
  skipWhile isBlank
  let c ← get
  let comment := if c.has (· = '#') then some c.mark else none
  if comment.isSome then skipLine
  let c ← get
  if !startsBreak c.rest then fail
  else
    if !c.rest.isEmpty then skipBreak
    pure (chomp, increment, comment)

/-- A block scalar; the cursor is on its `|` or `>`. `outer` is the indentation around it. The
position of a comment on its first line is given beside the text. -/
def scanBlock (literal : Bool) (outer : Int) : Scan (List Char × Option Mark) := do
  skip
  let (chomp, increment, comment) ← scanBlockHeader
  let indent := match increment with
    | some n => if outer ≥ 0 then outer.toNat + n else n
    | none => 0
  let (indent, trail) ← scanIndent outer indent
  need 1
  let b ← scanBlockLines literal outer indent ((← get).left + 1) { trail }
  let tail := match chomp with
    | .drop => []
    | .clip => b.lead
    | .keep => b.lead ++ b.trail
  pure (b.text.reverse ++ tail, comment)

end TreeLang.Document
