import TreeLang.Document.Comment
import Std.Data.HashMap

/-!
# From characters to tokens

A scanner fetches tokens as they are asked for. In block style it turns changes of indentation into
start and end tokens; a key without a mark of its own is recognised only at its colon, so the
scanner remembers where a key could have started and inserts the tokens there.

A reader always looks two tokens ahead, and waits for the key that may start at the next token. So a
broken spot shows only when the reader comes near it. `Fetch.peek` is the next token, and
`Fetch.pass` steps over it.
-/

namespace TreeLang.Document

/-- A place where a key without a mark could have started. It must turn out to be a key when it is
`required`, that is, when it stands exactly at the indentation of its block. -/
structure PossibleKey where
  possible : Bool := false
  required : Bool := false
  number : Nat := 0
  mark : Mark := {}
deriving Repr, Inhabited

/-- The scanner's state. All tokens so far are kept, and the first `passed` of them are behind the
reader. `keys` has a possible key for the block level and for each flow collection that is open,
innermost last. A reader waits at a token for the key on the level that `waits` names. `comments`
are those that no token has taken over. -/
structure Scanner where
  cursor : Cursor
  started : Bool := false
  tokens : Array Token := #[]
  passed : Nat := 0
  indent : Int := -1
  indents : List Int := []
  keyAllowed : Bool := true
  keys : Array PossibleKey := #[{}]
  waits : Std.HashMap Nat Nat := ∅
  comments : List Comment := []

/-- The start of a text. -/
def Scanner.ofText (text : List Char) : Scanner := { cursor := .ofText text }

/-- A step of the scanner, which may find the text broken. -/
abbrev Fetch (α : Type) := StateT Scanner Option α

/-- The deepest nesting of flow collections, and of block collections. -/
def maxNesting : Nat := 10000

namespace Scanner

/-- The depth in flow collections. -/
def flowLevel (s : Scanner) : Nat := s.keys.size - 1

/-- The position is inside a flow collection. -/
def inFlow (s : Scanner) : Bool := s.flowLevel > 0

/-- The current position. -/
def mark (s : Scanner) : Mark := s.cursor.mark

/-- The possible key of the innermost level. -/
def key (s : Scanner) : PossibleKey := s.keys.back?.getD {}

/-- The scanner with another possible key on the innermost level. -/
def withKey (s : Scanner) (k : PossibleKey) : Scanner :=
  { s with keys := s.keys.setIfInBounds s.flowLevel k }

end Scanner

namespace Fetch

/-- The text is broken here. -/
def fail {α : Type} : Fetch α := fun _ => none

/-- Lets the cursor scan. -/
def lift {α : Type} (x : Scan α) : Fetch α := fun s =>
  (x s.cursor).map fun (a, cursor) => (a, { s with cursor })

/-! ## Keys without a mark -/

/-- Whether a key may still turn out to be one: it started on this line, at most 1024 characters
ago. A required one must not be lost. -/
def keyStands (level : Nat) : Fetch Bool := do
  let s ← get
  match s.keys[level]? with
  | none => pure false
  | some k =>
    if !k.possible then pure false
    else if k.mark.line < s.mark.line || k.mark.index + 1024 < s.mark.index then
      if k.required then fail
      else
        set { s with keys := s.keys.setIfInBounds level { k with possible := false } }
        pure false
    else pure true

/-- Gives up the possible key of this level, which fails if it is required. -/
def dropKey : Fetch Unit := do
  let s ← get
  let k := s.key
  if k.possible then
    if k.required then fail
    else set { s.withKey { k with possible := false } with waits := s.waits.erase k.number }

/-- Notes that a key may start here, if one may. -/
def saveKey : Fetch Unit := do
  if (← get).keyAllowed then
    dropKey
    modify fun s =>
      let required := !s.inFlow && s.indent == (s.mark.column : Int)
      let number := s.tokens.size
      { s.withKey ⟨true, required, number, s.mark⟩ with waits := s.waits.insert number s.flowLevel }

/-- Allows or forbids a key to start at the next token. -/
def allowKey (allowed : Bool) : Fetch Unit := modify fun s => { s with keyAllowed := allowed }

/-! ## Adding tokens -/

/-- Adds a token behind the others. -/
def push (t : Token) : Fetch Unit := modify fun s => { s with tokens := s.tokens.push t }

/-- Adds a token in front of the one with a number, unless the reader is past that. -/
def insert (number : Nat) (t : Token) : Fetch Unit := modify fun s =>
  { s with
    tokens := if number < s.passed then s.tokens.push t else s.tokens.insertIdxIfInBounds number t }

/-- Adds the token that `scan` finds at the cursor. -/
def pushScanned (scan : Scan Token.Kind) : Fetch Unit := do
  let start := (← get).mark
  let kind ← lift scan
  push ⟨kind, start, (← get).mark⟩

/-- Adds a token of `n` characters. -/
def take (n : Nat) (kind : Token.Kind) : Fetch Unit :=
  pushScanned do
    Scan.advance n
    pure kind

/-! ## Indentation -/

/-- Opens a block collection at `column` if it is deeper than the current one; its start token goes
in front of the token with the number, or behind all tokens. -/
def openBlock (column : Nat) (number : Option Nat) (kind : Token.Kind) (m : Mark) :
    Fetch Unit := do
  let s ← get
  if !s.inFlow && s.indent < (column : Int) then
    if s.indents.length ≥ maxNesting then fail
    else
      set { s with indents := s.indent :: s.indents, indent := column }
      match number with
      | some n => insert n ⟨kind, m, m⟩
      | none => push ⟨kind, m, m⟩

/-- Opens a block collection here, if it is deeper than the current one. -/
def openBlockHere (kind : Token.Kind) : Fetch Unit := do
  let m := (← get).mark
  openBlock m.column none kind m

/-- Where a block with an indentation ends: at `m`, or before that at a comment with the same
indentation, if only white space and comments lie between. `comments` are the last ones first, and
those that end before `stop` are out of reach. -/
def blockEnd (indent : Int) : (comments : List Comment) → (stop : Nat) → (m : Mark) → Mark
  | [], _, m => m
  | c :: cs, stop, m =>
    if c.stop.index < stop then m
    else
      blockEnd indent cs c.scan.index (if (c.start.column : Int) == indent + 1 then c.start else m)

/-- Closes the blocks in `indents` that are deeper than `column`. -/
def closeBlocksFrom (column : Int) : (indents : List Int) → Mark → Fetch Unit
  | [], _ => pure ()
  | outer :: rest, m => do
    let s ← get
    if s.indent > column then
      let m := blockEnd s.indent s.comments.reverse m.index m
      push ⟨.blockEnd, m, m⟩
      modify fun s => { s with indent := outer, indents := rest }
      closeBlocksFrom column rest m

/-- Closes the block collections that are deeper than `column`; the white space behind them starts
at `scan`. -/
def closeBlocks (column : Int) (scan : Mark) : Fetch Unit := do
  let s ← get
  if !s.inFlow then closeBlocksFrom column s.indents { scan with index := scan.index - 1 }

/-! ## White space and comments -/

/-- The last token, and the one before it. -/
def lastTokens : Fetch (Option Token × Option Token) := do
  let ts := (← get).tokens
  pure (ts.back?, if ts.size < 2 then none else ts[ts.size - 2]?)

/-- At the first entry of a sequence inside another token's line, a comment on that line becomes the
head of what follows. -/
def liftLineComment : Fetch Unit := do
  let s ← get
  match ← lastTokens, s.comments.getLast? with
  | (some last, some before), some c =>
    if before.kind = .blockSequenceStart && last.kind = .blockEntry && c.place = .line &&
        !s.cursor.has isBreak then
      let token := if c.start.line + 1 = s.mark.line then s.mark else c.token
      set { s with comments := s.comments.dropLast ++ [{ c with place := .head, token }] }
  | _, _ => pure ()

/-- Steps over comments and keeps them. -/
def passComments (scan : Mark) : Fetch Unit := do
  let s ← get
  match ← lastTokens with
  | (some last, before) =>
    let previous := if last.kind = .flowEntry then before.getD last else last
    let found ← lift (scanComments previous s.indent s.inFlow scan)
    modify fun s => { s with comments := s.comments ++ found }
  | (none, _) => pure ()

/-- Steps over white space and comments up to the next token. In block style a tab is refused where
a key may start, and a new line lets a key start. At the start of a line, a character is passed over
for a byte order mark. -/
def toNextToken (scan : Mark) : (fuel : Nat) → Fetch Unit
  | 0 => pure ()
  | fuel + 1 => do
    lift (Scan.need 1)
    let s ← get
    if s.mark.column = 0 && s.cursor.orderMark then lift Scan.skip
    let tabs := s.inFlow || !s.keyAllowed
    lift (Scan.skipWhile fun x => x = ' ' || (tabs && x = '\t'))
    liftLineComment
    if (← get).cursor.has (· = '#') then passComments scan
    if (← get).cursor.has isBreak then
      lift Scan.skipBreak
      if !s.inFlow then allowKey true
      toNextToken scan fuel

/-- Steps over a comment on the line of the token just read, which started at `token`, and keeps it.
The mark of a sequence entry has no comments of its own. -/
def passLineComment (token : Mark) : Fetch Unit := do
  let (last, _) ← lastTokens
  if last.map (·.kind) != some .blockEntry then
    match ← lift (scanLineComment token) with
    | some c => modify fun s => { s with comments := s.comments ++ [c] }
    | none => pure ()

/-! ## One token -/

/-- The end of the text closes all blocks. It counts as the start of a new line. -/
def fetchEnd : Fetch Unit := do
  modify fun s =>
    let m := s.mark
    let m := if m.column = 0 then m else ⟨m.index, m.line + 1, 0⟩
    { s with cursor := { s.cursor with mark := m } }
  closeBlocks (-1) (← get).mark
  dropKey
  allowKey false
  take 0 .streamEnd

/-- A line that stands outside of all blocks. -/
def fetchOutside (scan : Scan Token.Kind) : Fetch Unit := do
  closeBlocks (-1) (← get).mark
  dropKey
  allowKey false
  pushScanned scan

/-- The mark between documents, `---` or `...`. -/
def fetchMarker (kind : Token.Kind) : Fetch Unit :=
  fetchOutside do
    Scan.advance 3
    pure kind

/-- An opening bracket. -/
def fetchOpen (kind : Token.Kind) : Fetch Unit := do
  saveKey
  modify fun s => { s with keys := s.keys.push ⟨false, false, s.tokens.size, s.mark⟩ }
  if (← get).flowLevel > maxNesting then fail
  else
    allowKey true
    take 1 kind

/-- A closing bracket. Nobody waits any longer for the last key of its level. -/
def fetchClose (kind : Token.Kind) : Fetch Unit := do
  dropKey
  modify fun s =>
    if s.inFlow then { s with keys := s.keys.pop, waits := s.waits.erase s.key.number } else s
  allowKey false
  take 1 kind

/-- The comma of a flow collection. -/
def fetchFlowEntry : Fetch Unit := do
  dropKey
  allowKey true
  take 1 .flowEntry

/-- Opens a block for an indicator that needs one in block style. -/
def openFor (kind : Token.Kind) : Fetch Unit := do
  let s ← get
  if !s.inFlow then
    if s.keyAllowed then openBlockHere kind else fail

/-- The `-` of a block sequence. -/
def fetchBlockEntry : Fetch Unit := do
  openFor .blockSequenceStart
  dropKey
  allowKey true
  take 1 .blockEntry

/-- The `?` in front of a key. -/
def fetchKey : Fetch Unit := do
  openFor .blockMappingStart
  dropKey
  allowKey (!(← get).inFlow)
  take 1 .key

/-- The `:` in front of a value. If a key may have started before it, that was one. -/
def fetchValue : Fetch Unit := do
  if ← keyStands (← get).flowLevel then
    let k := (← get).key
    insert k.number ⟨.key, k.mark, k.mark⟩
    openBlock k.mark.column (some k.number) .blockMappingStart k.mark
    modify fun s =>
      { s.withKey { k with possible := false } with
        waits := s.waits.erase k.number, keyAllowed := false }
  else
    openFor .blockMappingStart
    allowKey (!(← get).inFlow)
  take 1 .value

/-- A token in front of which a key may start. -/
def fetchContent (scan : Scan Token.Kind) : Fetch Unit := do
  saveKey
  allowKey false
  pushScanned scan

/-- A scalar without quotes. -/
def fetchPlain : Fetch Unit := do
  saveKey
  let s ← get
  let p ← lift (scanPlain s.inFlow s.indent)
  allowKey p.gap.broken
  push ⟨.scalar (String.ofList p.text.reverse) .plain, s.mark, p.stop⟩

/-- A scalar behind `|` or `>`. -/
def fetchBlockScalar (literal : Bool) : Fetch Unit := do
  dropKey
  allowKey true
  let s ← get
  let (text, comment) ← lift (scanBlock literal s.indent)
  match comment with
  | some start =>
    modify fun t => { t with comments := t.comments ++ [⟨.line, {}, s.mark, start, {}⟩] }
  | none => pure ()
  push ⟨.scalar (String.ofList text) .block, s.mark, (← get).mark⟩

/-- A plain scalar may start here. -/
def startsPlain (inFlow : Bool) : List Char → Bool
  | [] => false
  | x :: r =>
    if isBlank x || isBreak x then false
    else if x = '-' then !(r.head?.any isBlank)
    else if x = '?' || x = ':' then !inFlow && !startsBlank r
    else !(",[]\x7b\x7d#&*!|>'\"%@`".toList.contains x)

/-- The token at the cursor, which is on `x` with `r` behind it. -/
def fetchAt (x : Char) (r : List Char) : Fetch Unit := do
  let inFlow := (← get).inFlow
  if x = '[' then fetchOpen .flowSequenceStart
  else if x = '\x7b' then fetchOpen .flowMappingStart
  else if x = ']' then fetchClose .flowSequenceEnd
  else if x = '\x7d' then fetchClose .flowMappingEnd
  else if x = ',' then fetchFlowEntry
  else if x = '-' && startsBlank r then fetchBlockEntry
  else if x = '?' && (inFlow || startsBlank r) then fetchKey
  else if x = ':' && (inFlow || startsBlank r) then fetchValue
  else if x = '*' then fetchContent (Token.Kind.alias <$> scanName)
  else if x = '&' then fetchContent (Token.Kind.anchor <$> scanName)
  else if x = '!' then fetchContent scanTag
  else if (x = '|' || x = '>') && !inFlow then fetchBlockScalar (x = '|')
  else if x = '\'' || x = '"' then
    fetchContent do
      let text ← scanQuoted (x = '"')
      pure (.scalar (String.ofList text) .quoted)
  else if startsPlain inFlow (x :: r) then fetchPlain
  else fail

/-- The position to which a comment on the line of the next token belongs: that of the token, but
for a colon in block style and a comma in flow style that of the token before it. -/
def commentAnchor (x : Char) : Fetch Mark := do
  let s ← get
  if x = if s.inFlow then ',' else ':' then
    pure ((s.tokens.back?.map (·.start)).getD s.mark)
  else pure s.mark

/-- Adds the next token, and the block tokens that its column calls for. -/
def fetch : Fetch Unit := do
  lift (Scan.need 1)
  let s ← get
  if !s.started then
    set { s with started := true }
    take 0 .streamStart
  else
    let scan := s.mark
    toNextToken scan (s.cursor.left + 1)
    closeBlocks (← get).mark.column scan
    lift (Scan.need 4)
    let c := (← get).cursor
    match c.rest with
    | [] => fetchEnd
    | x :: r =>
      if c.mark.column = 0 && x = '%' then fetchOutside scanDirective
      else if c.mark.column = 0 && startsMarker (x :: r) then
        fetchMarker (if x = '-' then .documentStart else .documentEnd)
      else
        let anchor ← commentAnchor x
        fetchAt x r
        passLineComment anchor

/-! ## The reader's side -/

/-- Fetches tokens until the reader may look at the next one: two more must be there, and no key may
still turn out to start at it. -/
def fetchMore : (fuel : Nat) → Fetch Unit
  | 0 => fail
  | fuel + 1 => do
    let s ← get
    if s.tokens.size ≤ s.passed + 2 then
      fetch
      fetchMore fuel
    else
      match s.waits[s.passed]? with
      | none => pure ()
      | some level =>
        if ← keyStands level then
          fetch
          fetchMore fuel

/-- The comments that a token does not take over. The end of a block has no head. -/
def notTaken (t : Token) : List Comment → List Comment
  | [] => []
  | c :: cs =>
    if c.token.index ≤ t.start.index && !(c.place = .head && t.kind = .blockEnd) then notTaken t cs
    else c :: cs

/-- The next token. -/
def peek : Fetch Token := do
  let s ← get
  fetchMore (s.cursor.left + 8)
  let s ← get
  match s.tokens[s.passed]? with
  | some t =>
    set { s with comments := notTaken t s.comments }
    pure t
  | none => fail

/-- Steps over the next token. -/
def pass : Fetch Unit := modify fun s => { s with passed := s.passed + 1 }

end Fetch

end TreeLang.Document
