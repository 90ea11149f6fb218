import TreeLang.Document.Scalar
import TreeLang.Text.Octets

/-!
# Scanning directives, tags and anchors

The forms that stand in front of a document or of a node. A tag address may hold octets behind
percent signs, which have to make up characters.
-/

namespace TreeLang.Document

open Scan

/-! ## Tag addresses -/

/-- A character of a tag address. -/
def isUriChar (c : Char) : Bool := isWordChar c || ";/?:@&=+$,.!~*'()[]%".toList.contains c

/-- One octet behind a percent sign. -/
def scanUriOctet : Scan Nat := do
  need 3
  match (← get).rest with
  | '%' :: a :: b :: _ =>
    match hexValue? a, hexValue? b with
    | some x, some y =>
      advance 3
      pure (16 * x + y)
    | _, _ => fail
  | _ => fail

/-- `n` octets that continue a character. -/
def scanUriTail : (n : Nat) → Scan (List Nat)
  | 0 => pure []
  | n + 1 => do
    let octet ← scanUriOctet
    if Text.Octets.isTail octet then pure (octet :: (← scanUriTail n)) else fail

/-- The octets of one character, each behind a percent sign. -/
def scanUriEscape : Scan (List Char) := do
  let lead ← scanUriOctet
  match Text.Octets.width? lead with
  | some width =>
    let tail ← scanUriTail (width - 1)
    pure (Text.Octets.text (lead :: tail)).toList
  | none => fail

/-- Reads a tag address; `text` is what has been read, backwards. -/
def scanUriFrom : (fuel : Nat) → (text : List Char) → Scan (List Char)
  | 0, text => pure text.reverse
  | fuel + 1, text => do
    match (← get).rest with
    | [] => pure text.reverse
    | x :: _ =>
      if !isUriChar x then pure text.reverse
      else if x = '%' then
        let cs ← scanUriEscape
        need 1
        scanUriFrom fuel (cs.reverse ++ text)
      else
        step
        scanUriFrom fuel (x :: text)

/-- A tag address that continues `head`, or stands alone when `head` is absent. -/
def scanUri (head : Option String) : Scan String := do
  need 1
  let start ← get
  let text ← scanUriFrom (start.left + 1) []
  if head.isNone && (← mark) = start.mark then fail
  else pure (((head.getD "").drop 1).toString ++ String.ofList text)

/-! ## Tags and names -/

/-- A tag handle: `!`, `!!` or `!name!`; without the closing mark it may be the start of a tag. -/
def scanHandle : Scan String := do
  need 1
  if ← sees (· = '!') then
    skip
    let name ← readWhile isWordChar
    if ← sees (· = '!') then
      skip
      pure (String.ofList ('!' :: name ++ ['!']))
    else pure (String.ofList ('!' :: name))
  else fail

/-- The handle has a closing mark. -/
def isClosedHandle (handle : String) : Bool := handle.length > 1 && handle.endsWith "!"

/-- A tag: `!<address>`, `!handle!suffix`, `!suffix` or a lone `!`. -/
def scanTag : Scan Token.Kind := do
  need 2
  let kind ←
    if ((← get).rest.drop 1).head? == some '<' then
      advance 2
      let suffix ← scanUri none
      if ← sees (· = '>') then
        skip
        pure (Token.Kind.tag "" suffix)
      else fail
    else
      let handle ← scanHandle
      if isClosedHandle handle then
        let suffix ← scanUri none
        pure (Token.Kind.tag handle suffix)
      else
        let suffix ← scanUri (some handle)
        pure (if suffix.isEmpty then Token.Kind.tag "" "!" else Token.Kind.tag "!" suffix)
  need 1
  if startsBlank (← get).rest then pure kind else fail

/-- A name behind `&` or `*`. -/
def scanName : Scan String := do
  skip
  let name ← readWhile isWordChar
  let c ← get
  if !name.isEmpty && (startsBlank c.rest || c.has ("?:,]\x7d%@`".toList.contains ·)) then
    pure (String.ofList name)
  else fail

/-! ## Directives -/

/-- A decimal number of at most two digits. -/
def scanVersionPart : Scan Nat := do
  let digits ← readWhile Char.isDigit
  if digits.isEmpty || digits.length > 2 then fail
  else pure (digits.foldl (fun n d => n * 10 + (d.toNat - 48)) 0)

/-- The version of the format. -/
def scanVersion : Scan Token.Kind := do
  let major ← scanVersionPart
  if ← sees (· = '.') then
    skip
    let minor ← scanVersionPart
    pure (.version major minor)
  else fail

/-- A tag handle and what it stands for. -/
def scanTagHandle : Scan Token.Kind := do
  let handle ← scanHandle
  if handle != "!" && !isClosedHandle handle then fail
  else if !(← sees isBlank) then fail
  else
    skipWhile isBlank
    let uri ← scanUri none
    need 1
    if startsBlank (← get).rest then pure (.tagHandle handle uri) else fail

/-- A line that starts with `%`: the version of the format, or a tag handle. -/
def scanDirective : Scan Token.Kind := do
  skip
  let name ← readWhile isWordChar
  if name.isEmpty || !startsBlank (← get).rest then fail
  else
    skipWhile isBlank
    let kind ← match String.ofList name with
      | "YAML" => scanVersion
      | "TAG" => scanTagHandle
      | _ => fail
    skipWhile isBlank
    if ← sees (· = '#') then skipLine
    let c ← get
    if !startsBreak c.rest then fail
    else
      if !c.rest.isEmpty then skipBreak
      pure kind

end TreeLang.Document
