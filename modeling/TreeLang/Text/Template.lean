import TreeLang.Text.Octets

/-!
# Message templates

A template is a text with directives, which show texts that are given as arguments. A directive is a
percent sign, flags, a width, a precision behind a point, and a letter:

* `s` and `v` show the argument as it is, `q` between quotes, `x` and `X` by its octets, `T` what
  kind of argument it is, and a second percent sign shows a percent sign and takes no argument;
* `-` fills up on the right, `0` with zeros on the left, `#` asks for another form, `+` for ASCII,
  and a blank puts octets apart.

A number in brackets in front of the width, the precision or the letter says which argument is
meant; else it is the next one. A star takes a width or precision from an argument, which no text
can give. What is wrong with a directive shows in the result, and so do arguments left over.
-/

namespace TreeLang.Text

/-! ## Showing one argument -/

/-- The flags, the width and the precision of a directive. -/
structure Layout where
  sharp : Bool := false
  zeros : Bool := false
  plus : Bool := false
  left : Bool := false
  blank : Bool := false
  width : Option Nat := none
  precision : Option Nat := none
deriving DecidableEq, Repr

namespace Layout

/-- The layout with a flag set, if the character is one. -/
def flag? (l : Layout) : Char → Option Layout
  | '#' => some { l with sharp := true }
  | '0' => some { l with zeros := true }
  | '+' => some { l with plus := true }
  | '-' => some { l with left := true }
  | ' ' => some { l with blank := true }
  | _ => none

/-- Reads flags. -/
def flags (l : Layout) : List Char → Layout × List Char
  | [] => (l, [])
  | c :: r =>
    match l.flag? c with
    | some l => l.flags r
    | none => (l, c :: r)

/-- Fills up to the width. -/
def pad (l : Layout) (s : String) : String :=
  let room := l.width.getD 0 - s.length
  if l.left then s ++ String.ofList (List.replicate room ' ')
  else String.ofList (List.replicate room (if l.zeros then '0' else ' ')) ++ s

/-- Cuts to the precision. -/
def cut (l : Layout) (s : String) : String :=
  match l.precision with
  | some n => (s.take n).toString
  | none => s

/-- The argument as it is. -/
def plain (l : Layout) (s : String) : String := l.pad (l.cut s)

/-- The argument between quotes. -/
def quote (l : Layout) (s : String) : String :=
  let s := l.cut s
  l.pad <|
    if l.sharp && fitsBackquotes s then "\x60" ++ s ++ "\x60"
    else if l.plus then quotedAscii s
    else quoted s

/-- The argument as it is, or between quotes if another form is asked for. -/
def value (l : Layout) (s : String) : String :=
  if l.sharp then { l with sharp := false, plus := false }.quote s else l.plain s

/-- The argument by its octets, which the precision counts. -/
def hex (l : Layout) (upper : Bool) (s : String) : String :=
  let octets := match l.precision with
    | some n => (Octets.ofText s).take n
    | none => Octets.ofText s
  let shown := octets.map fun o => String.ofList (hexDigits 2 o)
  let mark := if l.sharp && !shown.isEmpty then "0x" else ""
  let joined := mark ++ String.intercalate (if l.blank then " " ++ mark else "") shown
  l.pad (if upper then joined.map Char.toUpper else joined)

/-- The argument under a letter; an unknown letter shows beside it. -/
def shown (l : Layout) (letter : Char) (s : String) : String :=
  match letter with
  | 's' => l.plain s
  | 'v' => l.value s
  | 'q' => l.quote s
  | 'x' => l.hex false s
  | 'X' => l.hex true s
  | 'T' => l.plain "string"
  | 'w' => "%!w(string=" ++ l.value s ++ ")"
  | c => "%!" ++ c.toString ++ "(string=" ++ l.plain s ++ ")"

end Layout

/-! ## Filling a template -/

/-- A filling: the unread rest of the template, the number of the next argument, whether arguments
have been chosen by number, whether the choices of the current directive are good, and the text so
far. -/
structure Filling where
  rest : List Char
  next : Nat := 0
  chosen : Bool := false
  good : Bool := true
  text : String := ""

/-- A step of a filling. -/
abbrev Fill := StateM Filling

/-- The number at the front and the rest. A number that grows too large takes all of the rest and
gives nothing. -/
def leadingNumberFrom : (read : Option Nat) → List Char → Option Nat × List Char
  | read, [] => (read, [])
  | read, c :: r =>
    if c.isDigit then
      if read.getD 0 > 1000000 then (none, [])
      else leadingNumberFrom (some (read.getD 0 * 10 + (c.toNat - 48))) r
    else (read, c :: r)

/-- The number at the front, if there is one, and the rest. -/
def leadingNumber (cs : List Char) : Option Nat × List Char := leadingNumberFrom none cs

/-- The number up to a closing bracket, and the rest behind it. Without a bracket the rest is all;
so it is if nothing but a bracket is left. -/
def bracketedNumber (cs : List Char) : Option Nat × List Char :=
  let inside := cs.takeWhile (· ≠ ']')
  match cs.drop inside.length with
  | [] => (none, cs)
  | _ :: after =>
    if cs.length = 1 then (none, cs)
    else match leadingNumber inside with
      | (some n, []) => (some n, after)
      | _ => (none, after)

namespace Fill

/-- Adds to the text. -/
def add (s : String) : Fill Unit := modify fun f => { f with text := f.text ++ s }

/-- Steps over the next character if it is `c`, and tells whether it was. -/
def passes (c : Char) : Fill Bool := do
  let f ← get
  match f.rest with
  | x :: r =>
    if x = c then
      set { f with rest := r }
      pure true
    else pure false
  | [] => pure false

/-- Reads a number in brackets, if one is here, and goes to that argument of `count` ones. Tells
whether a number was there. -/
def choose (count : Nat) : Fill Bool := do
  if ← passes '[' then
    let f ← get
    let (n, rest) := bracketedNumber f.rest
    let f := { f with rest, chosen := true }
    match n with
    | some (n + 1) => set (if n < count then { f with next := n } else { f with good := false })
    | _ => set { f with good := false }
    pure n.isSome
  else pure false

/-- Reads a number. -/
def number : Fill (Option Nat) := do
  let f ← get
  let (n, rest) := leadingNumber f.rest
  set { f with rest }
  pure n

/-- Passes over the argument that a star refers to, which is no number. -/
def star (count : Nat) (refusal : String) : Fill Unit := do
  modify fun f => { f with next := if f.next < count then f.next + 1 else f.next }
  add refusal

/-- The choice before was for this number, which is not good. -/
def refuseChoice (chosen : Bool) : Fill Unit := do
  if chosen then modify fun f => { f with good := false }

/-- Reads a width. `chosen` tells that an argument has been chosen right before; the answer, that
one has been chosen for what follows. -/
def width (count : Nat) (chosen : Bool) (l : Layout) : Fill (Layout × Bool) := do
  if ← passes '*' then
    star count "%!(BADWIDTH)"
    pure (l, false)
  else
    let n ← number
    refuseChoice (chosen && n.isSome)
    pure ({ l with width := n }, chosen)

/-- Reads a precision, if a point is here. -/
def precision (count : Nat) (chosen : Bool) (l : Layout) : Fill (Layout × Bool) := do
  if ← passes '.' then
    refuseChoice chosen
    let chosen ← choose count
    if ← passes '*' then
      star count "%!(BADPREC)"
      pure (l, false)
    else
      pure ({ l with precision := some ((← number).getD 0) }, chosen)
  else pure (l, chosen)

/-- Reads the letter of a directive and shows the argument. -/
def letter (args : List String) (l : Layout) : Fill Unit := do
  let f ← get
  match f.rest with
  | [] => add "%!(NOVERB)"
  | c :: rest =>
    set { f with rest }
    if c = '%' then add "%"
    else if !f.good then add ("%!" ++ c.toString ++ "(BADINDEX)")
    else match args[f.next]? with
      | none => add ("%!" ++ c.toString ++ "(MISSING)")
      | some a =>
        add (l.shown c a)
        modify fun f => { f with next := f.next + 1 }

/-- Reads one directive behind its percent sign. -/
def directive (args : List String) : Fill Unit := do
  let f ← get
  let (l, rest) := ({} : Layout).flags f.rest
  set { f with rest, good := true }
  let chosen ← choose args.length
  let (l, chosen) ← width args.length chosen l
  let (l, chosen) ← precision args.length chosen l
  if !chosen then let _ ← choose args.length
  letter args l

/-- Fills from here on; `fuel` bounds the number of directives. -/
def directives (args : List String) : (fuel : Nat) → Fill Unit
  | 0 => pure ()
  | fuel + 1 => do
    let f ← get
    let text := f.rest.takeWhile (· ≠ '%')
    set { f with rest := f.rest.drop (text.length + 1), text := f.text ++ String.ofList text }
    if text.length < f.rest.length then
      directive args
      directives args fuel

end Fill

/-- Arguments that no directive took. -/
def leftover : List String → String
  | [] => ""
  | args => "%!(EXTRA " ++ String.intercalate ", " (args.map ("string=" ++ ·)) ++ ")"

/-- Fills a template with arguments. -/
def fill (template : String) (args : List String) : String :=
  let rest := template.toList
  let f := (Fill.directives args (rest.length + 1) { rest }).2
  f.text ++ (if f.chosen then "" else leftover (args.drop f.next))

end TreeLang.Text
