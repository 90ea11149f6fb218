import TreeLang.Document.Node
import TreeLang.Decimal.Reading

/-!
# What a scalar means

A plain scalar without a tag is read for its meaning: one of a few words, a number, a timestamp, or
else a text. A tag fixes the meaning in advance, and then the scalar must fit it. Quoted and block
scalars without a tag are texts.
-/

namespace TreeLang.Document

/-- The meaning of a scalar. Timestamps are recognised but their value is not needed. -/
inductive Meaning where
  | null
  | bool (b : Bool)
  | int (n : Int)
  | float (x : Float)
  | text (s : String)
  | timestamp
  | mergeMark
deriving Repr, Inhabited

/-- The tag of a meaning. -/
def Meaning.tag : Meaning → String
  | .null => "!!null"
  | .bool _ => "!!bool"
  | .int _ => "!!int"
  | .float _ => "!!float"
  | .text _ => "!!str"
  | .timestamp => "!!timestamp"
  | .mergeMark => "!!merge"

/-! ## Timestamps -/

/-- A number of one or two digits between `lo` and `hi`, and the rest. -/
def shortNumber? (lo hi : Nat) (s : List Char) : Option (Nat × List Char) :=
  let ds := (s.take 2).takeWhile Char.isDigit
  let n := ds.foldl (fun acc c => acc * 10 + (c.toNat - 48)) 0
  if ds.isEmpty || n < lo || n > hi then none else some (n, s.drop ds.length)

/-- The number of days in a month. -/
def daysIn (year month : Nat) : Nat :=
  match month with
  | 2 => if (year % 4 = 0 && year % 100 != 0) || year % 400 = 0 then 29 else 28
  | 4 | 6 | 9 | 11 => 30
  | _ => 31

/-- The character `c` at the front, and the rest. -/
def expect? (c : Char) : List Char → Option (List Char)
  | x :: r => if x = c then some r else none
  | [] => none

/-- A date with a year of four digits, and the rest. -/
def date? (s : List Char) : Option (List Char) := do
  let ds := s.takeWhile Char.isDigit
  if ds.length != 4 then none
  let year := ds.foldl (fun acc c => acc * 10 + (c.toNat - 48)) 0
  let r ← expect? '-' (s.drop 4)
  let (month, r) ← shortNumber? 1 12 r
  let r ← expect? '-' r
  let (day, r) ← shortNumber? 1 31 r
  if day > daysIn year month then none else some r

/-- A fraction of a second, if one is here: a point or comma and digits. -/
def skipFraction (s : List Char) : List Char :=
  match s with
  | c :: r =>
    let ds := r.takeWhile Char.isDigit
    if (c = '.' || c = ',') && !ds.isEmpty then r.drop ds.length else s
  | [] => s

/-- Hours, minutes and seconds, and the rest. -/
def clock? (s : List Char) : Option (List Char) := do
  -- The hour is one or two digits, the others one or two as well.
  let (_, r) ← shortNumber? 0 23 s
  let r ← expect? ':' r
  let (_, r) ← shortNumber? 0 59 r
  let r ← expect? ':' r
  let (_, r) ← shortNumber? 0 59 r
  some (skipFraction r)

/-- A time zone up to the end: `Z`, or a sign, two digits, a colon and two digits. -/
def isZone : List Char → Bool
  | ['Z'] => true
  | [s, a, b, ':', c, d] =>
    (s = '+' || s = '-') && a.isDigit && b.isDigit && c.isDigit && d.isDigit &&
      (a.toNat - 48) * 10 + (b.toNat - 48) ≤ 24 && (c.toNat - 48) * 10 + (d.toNat - 48) ≤ 60
  | _ => false

/-- A date alone, a date and a time with a zone, or a date, a blank and a time. -/
def isTimestamp (s : List Char) : Bool :=
  match date? s with
  | none => false
  | some [] => true
  | some (c :: r) =>
    if c = 'T' || c = 't' then (clock? r).any isZone
    else c = ' ' && (clock? (r.dropWhile (· = ' '))).any List.isEmpty

/-! ## Numbers -/

/-- Digits with an optional point and exponent, and an optional sign in front. -/
def isDecimalFloat (s : List Char) : Bool :=
  let r := match s with
    | '-' :: r => r
    | '+' :: r => r
    | r => r
  let whole := r.takeWhile Char.isDigit
  let r := r.drop whole.length
  let (point, frac, r) := match r with
    | '.' :: r =>
      let ds := r.takeWhile Char.isDigit
      (true, ds, r.drop ds.length)
    | r => (false, [], r)
  let body := if whole.isEmpty then point && !frac.isEmpty else true
  let tail := match r with
    | [] => true
    | c :: r =>
      let r := (Decimal.takeSign r).2
      (c = 'e' || c = 'E') && !r.isEmpty && r.all Char.isDigit
  body && tail

/-- A float within range. -/
def floatMeaning? (s : List Char) : Option Meaning :=
  match Decimal.readFloat? s with
  | some r => if r.inRange then some (.float r.value) else none
  | none => none

/-- An integer of 64 bits behind the mark of its base, which may carry a sign of its own. -/
def markedInt? (mark : Char) (base : Nat) (s : List Char) : Option Meaning :=
  match s with
  | '0' :: m :: r =>
    if m = mark then
      ((Decimal.readSigned? (Decimal.readNatIn? base) r).map .int).or
        ((Decimal.readUnsigned? (Decimal.readNatIn? base) r).map fun n => .int n)
    else none
  | '-' :: '0' :: m :: r =>
    if m = mark then (Decimal.readSigned? (Decimal.readNatIn? base) ('-' :: r)).map .int else none
  | _ => none

/-- The meaning of a text that starts like a number: underscores count for nothing. -/
def numberMeaning? (s : List Char) : Option Meaning :=
  let plain := s.filter (· != '_')
  ((Decimal.readSigned? Decimal.readNat? plain).map .int).or <|
  ((Decimal.readUnsigned? Decimal.readNat? plain).map fun n => .int n).or <|
  (if isDecimalFloat plain then floatMeaning? plain else none).or <|
  (markedInt? 'b' 2 plain).or (markedInt? 'o' 8 plain)

/-! ## Scalars -/

/-- The words with a meaning of their own. -/
def wordMeaning? (s : String) : Option Meaning :=
  if ["true", "True", "TRUE"].contains s then some (.bool true)
  else if ["false", "False", "FALSE"].contains s then some (.bool false)
  else if ["", "~", "null", "Null", "NULL"].contains s then some .null
  else if [".nan", ".NaN", ".NAN"].contains s then some (.float (0.0 / 0.0))
  else if [".inf", ".Inf", ".INF", "+.inf", "+.Inf", "+.INF"].contains s then
    some (.float (1.0 / 0.0))
  else if ["-.inf", "-.Inf", "-.INF"].contains s then some (.float (-(1.0 / 0.0)))
  else none

/-- The meaning of a plain text. `dated` lets it be a timestamp. -/
def plainMeaning (dated : Bool) (s : String) : Meaning :=
  match wordMeaning? s with
  | some m => m
  | none =>
    let cs := s.toList
    match cs with
    | [] => .null
    | c :: _ =>
      if c = '.' then (floatMeaning? cs).getD (.text s)
      else if c.isDigit || c = '+' || c = '-' then
        if dated && isTimestamp cs then .timestamp else (numberMeaning? cs).getD (.text s)
      else .text s

/-- The tag that a scalar shows: the one written, or that of its meaning. -/
def scalarTag (tag : Option String) (style : Style) (text : String) : String :=
  match tag with
  | some t => t
  | none =>
    if style = .plain then
      if text = "<<" then "!!merge" else (plainMeaning true text).tag
    else "!!str"

/-- The tags that fix a meaning; a scalar under any other tag is a text. -/
def meaningTags : List String := ["!!bool", "!!int", "!!float", "!!null", "!!timestamp"]

/-- The meaning of a scalar under its tag; nothing if it does not fit. A whole number fits the tag
of floats, if it fits 64 bits with sign. -/
def scalarMeaning? (tag : Option String) (style : Style) (text : String) : Option Meaning :=
  match tag with
  | none =>
    if style = .plain then
      some (if text = "<<" then .mergeMark else plainMeaning true text)
    else some (.text text)
  | some t =>
    if !meaningTags.contains t then some (.text text)
    else
      let m := plainMeaning (t == "!!timestamp") text
      if m.tag = t then some m
      else match t, m with
        | "!!float", .int n => if Decimal.fitsSigned n then some (.float (Float.ofInt n)) else none
        | _, _ => none

end TreeLang.Document
