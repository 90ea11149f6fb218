import TreeLang.Text.Quoted

/-!
# Texts as octets

Octets need not be those of a text. They are read as characters as far as that goes, each in its
shortest form; an octet that belongs to no character stands alone, and the next one is tried. So
`ofText` is undone by `text`, and everything else reads with replacement marks.
-/

namespace TreeLang.Text

/-- Octets, of which each is a number below 256. -/
abbrev Octets := List Nat

namespace Octets

/-- The octets of a character. -/
def ofChar (c : Char) : Octets :=
  let n := c.toNat
  if n < 0x80 then [n]
  else if n < 0x800 then [0xC0 + n / 64, 0x80 + n % 64]
  else if n < 0x10000 then [0xE0 + n / 4096, 0x80 + n / 64 % 64, 0x80 + n % 64]
  else [0xF0 + n / 262144, 0x80 + n / 4096 % 64, 0x80 + n / 64 % 64, 0x80 + n % 64]

/-- The octets of a text. -/
def ofText (s : String) : Octets := s.toList.flatMap ofChar

/-- The number of octets of a character that starts with `lead`, judged by its upper bits. -/
def width? (lead : Nat) : Option Nat :=
  if lead < 0x80 then some 1
  else if lead / 32 = 6 then some 2
  else if lead / 16 = 14 then some 3
  else if lead / 8 = 30 then some 4
  else none

/-- An octet that continues a character. -/
def isTail (octet : Nat) : Bool := octet / 64 = 2

/-- The bits of a character that are in its first octet. -/
def leadBits (width lead : Nat) : Nat :=
  match width with
  | 1 => lead
  | 2 => lead % 32
  | 3 => lead % 16
  | _ => lead % 8

/-- The character at the front, in its shortest form, and the number of its octets. -/
def front? : Octets → Option (Char × Nat)
  | [] => none
  | lead :: rest => do
    let width ← width? lead
    let tail := rest.take (width - 1)
    let n := tail.foldl (fun n octet => n * 64 + octet % 64) (leadBits width lead)
    let c := Char.ofNat n
    if ofChar c = lead :: tail then some (c, width) else none

/-- A part of octets: a character, or an octet that belongs to none. -/
inductive Part where
  | char (c : Char)
  | stray (octet : Nat)
deriving DecidableEq, Repr

/-- The parts of octets behind the first `skip` ones. -/
def partsFrom : (skip : Nat) → Octets → List Part
  | _, [] => []
  | skip + 1, _ :: rest => partsFrom skip rest
  | 0, octet :: rest =>
    match front? (octet :: rest) with
    | some (c, width) => .char c :: partsFrom (width - 1) rest
    | none => .stray octet :: partsFrom 0 rest

/-- The parts of octets. -/
def parts (os : Octets) : List Part := partsFrom 0 os

/-- What stands for an octet that belongs to no character. -/
def replacement : Char := '\ufffd'

/-- Octets as a text, with a replacement mark for each octet that belongs to no character. -/
def text (os : Octets) : String :=
  String.ofList (os.parts.map fun
    | .char c => c
    | .stray _ => replacement)

/-- The octets are those of a text. -/
def isText (os : Octets) : Bool :=
  os.parts.all fun
    | .char _ => true
    | .stray _ => false

/-- Octets between double quotes, with escapes; an octet that belongs to no character is written by
its two digits. -/
def quoted (os : Octets) : String :=
  String.ofList ('"' :: os.parts.flatMap (fun
    | .char c => quotedChar c
    | .stray octet => '\\' :: 'x' :: hexDigits 2 octet) ++ ['"'])

end Octets

end TreeLang.Text
