import TreeLang.Text.Printable

/-!
# Quoted text

The written form of a text between double quotes. Printable characters stand for themselves; the
quote and the backslash take a backslash in front; seven control characters have a letter of their
own; the rest is written by code point in two, four or eight lower-case hexadecimal digits.
-/

namespace TreeLang.Text

/-- The last `width` hexadecimal digits of `n`, lower case, zeros in front. -/
def hexDigits : (width : Nat) → (n : Nat) → List Char
  | 0, _ => []
  | w + 1, n => hexDigits w (n / 16) ++ [Nat.digitChar (n % 16)]

/-- The written form of a character that is not shown as itself. -/
def escapedChar (c : Char) : List Char :=
  match c.toNat with
  | 7 => ['\\', 'a']
  | 8 => ['\\', 'b']
  | 9 => ['\\', 't']
  | 10 => ['\\', 'n']
  | 11 => ['\\', 'v']
  | 12 => ['\\', 'f']
  | 13 => ['\\', 'r']
  | n =>
    if n < 0x20 || n == 0x7F then '\\' :: 'x' :: hexDigits 2 n
    else if n < 0x10000 then '\\' :: 'u' :: hexDigits 4 n
    else '\\' :: 'U' :: hexDigits 8 n

/-- The written form of one character inside quotes. -/
def quotedChar (c : Char) : List Char :=
  if c = '"' then ['\\', '"']
  else if c = '\\' then ['\\', '\\']
  else if isPrintable c then [c]
  else escapedChar c

/-- The text between double quotes, with escapes. -/
def quoted (s : String) : String :=
  String.ofList ('"' :: s.toList.flatMap quotedChar ++ ['"'])

/-- The text between double quotes, with escapes for all that is not ASCII. -/
def quotedAscii (s : String) : String :=
  let char (c : Char) : List Char := if c.toNat < 0x80 then quotedChar c else escapedChar c
  String.ofList ('"' :: s.toList.flatMap char ++ ['"'])

/-- The text can stand between backquotes: it has no backquote, no control character but tabs, and
no byte order mark. -/
def fitsBackquotes (s : String) : Bool :=
  s.toList.all fun c =>
    c ≠ '\x60' && (c = '\t' || c.toNat ≥ 0x20) && c.toNat ≠ 0x7F && c.toNat ≠ 0xFEFF

end TreeLang.Text
