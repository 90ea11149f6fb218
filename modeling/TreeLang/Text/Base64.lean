import TreeLang.Text.Octets

/-!
# Texts in base 64

Four characters of the alphabet stand for three octets. The last group may be filled up with one or
two equals signs and then stands for two octets or one. Line ends count for nothing.
-/

namespace TreeLang.Text.Base64

/-- The six bits that a character of the alphabet stands for. -/
def sextet? (c : Char) : Option Nat :=
  if 'A' ≤ c && c ≤ 'Z' then some (c.toNat - 65)
  else if 'a' ≤ c && c ≤ 'z' then some (c.toNat - 97 + 26)
  else if '0' ≤ c && c ≤ '9' then some (c.toNat - 48 + 52)
  else if c = '+' then some 62
  else if c = '/' then some 63
  else none

/-- The three octets of four times six bits. -/
def octets (a b c d : Nat) : Octets :=
  [a * 4 + b / 16, b % 16 * 16 + c / 4, c % 4 * 64 + d]

/-- The octets of groups of four characters without line ends. Signs that fill up a group end the
text. -/
def groups? : List Char → Option Octets
  | [] => some []
  | [a, b, '=', '='] => do
    let x ← sextet? a
    let y ← sextet? b
    some ((octets x y 0 0).take 1)
  | [a, b, c, '='] => do
    let x ← sextet? a
    let y ← sextet? b
    let z ← sextet? c
    some ((octets x y z 0).take 2)
  | a :: b :: c :: d :: rest => do
    let x ← sextet? a
    let y ← sextet? b
    let z ← sextet? c
    let w ← sextet? d
    (groups? rest).map (octets x y z w ++ ·)
  | _ => none

/-- The octets that a text stands for. -/
def decode? (s : String) : Option Octets :=
  groups? (s.toList.filter fun c => c ≠ '\n' && c ≠ '\r')

end TreeLang.Text.Base64
