import TreeLang.Decimal.Binary

/-!
# Spans of time

A span is a number of nanoseconds within 64 bits with sign. It is written as a sum of numbers with
units, `1h30m0.5s`, and read from such sums; a number may have a fraction, and the units may come in
any order.
-/

namespace TreeLang.Duration

/-- The nanoseconds in a unit. The micro sign has two spellings. -/
def unit? (name : String) : Option Nat :=
  match name with
  | "ns" => some 1
  | "us" | "\u00b5s" | "\u03bcs" => some 1000
  | "ms" => some 1000000
  | "s" => some 1000000000
  | "m" => some 60000000000
  | "h" => some 3600000000000
  | _ => none

/-! ## Reading -/

/-- The least number that needs 64 bits. -/
def limit : Nat := Nat.pow 2 63

/-- A character of a number, not of a unit. -/
def isNumeral (c : Char) : Bool := c = '.' || c.isDigit

/-- The digits of a fraction as a number and the power of ten below it. Digits that no longer fit
63 bits are passed over. -/
def fraction (digits : List Char) : Nat × Float :=
  (digits.foldl (fun (acc : (Nat × Float) × Bool) c =>
    let ((x, scale), full) := acc
    let y := x * 10 + (c.toNat - 48)
    if full || x > (limit - 1) / 10 || y > limit then ((x, scale), true)
    else ((y, scale * 10), false)) ((0, 1), false)).1

/-- `whole` and a fraction of a unit in nanoseconds, cut to a whole number; nothing beyond 2^63. -/
def scaled? (whole : Nat) (digits : List Char) (unit : Nat) : Option Nat :=
  let (f, scale) := fraction digits
  let part := if f = 0 then 0 else (Float.ofNat f * (Float.ofNat unit / scale)).toUInt64.toNat
  if whole > limit / unit || whole * unit + part > limit then none
  else some (whole * unit + part)

/-- One number with its unit, and the rest. -/
def term? (s : List Char) : Option (Nat × List Char) :=
  let whole := s.takeWhile Char.isDigit
  let r := s.drop whole.length
  let (digits, r) := match r with
    | '.' :: r => (r.takeWhile Char.isDigit, r.dropWhile Char.isDigit)
    | r => ([], r)
  let name := r.takeWhile (!isNumeral ·)
  let value := whole.foldl (fun acc c => acc * 10 + (c.toNat - 48)) 0
  if (whole.isEmpty && digits.isEmpty) || value > limit then none
  else match unit? (String.ofList name) with
    | none => none
    | some unit => (scaled? value digits unit).map fun n => (n, r.drop name.length)

/-- The sum of all terms; at most `fuel` of them. -/
def terms? : (fuel : Nat) → (sum : Nat) → List Char → Option Nat
  | _, sum, [] => some sum
  | 0, _, _ :: _ => none
  | fuel + 1, sum, c :: s =>
    match term? (c :: s) with
    | some (n, r) => if sum + n > limit then none else terms? fuel (sum + n) r
    | none => none

/-- Reads a span: an optional sign and terms, or a bare zero. -/
def read? (text : String) : Option Int :=
  let (negative, s) := match text.toList with
    | '-' :: r => (true, r)
    | '+' :: r => (false, r)
    | r => (false, r)
  if s = ['0'] then some 0
  else if s.isEmpty then none
  else match terms? s.length 0 s with
    | none => none
    | some n => if negative then some (-(n : Int)) else if n < limit then some (n : Int) else none

/-! ## Writing -/

/-- `n` in units of `10^places`, with the fraction's last zeros left out. -/
def pointed (n places : Nat) : String :=
  let digits := (Nat.toDigits 10 (Nat.pow 10 places + n % Nat.pow 10 places)).drop 1
  let kept := (digits.reverse.dropWhile (· = '0')).reverse
  toString (n / Nat.pow 10 places) ++ (if kept.isEmpty then "" else "." ++ String.ofList kept)

/-- A span that is not negative: below a second in the largest unit that fits, else in seconds with
minutes and hours in front where there are any. -/
def magnitudeText (n : Nat) : String :=
  if n = 0 then "0s"
  else if n < 1000 then toString n ++ "ns"
  else if n < 1000000 then pointed n 3 ++ "\u00b5s"
  else if n < 1000000000 then pointed n 6 ++ "ms"
  else
    let minutes := n / 60000000000
    let seconds := pointed (n % 60000000000) 9 ++ "s"
    if minutes = 0 then seconds
    else if minutes < 60 then toString minutes ++ "m" ++ seconds
    else toString (minutes / 60) ++ "h" ++ toString (minutes % 60) ++ "m" ++ seconds

/-- The written form of a span. -/
def text (n : Int) : String :=
  if n < 0 then "-" ++ magnitudeText n.natAbs else magnitudeText n.natAbs

end TreeLang.Duration
