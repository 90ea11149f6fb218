import TreeLang.Decimal.Binary

/-!
# Reading numbers

Texts of floats and of integers. A float is decimal or, after `0x`, hexadecimal with a binary
exponent; it is rounded to the nearest value, a half to the even one. An integer of unknown base
shows it by `0b`, `0o`, `0x` or a leading zero. Underscores may stand between digits.
-/

namespace TreeLang.Decimal

/-- The value of a digit in bases up to 36. -/
def digitValue? (c : Char) : Option Nat :=
  if '0' ≤ c && c ≤ '9' then some (c.toNat - 48)
  else if 'a' ≤ c && c ≤ 'z' then some (c.toNat - 87)
  else if 'A' ≤ c && c ≤ 'Z' then some (c.toNat - 55)
  else none

/-- The sign in front of a number, true for minus, and the rest. -/
def takeSign : List Char → Bool × List Char
  | '-' :: r => (true, r)
  | '+' :: r => (false, r)
  | r => (false, r)

/-! ## Underscores -/

/-- What stood before a character, for the rule on underscores. -/
inductive Before where
  | start
  | digit
  | underscore
  | other
deriving DecidableEq, Repr

/-- Every underscore has a digit on both sides. -/
def underscoresFit (hex : Bool) : Before → List Char → Bool
  | before, [] => before != .underscore
  | before, c :: r =>
    if c.isDigit || (hex && (hexLetter c)) then underscoresFit hex .digit r
    else if c = '_' then before == .digit && underscoresFit hex .underscore r
    else before != .underscore && underscoresFit hex .other r
where
  /-- A hexadecimal digit that is a letter. -/
  hexLetter (c : Char) : Bool := ('a' ≤ c && c ≤ 'f') || ('A' ≤ c && c ≤ 'F')

/-- Every underscore in the text of a number separates digits; the mark of a base counts as one. -/
def underscoresAllowed (s : List Char) : Bool :=
  match (takeSign s).2 with
  | '0' :: b :: r =>
    if b.toLower = 'x' then underscoresFit true .digit r
    else if b.toLower = 'b' || b.toLower = 'o' then underscoresFit false .digit r
    else underscoresFit false .start ('0' :: b :: r)
  | r => underscoresFit false .start r

/-! ## Floats -/

/-- A float as read; `inRange` fails when the text stands for something beyond the largest. -/
structure FloatReading where
  value : Float
  inRange : Bool

/-- The digits of a mantissa: their value, how many stand behind the point, whether there was a
point and a digit at all, and the rest of the text. -/
structure Mantissa where
  value : Nat := 0
  places : Nat := 0
  pointed : Bool := false
  digits : Bool := false
  rest : List Char := []

/-- Reads digits of the base with at most one point; underscores are passed over. -/
def mantissa (base : Nat) (m : Mantissa) : List Char → Mantissa
  | [] => { m with rest := [] }
  | '_' :: r => mantissa base m r
  | '.' :: r =>
    if m.pointed then { m with rest := '.' :: r } else mantissa base { m with pointed := true } r
  | c :: r =>
    match digitValue? c with
    | some d =>
      if d < base then
        mantissa base { m with
          value := m.value * base + d
          places := if m.pointed then m.places + 1 else m.places
          digits := true } r
      else { m with rest := c :: r }
    | none => { m with rest := c :: r }

/-- The value of an exponent's digits; beyond ten thousand the exact value does not matter. -/
def exponentValue (acc : Nat) : List Char → Option Nat
  | [] => some acc
  | '_' :: r => exponentValue acc r
  | c :: r =>
    if c.isDigit then
      exponentValue (if acc < 10000 then acc * 10 + (c.toNat - 48) else acc) r
    else none

/-- The exponent behind its letter: a sign and digits up to the end. -/
def exponent? (s : List Char) : Option Int :=
  let (neg, r) := takeSign s
  match r with
  | c :: _ =>
    if c.isDigit then (exponentValue 0 r).map fun e => if neg then -(e : Int) else e else none
  | [] => none

/-- The number of decimal digits. -/
def digitCount (n : Nat) : Nat := (Nat.toDigits 10 n).length

/-- `m * 10^e` rounded to the nearest float. -/
def ofDecimal (m : Nat) (e : Int) : Float :=
  if m = 0 then 0
  else if (digitCount m : Int) + e > 310 then 1.0 / 0.0
  else if (digitCount m : Int) + e < -330 then 0
  else if e ≥ 0 then Float.ofScientific (m * Nat.pow 10 e.toNat) false 0
  else Float.ofScientific m true (-e).toNat

/-- The words for infinities and for the undefined number, in any case. -/
def floatWord? (s : List Char) : Option Float :=
  let lower := s.map Char.toLower
  let (neg, r) := takeSign lower
  if lower = "nan".toList then some (0.0 / 0.0)
  else if r = "inf".toList || r = "infinity".toList then
    some (if neg then -(1.0 / 0.0) else 1.0 / 0.0)
  else none

/-- Reads a whole text as a float. -/
def readFloat? (s : List Char) : Option FloatReading :=
  match floatWord? s with
  | some x => some ⟨x, true⟩
  | none =>
    let (neg, r) := takeSign s
    let (hex, r) := match r with
      | '0' :: x :: y :: r =>
        if x.toLower = 'x' then (true, y :: r) else (false, '0' :: x :: y :: r)
      | r => (false, r)
    let m := mantissa (if hex then 16 else 10) {} r
    if !m.digits || (s.contains '_' && !underscoresAllowed s) then none
    else
      let exp : Option Int := match m.rest with
        | [] => if hex then none else some 0
        | c :: r => if c.toLower = (if hex then 'p' else 'e') then exponent? r else none
      exp.map fun e =>
        let x :=
          if hex then ofScaled m.value (e - 4 * m.places) else ofDecimal m.value (e - m.places)
        ⟨if neg then -x else x, !x.isInf⟩

/-! ## Integers -/

/-- Digits of the base up to the end of the text. -/
def digitsValue? (base : Nat) (acc : Nat) : List Char → Option Nat
  | [] => some acc
  | c :: r =>
    match digitValue? c with
    | some d => if d < base then digitsValue? base (acc * base + d) r else none
    | none => none

/-- A natural number without sign in the given base. -/
def readNatIn? (base : Nat) (s : List Char) : Option Nat :=
  if s.isEmpty then none else digitsValue? base 0 s

/-- A natural number without sign whose base the text shows; a leading zero alone means base
eight. -/
def readNat? (s : List Char) : Option Nat :=
  let plain := s.filter (· != '_')
  if s.contains '_' && !underscoresAllowed s then none
  else match plain with
    | '0' :: x :: y :: r =>
      if x.toLower = 'b' then digitsValue? 2 0 (y :: r)
      else if x.toLower = 'o' then digitsValue? 8 0 (y :: r)
      else if x.toLower = 'x' then digitsValue? 16 0 (y :: r)
      else digitsValue? 8 0 (x :: y :: r)
    | '0' :: r => digitsValue? 8 0 r
    | r => readNatIn? 10 r

/-- The integer lies within 64 bits with sign. -/
def fitsSigned (n : Int) : Bool := -(Nat.pow 2 63 : Int) ≤ n && n < Nat.pow 2 63

/-- A 64-bit integer with an optional sign; `magnitude` reads what follows the sign. -/
def readSigned? (magnitude : List Char → Option Nat) (s : List Char) : Option Int :=
  let (neg, r) := takeSign s
  match magnitude r with
  | some n =>
    let v : Int := if neg then -(n : Int) else n
    if fitsSigned v then some v else none
  | none => none

/-- A 64-bit integer without sign. -/
def readUnsigned? (magnitude : List Char → Option Nat) (s : List Char) : Option Nat :=
  match magnitude s with
  | some n => if n < Nat.pow 2 64 then some n else none
  | none => none

end TreeLang.Decimal
