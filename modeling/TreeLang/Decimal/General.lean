import TreeLang.Decimal.Written

/-!
# Numbers in scientific notation

The digits are the shortest that read back. Numbers from a ten-thousandth up to a million are
written positionally, and the others with an exponent of at least two digits.
-/

namespace TreeLang.Decimal

/-- The exponent of the first digit. -/
def Dec.magnitude (d : Dec) : Int := d.exp + (Nat.toDigits 10 d.digits).length - 1

/-- One digit, the others behind a point, and the exponent with its sign. -/
def Dec.scientific (d : Dec) : String :=
  let e := d.magnitude
  let width := Nat.toDigits 10 e.natAbs
  let exponent := (if e < 0 then '-' else '+') :: (if width.length < 2 then '0' :: width else width)
  let mantissa := match Nat.toDigits 10 d.digits with
    | [] => []
    | [c] => [c]
    | c :: cs => c :: '.' :: cs
  String.ofList (mantissa ++ 'e' :: exponent)

/-- Positional notation for magnitudes from -4 to 5, else scientific. -/
def Dec.general (d : Dec) : String :=
  if d.digits = 0 || (-4 ≤ d.magnitude && d.magnitude < 6) then d.positional else d.scientific

/-- The text of a number, with `+Inf`, `-Inf` and `NaN` for what is no number. -/
def general (x : Float) : String :=
  if x.isNaN then "NaN"
  else if x.isInf then (if isNegative x then "-Inf" else "+Inf")
  else
    let body := (shortest (Binary.ofFloat x)).general
    if isNegative x then "-" ++ body else body

end TreeLang.Decimal
