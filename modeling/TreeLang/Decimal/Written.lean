import TreeLang.Decimal.Shortest

/-!
# Numbers as text

A number is written with its shortest digits in positional notation, never with an exponent; whole
numbers have no point and the sign of zero shows. `NaN`, `Infinity` and `-Infinity` are words.
-/

namespace TreeLang.Decimal

/-- Positional notation: zeros fill the places between the digits and the point. -/
def Dec.positional (d : Dec) : String :=
  let ds := Nat.toDigits 10 d.digits
  if d.exp ≥ 0 then
    if d.digits = 0 then "0" else String.ofList (ds ++ List.replicate d.exp.toNat '0')
  else
    let places := (-d.exp).toNat
    let whole := ds.length - places
    let intPart := if whole = 0 then ['0'] else ds.take whole
    let frac := List.replicate (places - ds.length) '0' ++ ds.drop whole
    String.ofList (intPart ++ '.' :: frac)

/-- The text of a number. -/
def written (x : Float) : String :=
  if x.isNaN then "NaN"
  else if x.isInf then (if isNegative x then "-Infinity" else "Infinity")
  else
    let body := (shortest (Binary.ofFloat x)).positional
    if isNegative x then "-" ++ body else body

end TreeLang.Decimal
