/-!
# Binary floating point, exactly

A finite 64-bit float is `m * 2^q`. This module takes floats apart and puts them together again,
and defines the exact remainder of a division, which has the sign of the dividend.
-/

namespace TreeLang.Decimal

/-- A finite non-negative binary64 value, `m * 2^q`. -/
structure Binary where
  m : Nat
  q : Int
  /-- The gap to the value below is half the gap to the value above. -/
  narrowBelow : Bool
deriving DecidableEq, Repr

/-- The magnitude of a finite float. NaN and the infinities have none: test for them first. -/
def Binary.ofFloat (x : Float) : Binary :=
  let b := x.toBits
  let e := ((b >>> 52) &&& 0x7FF).toNat
  let f := (b &&& 0xFFFFFFFFFFFFF).toNat
  if e == 0 then ⟨f, -1074, false⟩ else ⟨Nat.pow 2 52 + f, (e : Int) - 1075, f == 0 && e > 1⟩

/-- The sign bit is set; true of `-0`. -/
def isNegative (x : Float) : Bool := x.toBits >>> 63 == 1

/-- `m * 2^q` rounded to the nearest float, a half to the even neighbour. -/
def ofScaled (m : Nat) (q : Int) : Float :=
  if m = 0 then 0
  else if q ≥ 1100 then 1.0 / 0.0
  else if q ≥ 0 then Float.ofScientific (m * Nat.pow 2 q.toNat) false 0
  else if q + (Nat.log2 m : Int) < -1100 then 0
  else Float.ofScientific (m * Nat.pow 5 (-q).toNat) true (-q).toNat

/-- The integer of 64 bits with sign that a float is cut to. What does not fit, NaN included, gives
the least one. -/
def cut (x : Float) : Int :=
  let least : Int := -9223372036854775808
  if x.isNaN || x.isInf then least
  else
    let b := Binary.ofFloat x
    let n : Nat := if b.q ≥ 0 then b.m * Nat.pow 2 b.q.toNat else b.m / Nat.pow 2 (-b.q).toNat
    let v : Int := if isNegative x then -(n : Int) else n
    if least ≤ v && v < -least then v else least

/-- The exact remainder `x - n * y`, with the sign of `x` and smaller than `y` in magnitude. It is
NaN when the division has no remainder, and `x` itself when `y` is infinite. -/
def remainder (x y : Float) : Float :=
  if x.isNaN || y.isNaN || x.isInf || y == 0 then 0.0 / 0.0
  else if y.isInf then x
  else
    let a := Binary.ofFloat x
    let b := Binary.ofFloat y
    let q := min a.q b.q
    let r := ofScaled ((a.m * Nat.pow 2 (a.q - q).toNat) % (b.m * Nat.pow 2 (b.q - q).toNat)) q
    if isNegative x then -r else r

end TreeLang.Decimal
