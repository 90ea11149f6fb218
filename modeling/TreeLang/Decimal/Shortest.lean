import TreeLang.Decimal.Binary

/-!
# The shortest decimal that reads back

Of all decimals that round to a given float, `shortest` picks one with the fewest digits and among
those the nearest; a tie goes to the even last digit. The search is exact: it tests, for one digit,
two digits, and so on, the two neighbours of the value on that decimal grid.
-/

namespace TreeLang.Decimal

/-- The decimal `digits * 10^exp`. -/
structure Dec where
  digits : Nat
  exp : Int
deriving DecidableEq, Repr

/-- Compares `a * 10^i` with `n * 2^j`, exactly. -/
def cmpScaled (a : Nat) (i : Int) (n : Nat) (j : Int) : Ordering :=
  compare (a * Nat.pow 10 i.toNat * Nat.pow 2 (-j).toNat)
    (n * Nat.pow 2 j.toNat * Nat.pow 10 (-i).toNat)

/-- The decimal lies among the reals that round to `x`: to nearest, a half to the even neighbour. -/
def Binary.readsBack (x : Binary) (d : Dec) : Bool :=
  let lo := if x.narrowBelow then 4 * x.m - 1 else 4 * x.m - 2
  let hi := 4 * x.m + 2
  let inclusive := x.m % 2 == 0
  let cl := cmpScaled d.digits d.exp lo (x.q - 2)
  let ch := cmpScaled d.digits d.exp hi (x.q - 2)
  (cl == .gt || (inclusive && cl == .eq)) && (ch == .lt || (inclusive && ch == .eq))

/-- The whole number of units `10^e` in `x`. -/
def Binary.units (x : Binary) (e : Int) : Nat :=
  (x.m * Nat.pow 2 x.q.toNat * Nat.pow 10 (-e).toNat) /
    (Nat.pow 2 (-x.q).toNat * Nat.pow 10 e.toNat)

/-- Raises `k` until the value lies below `10^k`, at most `fuel` times. -/
def Binary.raise (x : Binary) : (fuel : Nat) → (k : Int) → Int
  | 0, k => k
  | fuel + 1, k => if cmpScaled 1 k x.m x.q == .gt then k else x.raise fuel (k + 1)

/-- The least `k` for which the non-zero value lies below `10^k`. The start is a lower estimate
from the binary logarithm, at most a few steps away. -/
def Binary.scale (x : Binary) : Int :=
  let bits := (Nat.log2 x.m : Int) + x.q
  x.raise 8 (Int.fdiv (bits * 30103) 100000 - 2)

/-- The better of the two neighbours of `x` on the grid `10^e`, if one reads back. -/
def Binary.onGrid (x : Binary) (e : Int) : Option Dec :=
  let n := x.units e
  let below : Dec := ⟨n, e⟩
  let above : Dec := ⟨n + 1, e⟩
  match x.readsBack below, x.readsBack above with
  | false, false => none
  | true, false => some below
  | false, true => some above
  | true, true =>
    match cmpScaled (2 * n + 1) e (2 * x.m) x.q with
    | .gt => some below
    | .lt => some above
    | .eq => some (if n % 2 == 0 then below else above)

/-- The first grid from `n` digits on with a decimal that reads back; `fuel` grids are tried. -/
def Binary.search (x : Binary) (k : Int) : (fuel n : Nat) → Option Dec
  | 0, _ => none
  | fuel + 1, n =>
    match x.onGrid (k - n) with
    | some d => some d
    | none => x.search k fuel (n + 1)

/-- The exact value as a decimal. -/
def Binary.exact (x : Binary) : Dec :=
  if x.q ≥ 0 then ⟨x.m * Nat.pow 2 x.q.toNat, 0⟩ else ⟨x.m * Nat.pow 5 (-x.q).toNat, x.q⟩

/-- Moves up to `fuel` trailing zeros of the digits into the exponent. -/
def Dec.strip : (fuel : Nat) → Dec → Dec
  | 0, d => d
  | fuel + 1, d =>
    if d.digits != 0 && d.digits % 10 == 0 then Dec.strip fuel ⟨d.digits / 10, d.exp + 1⟩ else d

/-- The shortest decimal that reads back as `x`, without trailing zeros. -/
def shortest (x : Binary) : Dec :=
  if x.m = 0 then ⟨0, 0⟩
  else Dec.strip 400 ((x.search x.scale 17 1).getD x.exact)

end TreeLang.Decimal
