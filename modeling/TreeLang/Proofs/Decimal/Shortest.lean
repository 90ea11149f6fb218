import Mathlib
import TreeLang.Decimal.Shortest

/-!
# The shortest decimal belongs to one float

A decimal reads back as a float when it lies in the interval of the reals that round to it. The
intervals of two finite floats have at most an end in common, and then one of the two has an odd
significand, which leaves that end out. So no decimal reads back as two floats. The shortest decimal
of a float reads back as it, hence the value of the shortest decimal determines the float.

Main statements: `shortest_readsBack` and `eq_of_readsBack`.
-/

namespace TreeLang.Decimal

/-! ## Values -/

/-- The number that a decimal stands for. -/
def Dec.value (d : Dec) : ℚ := d.digits * (10 : ℚ) ^ d.exp

namespace Binary

/-- The number that a float stands for, without its sign. -/
def value (x : Binary) : ℚ := x.m * (2 : ℚ) ^ x.q

/-- The middle between a float and the one below it. -/
def lower (x : Binary) : ℚ :=
  (if x.narrowBelow then 4 * x.m - 1 else 4 * x.m - 2 : ℕ) * (2 : ℚ) ^ (x.q - 2)

/-- The middle between a float and the one above it. -/
def upper (x : Binary) : ℚ := (4 * x.m + 2 : ℕ) * (2 : ℚ) ^ (x.q - 2)

/-- The significand and exponent are those of a float of 64 bits: below the least power of two with
all 52 bits there is one exponent, and from there on the leading bit is set. -/
inductive Canonical : Binary → Prop where
  | subnormal {m : Nat} (hm : m < 2 ^ 52) : Canonical ⟨m, -1074, false⟩
  | normal {m : Nat} {q : Int} {narrow : Bool} (hm : 2 ^ 52 ≤ m) (hm' : m < 2 ^ 53)
      (hq : -1074 ≤ q) (hnarrow : narrow = true ↔ m = 2 ^ 52 ∧ -1074 < q) :
      Canonical ⟨m, q, narrow⟩

end Binary

/-- A power with a sign, as a fraction of natural powers. -/
theorem zpow_mul_toNat {b : ℚ} (hb : b ≠ 0) (i : Int) : b ^ i * b ^ (-i).toNat = b ^ i.toNat := by
  rw [← zpow_natCast, ← zpow_natCast, ← zpow_add₀ hb]
  congr 1
  omega

section Comparing

variable (a : Nat) (i : Int) (n : Nat) (j : Int)

/-- Both sides of a comparison are multiplied by the same positive number. -/
theorem cmpScaled_eq : cmpScaled a i n j = compare (a * (10 : ℚ) ^ i) (n * (2 : ℚ) ^ j) := by
  have hten := zpow_mul_toNat (b := 10) (by norm_num) i
  have htwo := zpow_mul_toNat (b := 2) (by norm_num) j
  have hpos : (0 : ℚ) < 10 ^ (-i).toNat * 2 ^ (-j).toNat := by positivity
  have hleft : ((a * Nat.pow 10 i.toNat * Nat.pow 2 (-j).toNat : ℕ) : ℚ) =
      a * (10 : ℚ) ^ i * (10 ^ (-i).toNat * 2 ^ (-j).toNat) := by
    simp only [Nat.pow_eq, Nat.cast_mul, Nat.cast_pow, Nat.cast_ofNat, ← hten]
    ring
  have hright : ((n * Nat.pow 2 j.toNat * Nat.pow 10 (-i).toNat : ℕ) : ℚ) =
      n * (2 : ℚ) ^ j * (10 ^ (-i).toNat * 2 ^ (-j).toNat) := by
    simp only [Nat.pow_eq, Nat.cast_mul, Nat.cast_pow, Nat.cast_ofNat, ← htwo]
    ring
  rw [cmpScaled]
  rcases lt_trichotomy (a * (10 : ℚ) ^ i) (n * (2 : ℚ) ^ j) with h | h | h
  · rw [compare_lt_iff_lt.mpr h, compare_lt_iff_lt, ← Nat.cast_lt (α := ℚ), hleft, hright]
    exact mul_lt_mul_of_pos_right h hpos
  · rw [compare_eq_iff_eq.mpr h, compare_eq_iff_eq, ← Nat.cast_inj (R := ℚ), hleft, hright, h]
  · rw [compare_gt_iff_gt.mpr h, compare_gt_iff_gt, ← Nat.cast_lt (α := ℚ), hleft, hright]
    exact mul_lt_mul_of_pos_right h hpos

end Comparing

/-! ## Intervals -/

/-- A decimal reads back when it lies in the interval, the ends of which belong to a float with an
even significand. -/
theorem readsBack_iff (x : Binary) (d : Dec) :
    x.readsBack d = true ↔
      (x.lower < d.value ∨ x.m % 2 = 0 ∧ x.lower = d.value) ∧
        (d.value < x.upper ∨ x.m % 2 = 0 ∧ d.value = x.upper) := by
  have hlower : cmpScaled d.digits d.exp (if x.narrowBelow then 4 * x.m - 1 else 4 * x.m - 2)
      (x.q - 2) = compare d.value x.lower := cmpScaled_eq ..
  have hupper : cmpScaled d.digits d.exp (4 * x.m + 2) (x.q - 2) = compare d.value x.upper :=
    cmpScaled_eq ..
  simp only [Binary.readsBack, hlower, hupper, Bool.and_eq_true, Bool.or_eq_true, beq_iff_eq,
    compare_gt_iff_gt, compare_lt_iff_lt, compare_eq_iff_eq, eq_comm (a := x.lower)]

namespace Binary

/-- The float itself lies in its interval. -/
theorem value_between {x : Binary} (h : 0 < x.m) : x.lower < x.value ∧ x.value < x.upper := by
  have hunit : (0 : ℚ) < 2 ^ (x.q - 2) := by positivity
  have hvalue : x.value = (4 * x.m : ℕ) * (2 : ℚ) ^ (x.q - 2) := by
    rw [value, zpow_sub₀ (by norm_num)]
    push_cast
    ring
  rw [hvalue, lower, upper]
  constructor
  · refine mul_lt_mul_of_pos_right (Nat.cast_lt.mpr ?_) hunit
    split <;> omega
  · exact mul_lt_mul_of_pos_right (Nat.cast_lt.mpr (by omega)) hunit

namespace Canonical

variable {x y : Binary}

theorem bounds (hx : x.Canonical) : x.m < 2 ^ 53 ∧ -1074 ≤ x.q := by
  cases hx with
  | subnormal hm => exact ⟨by simp only; omega, le_refl _⟩
  | normal hm hm' hq => exact ⟨hm', hq⟩

/-- Above the least exponent all bits are there, and only a power of two has a narrow gap below. -/
theorem normal_of_lt (hy : y.Canonical) (h : -1074 < y.q) :
    2 ^ 52 ≤ y.m ∧ (y.narrowBelow = true ↔ y.m = 2 ^ 52) := by
  cases hy with
  | subnormal hm => exact absurd h (lt_irrefl _)
  | normal hm hm' hq hnarrow => exact ⟨hm, hnarrow.trans (and_iff_left h)⟩

/-- A float above another one with the same exponent has no narrow gap below. -/
theorem wide (hx : x.Canonical) (hy : y.Canonical) (hq : x.q = y.q) (hm : x.m < y.m) :
    y.narrowBelow = false := by
  rw [Bool.eq_false_iff]
  intro hnarrow
  rcases hy.bounds.2.lt_or_eq with hlt | heq
  · have hleast := (hy.normal_of_lt hlt).2.mp hnarrow
    have hbits := (hx.normal_of_lt (hq ▸ hlt)).1
    omega
  · cases hy with
    | subnormal => cases hnarrow
    | normal _ _ _ hiff => exact absurd (hiff.mp hnarrow).2 (heq ▸ lt_irrefl _)

end Canonical

/-- The unit of a larger exponent is twice as large or more, and all bits are there. -/
theorem upper_le_lower_of_exponent {x y : Binary} (hx : x.Canonical) (hy : y.Canonical)
    (h : x.q < y.q) : x.upper < y.lower ∨ x.upper = y.lower ∧ x.m % 2 ≠ 0 := by
  obtain ⟨hxm, hxq⟩ := hx.bounds
  obtain ⟨hym, hnarrow⟩ := hy.normal_of_lt (hxq.trans_lt h)
  have hunit : (0 : ℚ) < 2 ^ (x.q - 2) := by positivity
  obtain ⟨k, hk⟩ : ∃ k : Nat, y.q - 2 = x.q - 2 + 1 + k := ⟨(y.q - x.q - 1).toNat, by omega⟩
  have hscale : (2 : ℚ) ^ (y.q - 2) = (2 * 2 ^ k : ℕ) * (2 : ℚ) ^ (x.q - 2) := by
    rw [hk, zpow_add₀ (by norm_num), zpow_add_one₀ (by norm_num), zpow_natCast]
    push_cast
    ring
  have hpow : 1 ≤ 2 ^ k := Nat.one_le_two_pow
  have hquarters : 2 ^ 54 - 1 ≤ if y.narrowBelow then 4 * y.m - 1 else 4 * y.m - 2 := by
    split
    · omega
    · next hwide =>
      have hne : y.m ≠ 2 ^ 52 := fun heq => hwide (hnarrow.mpr heq)
      omega
  have hle : 2 * (2 ^ 54 - 1) ≤
      (if y.narrowBelow then 4 * y.m - 1 else 4 * y.m - 2) * (2 * 2 ^ k) := by
    calc 2 * (2 ^ 54 - 1) ≤ (2 ^ 54 - 1) * (2 * 2 ^ k) := by omega
      _ ≤ _ := Nat.mul_le_mul_right _ hquarters
  rw [upper, lower, hscale, ← mul_assoc, ← Nat.cast_mul]
  simp only [mul_lt_mul_iff_left₀ hunit, mul_left_inj' hunit.ne', Nat.cast_lt, Nat.cast_inj]
  -- The two meet only if the lower one has the largest significand, which is odd.
  have hmax : 4 * x.m + 2 ≤ 2 * (2 ^ 54 - 1) := by omega
  rcases (hmax.trans hle).lt_or_eq with hlt | heq
  · exact .inl hlt
  · exact .inr ⟨heq, by omega⟩

/-- Where one float comes before another one its interval ends before that of the other begins. If
the two meet one of the significands is odd. -/
theorem upper_le_lower {x y : Binary} (hx : x.Canonical) (hy : y.Canonical)
    (h : x.q < y.q ∨ x.q = y.q ∧ x.m < y.m) :
    x.upper < y.lower ∨ x.upper = y.lower ∧ (x.m % 2 ≠ 0 ∨ y.m % 2 ≠ 0) := by
  rcases h with hq | ⟨hq, hm⟩
  · exact (upper_le_lower_of_exponent hx hy hq).imp_right fun h => ⟨h.1, .inl h.2⟩
  · have hunit : (0 : ℚ) < 2 ^ (y.q - 2) := by positivity
    rw [upper, lower, hq, hx.wide hy hq hm]
    simp only [mul_lt_mul_iff_left₀ hunit, mul_left_inj' hunit.ne', Nat.cast_lt, Nat.cast_inj,
      Bool.false_eq_true, if_false]
    omega

end Binary

/-- Floats that come one before the other do not have a decimal in common. -/
theorem not_readsBack_both {x y : Binary} (hx : x.Canonical) (hy : y.Canonical)
    (h : x.q < y.q ∨ x.q = y.q ∧ x.m < y.m) {d e : Dec} (hd : x.readsBack d = true)
    (he : y.readsBack e = true) : d.value ≠ e.value := by
  intro hvalue
  obtain ⟨-, hbelow⟩ := (readsBack_iff x d).mp hd
  obtain ⟨habove, -⟩ := (readsBack_iff y e).mp he
  rw [hvalue] at hbelow
  rcases Binary.upper_le_lower hx hy h with hlt | ⟨heq, hodd⟩
  · rcases hbelow with hb | ⟨-, hb⟩ <;> rcases habove with ha | ⟨-, ha⟩ <;> linarith
  · rcases hbelow with hb | ⟨hxe, hb⟩ <;> rcases habove with ha | ⟨hye, ha⟩
    · linarith
    · linarith
    · linarith
    · rcases hodd with ho | ho <;> contradiction

/-- A decimal reads back as one float. -/
theorem eq_of_readsBack {x y : Binary} (hx : x.Canonical) (hy : y.Canonical) {d e : Dec}
    (hd : x.readsBack d = true) (he : y.readsBack e = true) (hvalue : d.value = e.value) :
    x = y := by
  have hq : x.q = y.q := by
    rcases lt_trichotomy x.q y.q with h | h | h
    · exact absurd hvalue (not_readsBack_both hx hy (.inl h) hd he)
    · exact h
    · exact absurd hvalue.symm (not_readsBack_both hy hx (.inl h) he hd)
  have hm : x.m = y.m := by
    rcases lt_trichotomy x.m y.m with h | h | h
    · exact absurd hvalue (not_readsBack_both hx hy (.inr ⟨hq, h⟩) hd he)
    · exact h
    · exact absurd hvalue.symm (not_readsBack_both hy hx (.inr ⟨hq.symm, h⟩) he hd)
  -- What remains is whether the gap below is narrow, and that is known from the other two.
  cases hx <;> cases hy <;> simp only at hq hm
  case subnormal.subnormal => rw [hm]
  case subnormal.normal => omega
  case normal.subnormal => omega
  case normal.normal _ _ hnarrow _ _ _ _ _ _ hnarrow' =>
    subst hq hm
    rw [Bool.eq_iff_iff.mpr (hnarrow.trans hnarrow'.symm)]

/-! ## The search -/

/-- Whether a decimal reads back depends on its value alone. -/
theorem readsBack_congr {x : Binary} {d e : Dec} (h : d.value = e.value) :
    x.readsBack d = x.readsBack e := by
  rw [Bool.eq_iff_iff, readsBack_iff, readsBack_iff, h]

theorem onGrid_readsBack {x : Binary} {e : Int} {d : Dec} (h : x.onGrid e = some d) :
    x.readsBack d = true := by
  unfold Binary.onGrid at h
  simp only at h
  split at h
  · cases h
  · next hbelow _ => cases h; exact hbelow
  · next habove => cases h; exact habove
  · next hbelow habove =>
    split at h
    · cases h; exact hbelow
    · cases h; exact habove
    · cases h
      split
      · exact hbelow
      · exact habove

theorem search_readsBack {x : Binary} {k : Int} {fuel n : Nat} {d : Dec}
    (h : x.search k fuel n = some d) : x.readsBack d = true := by
  induction fuel generalizing n with
  | zero => cases h
  | succ fuel ih =>
    rw [Binary.search] at h
    split at h
    · next hgrid => cases h; exact onGrid_readsBack hgrid
    · exact ih h

/-- A power of two below one is a power of five on a decimal grid. -/
theorem exact_value (x : Binary) : x.exact.value = x.value := by
  unfold Binary.exact
  split
  · next hq =>
    obtain ⟨k, hk⟩ := Int.eq_ofNat_of_zero_le hq
    simp [Dec.value, Binary.value, hk]
  · next hq =>
    obtain ⟨k, hk⟩ := Int.eq_ofNat_of_zero_le (a := -x.q) (by omega)
    have hk' : x.q = -(k : Int) := by omega
    have hten : (10 : ℚ) ^ k = 2 ^ k * 5 ^ k := by rw [← mul_pow]; norm_num
    simp only [Dec.value, Binary.value, hk', neg_neg, Int.toNat_natCast, Nat.pow_eq, Nat.cast_mul,
      Nat.cast_pow, Nat.cast_ofNat, zpow_neg, zpow_natCast, hten]
    field_simp

/-- A trailing zero goes into the exponent. -/
theorem strip_value (fuel : Nat) (d : Dec) : (d.strip fuel).value = d.value := by
  induction fuel generalizing d with
  | zero => rfl
  | succ fuel ih =>
    rw [Dec.strip]
    split
    · next h =>
      simp only [bne_iff_ne, ne_eq, Bool.and_eq_true, beq_iff_eq] at h
      obtain ⟨n, hn⟩ := Nat.dvd_of_mod_eq_zero h.2
      rw [ih]
      simp only [Dec.value, hn, Nat.mul_div_cancel_left n (by norm_num : 0 < 10)]
      rw [zpow_add_one₀ (by norm_num)]
      push_cast
      ring
    · rfl

/-- The shortest decimal lies among the reals that round to the float. -/
theorem shortest_readsBack (x : Binary) : x.readsBack (shortest x) = true := by
  rw [shortest]
  split
  · next hzero =>
    have hunit : (0 : ℚ) < 2 ^ (x.q - 2) := by positivity
    rw [readsBack_iff]
    simp [Binary.lower, Binary.upper, Dec.value, hzero, hunit]
  · next hm =>
    rw [readsBack_congr (strip_value ..)]
    cases hs : x.search x.scale 17 1 with
    | some d => exact search_readsBack hs
    | none =>
      obtain ⟨hlower, hupper⟩ := Binary.value_between (Nat.pos_of_ne_zero hm)
      rw [Option.getD_none, readsBack_iff, exact_value]
      exact ⟨.inl hlower, .inl hupper⟩

/-- A float is known by the value of its shortest decimal. -/
theorem eq_of_shortest {x y : Binary} (hx : x.Canonical) (hy : y.Canonical)
    (h : (shortest x).value = (shortest y).value) : x = y :=
  eq_of_readsBack hx hy (shortest_readsBack x) (shortest_readsBack y) h

end TreeLang.Decimal
