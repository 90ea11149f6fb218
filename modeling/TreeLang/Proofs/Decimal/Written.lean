import Mathlib
import TreeLang.Decimal.Written
import TreeLang.Proofs.Decimal.Shortest

/-!
# The text of a number determines it

Positional text can be read: the digits on both sides of the point, divided by the power of ten of
the places behind it, are the value of the decimal. The shortest decimal is the text of one
magnitude only, the sign shows in front, and NaN and the infinities are words with letters that no
other number has. So two numbers with the same text have the same bits, up to the one NaN.

Main statement: `written_inj`.
-/

namespace TreeLang.Decimal

/-! ## Reading positional text -/

/-- The number that digits with at most one point stand for. -/
def textValue (cs : List Char) : ℚ :=
  let whole := cs.takeWhile (· != '.')
  let frac := (cs.dropWhile (· != '.')).drop 1
  (Nat.ofDigitChars 10 (whole ++ frac) 0 : ℕ) / 10 ^ frac.length

theorem textValue_whole {cs : List Char} (h : ∀ c ∈ cs, c ≠ '.') :
    textValue cs = (Nat.ofDigitChars 10 cs 0 : ℕ) := by
  have htake : cs.takeWhile (· != '.') = cs := by
    rw [List.takeWhile_eq_self_iff]
    simpa using h
  have hdrop : cs.dropWhile (· != '.') = [] := by
    rw [List.dropWhile_eq_nil_iff]
    simpa using h
  simp [textValue, htake, hdrop]

theorem textValue_point {whole : List Char} (h : ∀ c ∈ whole, c ≠ '.') (frac : List Char) :
    textValue (whole ++ '.' :: frac) =
      (Nat.ofDigitChars 10 (whole ++ frac) 0 : ℕ) / 10 ^ frac.length := by
  have hall : ∀ c ∈ whole, (c != '.') = true := by simpa using h
  have htake : (whole ++ '.' :: frac).takeWhile (· != '.') = whole := by
    rw [List.takeWhile_append_of_pos hall]
    simp
  have hdrop : (whole ++ '.' :: frac).dropWhile (· != '.') = '.' :: frac := by
    rw [List.dropWhile_append_of_pos hall]
    simp
  simp [textValue, htake, hdrop]

theorem ne_point_of_isDigit {c : Char} (h : c.isDigit = true) : c ≠ '.' := by
  rintro rfl
  revert h
  decide

theorem isDigit_of_mem {n : Nat} {c : Char} (h : c ∈ Nat.toDigits 10 n) : c.isDigit = true :=
  Nat.isDigit_of_mem_toDigits (by norm_num) (by norm_num) h

/-- Zeros that fill the places are digits too. -/
theorem isDigit_of_mem_replicate {n : Nat} {c : Char} (h : c ∈ List.replicate n '0') :
    c.isDigit = true := by
  rw [List.eq_of_mem_replicate h]
  decide

theorem ofDigitChars_toDigits (n : Nat) : Nat.ofDigitChars 10 (Nat.toDigits 10 n) 0 = n :=
  Nat.ofDigitChars_toDigits (by norm_num) (by norm_num)

/-- The two sides of a point: digits, which together are the digits of the number with zeros in
front, and as many behind the point as there are places. -/
theorem positional_split (d : Dec) (h : d.exp < 0) :
    ∃ whole frac, d.positional = String.ofList (whole ++ '.' :: frac) ∧
      (∀ c ∈ whole ++ frac, c.isDigit = true) ∧ frac.length = (-d.exp).toNat ∧
      Nat.ofDigitChars 10 (whole ++ frac) 0 = d.digits := by
  rw [Dec.positional, if_neg (by omega)]
  refine ⟨_, _, rfl, ?_⟩
  rcases Nat.lt_or_ge (-d.exp).toNat (Nat.toDigits 10 d.digits).length with hlen | hlen
  · -- There are digits in front of the point.
    have hfill : (-d.exp).toNat - (Nat.toDigits 10 d.digits).length = 0 := by omega
    rw [if_neg (by omega), hfill, List.replicate_zero, List.nil_append, List.take_append_drop]
    refine ⟨fun c hc => isDigit_of_mem hc, ?_, ofDigitChars_toDigits d.digits⟩
    rw [List.length_drop]
    omega
  · -- All digits are behind it.
    have hwhole : (Nat.toDigits 10 d.digits).length - (-d.exp).toNat = 0 := by omega
    rw [hwhole, if_pos rfl, List.drop_zero]
    refine ⟨fun c hc => ?_, ?_, ?_⟩
    · simp only [List.mem_append, List.mem_singleton] at hc
      rcases hc with rfl | hc | hc
      · decide
      · exact isDigit_of_mem_replicate hc
      · exact isDigit_of_mem hc
    · rw [List.length_append, List.length_replicate]
      omega
    · have hzeros : ['0'] ++ List.replicate ((-d.exp).toNat - (Nat.toDigits 10 d.digits).length) '0' =
          List.replicate ((-d.exp).toNat - (Nat.toDigits 10 d.digits).length + 1) '0' := rfl
      rw [← List.append_assoc, hzeros, Nat.ofDigitChars_append, Nat.ofDigitChars_replicate_zero,
        Nat.mul_zero, ofDigitChars_toDigits]

/-- Without places there are the digits and zeros behind them. -/
theorem positional_whole (d : Dec) (h : 0 ≤ d.exp) :
    ∃ whole, d.positional = String.ofList whole ∧ (∀ c ∈ whole, c.isDigit = true) ∧
      Nat.ofDigitChars 10 whole 0 = d.digits * 10 ^ d.exp.toNat := by
  rw [Dec.positional, if_pos h]
  split
  · next hzero =>
    refine ⟨['0'], rfl, by simp, ?_⟩
    rw [hzero, Nat.zero_mul]
    rfl
  · refine ⟨_, rfl, fun c hc => ?_, ?_⟩
    · rcases List.mem_append.mp hc with hc | hc
      · exact isDigit_of_mem hc
      · exact isDigit_of_mem_replicate hc
    · rw [Nat.ofDigitChars_append, ofDigitChars_toDigits, Nat.ofDigitChars_replicate_zero,
        Nat.mul_comm]

/-- Positional text stands for the value of the decimal. -/
theorem textValue_positional (d : Dec) : textValue d.positional.toList = d.value := by
  rcases lt_or_ge d.exp 0 with hexp | hexp
  · obtain ⟨whole, frac, htext, hdigits, hplaces, hnumber⟩ := positional_split d hexp
    have hpoint : ∀ c ∈ whole, c ≠ '.' := fun c hc =>
      ne_point_of_isDigit (hdigits c (List.mem_append_left _ hc))
    obtain ⟨k, hk⟩ := Int.eq_ofNat_of_zero_le (a := -d.exp) (by omega)
    have hk' : d.exp = -(k : Int) := by omega
    rw [htext, String.toList_ofList, textValue_point hpoint, hnumber, hplaces, Dec.value, hk']
    rw [neg_neg, Int.toNat_natCast, zpow_neg, zpow_natCast, div_eq_mul_inv]
  · obtain ⟨whole, htext, hdigits, hnumber⟩ := positional_whole d hexp
    obtain ⟨k, hk⟩ := Int.eq_ofNat_of_zero_le hexp
    rw [htext, String.toList_ofList,
      textValue_whole fun c hc => ne_point_of_isDigit (hdigits c hc), hnumber, Dec.value, hk]
    push_cast
    rw [Int.toNat_natCast, zpow_natCast]

/-- Positional text consists of digits and points. -/
theorem mem_positional {d : Dec} {c : Char} (h : c ∈ d.positional.toList) :
    c.isDigit = true ∨ c = '.' := by
  rcases lt_or_ge d.exp 0 with hexp | hexp
  · obtain ⟨whole, frac, htext, hdigits, -⟩ := positional_split d hexp
    rw [htext, String.toList_ofList, List.mem_append, List.mem_cons] at h
    rcases h with h | h | h
    · exact .inl (hdigits c (List.mem_append_left _ h))
    · exact .inr h
    · exact .inl (hdigits c (List.mem_append_right _ h))
  · obtain ⟨whole, htext, hdigits, -⟩ := positional_whole d hexp
    rw [htext, String.toList_ofList] at h
    exact .inl (hdigits c h)

/-! ## Taking floats apart -/

section Bits

variable (x : Float)

/-- The field of the exponent. -/
def exponentField : Nat := x.toBits.toNat / 2 ^ 52 % 2 ^ 11

/-- The field of the significand. -/
def fractionField : Nat := x.toBits.toNat % 2 ^ 52

theorem isNegative_iff : isNegative x = true ↔ x.toBits.toNat / 2 ^ 63 = 1 := by
  rw [isNegative, beq_iff_eq, ← UInt64.toNat_inj, UInt64.toNat_shiftRight, Nat.shiftRight_eq_div_pow]
  rfl

theorem ofFloat_eq :
    Binary.ofFloat x =
      if exponentField x = 0 then ⟨fractionField x, -1074, false⟩
      else ⟨2 ^ 52 + fractionField x, (exponentField x : Int) - 1075,
        fractionField x == 0 && exponentField x > 1⟩ := by
  have hexponent : ((x.toBits >>> 52) &&& 0x7FF).toNat = exponentField x := by
    rw [UInt64.toNat_and, UInt64.toNat_shiftRight, Nat.shiftRight_eq_div_pow]
    exact Nat.and_two_pow_sub_one_eq_mod _ 11
  have hfraction : (x.toBits &&& 0xFFFFFFFFFFFFF).toNat = fractionField x := by
    rw [UInt64.toNat_and]
    exact Nat.and_two_pow_sub_one_eq_mod _ 52
  simp only [Binary.ofFloat, hexponent, hfraction, beq_iff_eq, Nat.pow_eq]

theorem ofFloat_canonical : (Binary.ofFloat x).Canonical := by
  have hfraction : fractionField x < 2 ^ 52 := Nat.mod_lt _ (by norm_num)
  rw [ofFloat_eq]
  split
  · exact .subnormal hfraction
  · refine .normal (by omega) (by omega) (by omega) ?_
    simp only [Bool.and_eq_true, beq_iff_eq, decide_eq_true_eq]
    omega

end Bits

/-- A float is its sign and its magnitude. -/
theorem eq_of_ofFloat {x y : Float} (hsign : isNegative x = isNegative y)
    (h : Binary.ofFloat x = Binary.ofFloat y) : x = y := by
  have hx : x.toBits.toNat < 2 ^ 64 := x.toBits.toNat_lt
  have hy : y.toBits.toNat < 2 ^ 64 := y.toBits.toNat_lt
  rw [ofFloat_eq, ofFloat_eq] at h
  rw [Bool.eq_iff_iff, isNegative_iff, isNegative_iff] at hsign
  have hfields : exponentField x = exponentField y ∧ fractionField x = fractionField y := by
    have hfx : fractionField x < 2 ^ 52 := Nat.mod_lt _ (by norm_num)
    have hfy : fractionField y < 2 ^ 52 := Nat.mod_lt _ (by norm_num)
    split at h <;> split at h <;> simp only [Binary.mk.injEq] at h <;> omega
  rw [← Float.toBits_inj, ← UInt64.toNat_inj]
  unfold exponentField fractionField at hfields
  omega

/-- The infinities have the largest exponent and no fraction. -/
theorem ofFloat_of_isInf {x : Float} (h : x.isInf = true) :
    Binary.ofFloat x = ⟨2 ^ 52, 972, true⟩ := by
  have hmodel : (Float.Model.UnpackedFloat.unpack .binary64 x.toBits.toBitVec).isInf = true := h
  have hfields :
      @Float.Model.UnpackedFloat.unpackExponent .binary64 x.toBits.toBitVec = -1#11 ∧
        @Float.Model.UnpackedFloat.unpackMantissa .binary64 x.toBits.toBitVec = 0#52 := by
    unfold Float.Model.UnpackedFloat.unpack at hmodel
    simp only at hmodel
    split at hmodel
    · next he =>
      split at hmodel
      · next hm => exact ⟨he, hm⟩
      · cases hmodel
    · split at hmodel
      · split at hmodel <;> cases hmodel
      · cases hmodel
  obtain ⟨he, hm⟩ := hfields
  have hexponent : exponentField x = 2047 := by
    have := congrArg BitVec.toNat he
    rw [Float.Model.UnpackedFloat.unpackExponent_def, BitVec.extractLsb'_toNat,
      Nat.shiftRight_eq_div_pow] at this
    exact this
  have hfraction : fractionField x = 0 := by
    have := congrArg BitVec.toNat hm
    rw [Float.Model.UnpackedFloat.unpackMantissa_def, BitVec.extractLsb'_toNat,
      Nat.shiftRight_zero] at this
    exact this
  rw [ofFloat_eq, hexponent, hfraction]
  rfl

/-! ## Telling texts apart -/

/-- The letter and the sign that tell the words and negative numbers from the others. -/
theorem mem_written (x : Float) :
    ('a' ∈ (written x).toList ↔ x.isNaN = true) ∧
      ('y' ∈ (written x).toList ↔ x.isNaN = false ∧ x.isInf = true) ∧
      ('-' ∈ (written x).toList ↔ x.isNaN = false ∧ isNegative x = true) := by
  have hbody : ∀ c ∈ ['a', 'y', '-'], c ∉ (shortest (Binary.ofFloat x)).positional.toList := by
    intro c hc hmem
    have hno : ∀ c ∈ ['a', 'y', '-'], ¬(c.isDigit = true ∨ c = '.') := by simp [Char.isDigit]
    exact hno c hc (mem_positional hmem)
  simp only [List.forall_mem_cons, List.not_mem_nil, false_implies, implies_true, and_true] at hbody
  rw [written]
  cases x.isNaN <;> cases x.isInf <;> cases isNegative x <;>
    simp [String.toList_append, hbody]

/-- The text of a finite number: its sign, and the shortest digits that read back. -/
theorem toList_written {x : Float} (hnan : x.isNaN = false) (hinf : x.isInf = false) :
    (written x).toList =
      (if isNegative x then ['-'] else []) ++
        (shortest (Binary.ofFloat x)).positional.toList := by
  rw [written, hnan, hinf]
  cases isNegative x <;> simp [String.toList_append]

/-- Two numbers have the same text only if they are the same number. -/
theorem written_inj {x y : Float} : written x = written y ↔ x = y := by
  refine ⟨fun h => ?_, congrArg written⟩
  obtain ⟨hnanx, hinfx, hsignx⟩ := mem_written x
  obtain ⟨hnany, hinfy, hsigny⟩ := mem_written y
  rw [h] at hnanx hinfx hsignx
  have hnan : x.isNaN = y.isNaN := Bool.eq_iff_iff.mpr (hnanx.symm.trans hnany)
  cases hx : x.isNaN with
  | true =>
    have hy : y.isNaN = true := hnan ▸ hx
    rw [Float.isNaN_eq_decide_eq_nan, decide_eq_true_eq] at hx hy
    rw [hx, hy]
  | false =>
    have hy : y.isNaN = false := hnan ▸ hx
    simp only [hx, hy, true_and] at hinfx hinfy hsignx hsigny
    have hinf : x.isInf = y.isInf := Bool.eq_iff_iff.mpr (hinfx.symm.trans hinfy)
    have hsign : isNegative x = isNegative y := Bool.eq_iff_iff.mpr (hsignx.symm.trans hsigny)
    refine eq_of_ofFloat hsign ?_
    cases hxi : x.isInf with
    | true => rw [ofFloat_of_isInf hxi, ofFloat_of_isInf (hinf ▸ hxi)]
    | false =>
      have htext := congrArg String.toList h
      rw [toList_written hx hxi, toList_written hy (hinf ▸ hxi), hsign] at htext
      have hbody := String.toList_inj.mp (List.append_cancel_left htext)
      refine eq_of_shortest (ofFloat_canonical x) (ofFloat_canonical y) ?_
      rw [← textValue_positional, ← textValue_positional, hbody]

end TreeLang.Decimal
