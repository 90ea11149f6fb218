import Mathlib
import TreeLang.Text.Quoted

/-!
# Quoted texts can be read back

The written form of every character inside quotes can be read from the front of a text, whatever
comes behind it, and the closing quote is no such form. So a quoted text tells where it ends, and
what text it is.

Main statement: `quoted_append_inj`.
-/

namespace TreeLang.Text

/-! ## Hexadecimal digits -/

/-- The value of a hexadecimal digit, lower case. -/
def digitValue (c : Char) : Nat := if c.isDigit then c.toNat - 48 else c.toNat - 87

/-- The number that hexadecimal digits stand for. -/
def hexValue (cs : List Char) : Nat := cs.foldl (fun n c => 16 * n + digitValue c) 0

theorem length_hexDigits (width n : Nat) : (hexDigits width n).length = width := by
  induction width generalizing n with
  | zero => rfl
  | succ width ih => rw [hexDigits, List.length_append, ih, List.length_singleton]

theorem hexValue_hexDigits (width n : Nat) : hexValue (hexDigits width n) = n % 16 ^ width := by
  have hdigit : ∀ d < 16, digitValue (Nat.digitChar d) = d := by decide
  induction width generalizing n with
  | zero => simp [hexDigits, hexValue, Nat.mod_one]
  | succ width ih =>
    have hlast : digitValue (Nat.digitChar (n % 16)) = n % 16 := hdigit _ (Nat.mod_lt _ (by decide))
    have hfront := ih (n / 16)
    rw [hexValue] at hfront
    rw [hexDigits, hexValue, List.foldl_append, hfront, List.foldl_cons, List.foldl_nil, hlast,
      Nat.pow_succ', Nat.mod_mul, Nat.add_comm]

/-- Digits that are wide enough can be read from the front of a text. -/
theorem hexDigits_append {width n : Nat} (h : n < 16 ^ width) (rest : List Char) :
    hexValue ((hexDigits width n ++ rest).take width) = n ∧
      (hexDigits width n ++ rest).drop width = rest := by
  have hlen := length_hexDigits width n
  rw [List.take_append_of_le_length (Nat.le_of_eq hlen.symm), List.take_of_length_le
    (Nat.le_of_eq hlen), hexValue_hexDigits, Nat.mod_eq_of_lt h]
  exact ⟨rfl, List.drop_left' hlen⟩

/-! ## Escapes -/

/-- The character that a letter behind a backslash stands for; others stand for themselves. -/
def unescaped : Char → Char
  | 'a' => '\x07'
  | 'b' => '\x08'
  | 't' => '\t'
  | 'n' => '\n'
  | 'v' => '\x0b'
  | 'f' => '\x0c'
  | 'r' => '\r'
  | c => c

/-- The character at the front of what is inside quotes, and what follows its written form; nothing
at the closing quote. -/
def frontChar? : List Char → Option (Char × List Char)
  | '\\' :: 'x' :: cs => some (.ofNat (hexValue (cs.take 2)), cs.drop 2)
  | '\\' :: 'u' :: cs => some (.ofNat (hexValue (cs.take 4)), cs.drop 4)
  | '\\' :: 'U' :: cs => some (.ofNat (hexValue (cs.take 8)), cs.drop 8)
  | '\\' :: c :: cs => some (unescaped c, cs)
  | '"' :: _ => none
  | c :: cs => some (c, cs)
  | [] => none

theorem frontChar?_escapedChar (c : Char) (rest : List Char) :
    frontChar? (escapedChar c ++ rest) = some (c, rest) := by
  have hnamed {n : Nat} (h : c.toNat = n) : c = .ofNat n := by rw [← h, Char.ofNat_toNat]
  have hcode {width : Nat} (h : c.toNat < 16 ^ width) :
      (Char.ofNat (hexValue ((hexDigits width c.toNat ++ rest).take width)),
        (hexDigits width c.toNat ++ rest).drop width) = (c, rest) := by
    obtain ⟨hvalue, hrest⟩ := hexDigits_append h rest
    rw [hvalue, hrest, Char.ofNat_toNat]
  unfold escapedChar
  split
  case h_8 =>
    split
    · next h =>
      have hsmall : c.toNat < 16 ^ 2 := by
        simp only [Bool.or_eq_true, decide_eq_true_eq, beq_iff_eq] at h
        omega
      exact congrArg some (hcode hsmall)
    · split
      · next h => exact congrArg some (hcode h)
      · have hword : c.toNat < 2 ^ 32 := c.val.toNat_lt
        exact congrArg some (hcode (Nat.lt_of_lt_of_eq hword rfl))
  -- The control characters that have a letter.
  all_goals
    next h =>
      rw [hnamed h]
      rfl

/-- The written form of a character can be read, whatever follows. -/
theorem frontChar?_quotedChar (c : Char) (rest : List Char) :
    frontChar? (quotedChar c ++ rest) = some (c, rest) := by
  unfold quotedChar
  split
  · next h => rw [h]; rfl
  · split
    · next h => rw [h]; rfl
    · next hslash =>
      split
      · simp [frontChar?, hslash]
      · exact frontChar?_escapedChar c rest

/-! ## Texts -/

theorem flatMap_quotedChar_inj {cs ds rest rest' : List Char}
    (h : cs.flatMap quotedChar ++ '"' :: rest = ds.flatMap quotedChar ++ '"' :: rest') :
    cs = ds ∧ rest = rest' := by
  induction cs generalizing ds with
  | nil =>
    cases ds with
    | nil => simpa using h
    | cons d ds =>
      have hfront := congrArg frontChar? h
      rw [List.flatMap_cons, List.append_assoc, frontChar?_quotedChar] at hfront
      cases hfront
  | cons c cs ih =>
    have hfront := congrArg frontChar? h
    rw [List.flatMap_cons, List.append_assoc, frontChar?_quotedChar] at hfront
    cases ds with
    | nil => cases hfront
    | cons d ds =>
      rw [List.flatMap_cons, List.append_assoc, frontChar?_quotedChar, Option.some.injEq,
        Prod.mk.injEq] at hfront
      obtain ⟨rfl, hrest⟩ := hfront
      obtain ⟨rfl, rfl⟩ := ih hrest
      exact ⟨rfl, rfl⟩

/-- A quoted text is known from the front of what it stands in front of. -/
theorem quoted_append_inj {s t : String} {rest rest' : List Char}
    (h : (quoted s).toList ++ rest = (quoted t).toList ++ rest') : s = t ∧ rest = rest' := by
  simp only [quoted, String.toList_ofList, List.cons_append, List.append_assoc, List.cons.injEq,
    List.nil_append, true_and] at h
  obtain ⟨hchars, hrest⟩ := flatMap_quotedChar_inj h
  exact ⟨String.toList_inj.mp hchars, hrest⟩

end TreeLang.Text
