/-!
# JSON

The grammar of JSON texts. A rule of the grammar is a constructor. The forms that contain each other
are one relation, so that induction goes over a whole text at once.
-/

namespace TreeLang.Json

/-- Blanks may stand on both sides of every value, name, bracket, comma and colon. -/
def Blank (cs : List Char) : Prop := ∀ c ∈ cs, c ∈ [' ', '\t', '\n', '\r']

/-! ## Numbers -/

/-- At least one digit. -/
def Digits (cs : List Char) : Prop := cs ≠ [] ∧ ∀ c ∈ cs, c.isDigit = true

/-- The whole part of a number has no needless zero in front. -/
inductive Whole : List Char → Prop
  | zero : Whole ['0']
  | digits {c : Char} {cs : List Char} :
      c.isDigit = true → c ≠ '0' → (∀ d ∈ cs, d.isDigit = true) → Whole (c :: cs)

/-- The part of a number behind the point, with the point. -/
inductive Fraction : List Char → Prop
  | absent : Fraction []
  | digits {cs : List Char} : Digits cs → Fraction ('.' :: cs)

/-- The exponent of a number, with its letter. -/
inductive Exponent : List Char → Prop
  | absent : Exponent []
  | digits {e : Char} {sign cs : List Char} :
      e ∈ ['e', 'E'] → sign ∈ [[], ['+'], ['-']] → Digits cs → Exponent (e :: sign ++ cs)

/-- A number. -/
inductive Number : List Char → Prop
  | parts {sign whole fraction exponent : List Char} :
      sign ∈ [[], ['-']] → Whole whole → Fraction fraction → Exponent exponent →
        Number (sign ++ whole ++ fraction ++ exponent)

/-! ## Texts -/

/-- A hexadecimal digit. -/
def isHexDigit (c : Char) : Bool :=
  c.isDigit || ['a', 'b', 'c', 'd', 'e', 'f', 'A', 'B', 'C', 'D', 'E', 'F'].contains c

/-- What stands for one unit of a text. -/
inductive Piece : List Char → Prop
  | plain {c : Char} : 0x20 ≤ c.toNat → c ≠ '"' → c ≠ '\\' → Piece [c]
  | escape {c : Char} : c ∈ ['"', '\\', '/', 'b', 'f', 'n', 'r', 't'] → Piece ['\\', c]
  | code {ds : List Char} :
      ds.length = 4 → (∀ d ∈ ds, isHexDigit d = true) → Piece ('\\' :: 'u' :: ds)

/-- A text between quotes. -/
inductive Quoted : List Char → Prop
  | pieces {ps : List (List Char)} :
      (∀ p ∈ ps, Piece p) → Quoted ('"' :: ps.flatten ++ ['"'])

/-! ## Values -/

/-- The forms that contain each other. A collection is an array or an object, from its opening
bracket to its closing one; a value has no blanks around it, an element may have some. -/
inductive Form where
  | value
  | collection
  | element
  | elements
  | member
  | members
deriving DecidableEq, Repr

/-- The text is of the form. -/
inductive Derives : Form → List Char → Prop
  | word {cs : List Char} :
      cs ∈ [['t', 'r', 'u', 'e'], ['f', 'a', 'l', 's', 'e'], ['n', 'u', 'l', 'l']] →
        Derives .value cs
  | number {cs : List Char} : Number cs → Derives .value cs
  | text {cs : List Char} : Quoted cs → Derives .value cs
  | nested {cs : List Char} : Derives .collection cs → Derives .value cs
  | emptyArray {cs : List Char} : Blank cs → Derives .collection ('[' :: cs ++ [']'])
  | array {cs : List Char} : Derives .elements cs → Derives .collection ('[' :: cs ++ [']'])
  | emptyObject {cs : List Char} : Blank cs → Derives .collection ('\x7b' :: cs ++ ['\x7d'])
  | object {cs : List Char} :
      Derives .members cs → Derives .collection ('\x7b' :: cs ++ ['\x7d'])
  | element {before cs after : List Char} :
      Blank before → Derives .value cs → Blank after → Derives .element (before ++ cs ++ after)
  | lastElement {cs : List Char} : Derives .element cs → Derives .elements cs
  | elements {cs ds : List Char} :
      Derives .element cs → Derives .elements ds → Derives .elements (cs ++ ',' :: ds)
  | member {before name after cs : List Char} :
      Blank before → Quoted name → Blank after → Derives .element cs →
        Derives .member (before ++ name ++ after ++ ':' :: cs)
  | lastMember {cs : List Char} : Derives .member cs → Derives .members cs
  | members {cs ds : List Char} :
      Derives .member cs → Derives .members ds → Derives .members (cs ++ ',' :: ds)

/-- The characters of a number. -/
theorem mem_number {cs : List Char} {c : Char} (h : Number cs) (hc : c ∈ cs) :
    c.isDigit = true ∨ c ∈ ['-', '+', '.', 'e', 'E'] := by
  obtain @⟨sign, whole, fraction, exponent, hsign, hwhole, hfraction, hexponent⟩ := h
  rw [List.mem_append, List.mem_append, List.mem_append] at hc
  obtain ((hc | hc) | hc) | hc := hc
  · have hminus : ∀ s ∈ [[], ['-']], ∀ c ∈ s, c ∈ ['-', '+', '.', 'e', 'E'] := by simp
    exact .inr (hminus sign hsign c hc)
  · cases hwhole with
    | zero => exact .inl (by simp [List.mem_singleton.mp hc])
    | digits hfirst _ hdigits =>
      rcases List.mem_cons.mp hc with rfl | hc
      · exact .inl hfirst
      · exact .inl (hdigits c hc)
  · cases hfraction with
    | absent => cases hc
    | digits hdigits =>
      rcases List.mem_cons.mp hc with rfl | hc
      · exact .inr (by simp)
      · exact .inl (hdigits.2 c hc)
  · cases hexponent with
    | absent => cases hc
    | @digits e sign ds hletter hsign hdigits =>
      rcases List.mem_append.mp hc with hc | hc
      · have hfront : ∀ e ∈ ['e', 'E'], ∀ s ∈ [[], ['+'], ['-']], ∀ c ∈ e :: s,
            c ∈ ['-', '+', '.', 'e', 'E'] := by simp
        exact .inr (hfront e hletter sign hsign c hc)
      · exact .inl (hdigits.2 c hc)

end TreeLang.Json
