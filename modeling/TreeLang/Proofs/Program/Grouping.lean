import Mathlib.Data.List.Basic
import TreeLang.Program.Printer
import TreeLang.Proofs.Program.Reading

/-!
# Printed operators are grouped in one way

An operator tree is printed as operands, operators and parentheses, and operators of four different
precedences may stand next to each other. `Says` is the grammar of such texts: the operators outside
parentheses bind at least as tightly as the level asks for, and on the right of an operator even
tighter, so that equal ones group to the left. `read?` reads tokens back from left to right with a
stack of left operands that wait for their right ones, and it reads exactly what the grammar says
(`read?_eq_some_iff`); so the grammar has at most one tree for each text.

The printer looks at one operand at a time, at its operator and at its side. This is enough, since
whatever an operand has inside binds at least as tightly as the operand itself.

Main statement: `print_grouped`.
-/

namespace TreeLang

/-- A part of a printed operator tree. An operand is one part, whatever is in it. -/
inductive Token where
  | operand (e : Expr)
  | operator (symbol : String)
  | opening
  | closing

/-- The text of a part. -/
def Token.text (l : Layout) : Token → String
  | .operand e => e.print l
  | .operator symbol => " " ++ symbol ++ " "
  | .opening => "("
  | .closing => ")"

namespace Expr

/-- Literals, references, calls, sequences, lists and dictionaries are operands as they stand. -/
def isOperand : Expr → Bool
  | .number _ | .text _ | .bool _ | .ref _ | .call _ _ | .seq _ | .list _ | .dict _ => true
  | _ => false

/-- Operators of the language over operands. -/
inductive OperatorTree : Expr → Prop
  | operand {e : Expr} : e.isOperand = true → OperatorTree e
  | binary {op : Operator} {left right : Expr} : op ∈ Operator.known → OperatorTree left →
      OperatorTree right → OperatorTree (.binary op left right)

/-- Parts between parentheses, if they are wanted. -/
def enclosed (wanted : Bool) (ts : List Token) : List Token :=
  if wanted then .opening :: (ts ++ [.closing]) else ts

/-- The parts of a printed expression in order. -/
def tokens : Expr → List Token
  | .binary op left right =>
    enclosed (left.wrapped op.precedence false) left.tokens ++
      .operator op.symbol :: enclosed (right.wrapped op.precedence true) right.tokens
  | e => [.operand e]

/-- The text of an expression is that of its parts. -/
theorem print_eq_join (l : Layout) (e : Expr) :
    e.print l = String.join (e.tokens.map (Token.text l)) := by
  have henclosed (wanted : Bool) (ts : List Token) :
      String.join ((enclosed wanted ts).map (Token.text l)) =
        parens wanted (String.join (ts.map (Token.text l))) := by
    cases wanted with
    | false => rfl
    | true => simp [enclosed, parens, Token.text, String.append_assoc]
  fun_induction tokens e with
  | case1 op left right ihl ihr =>
    rw [print, ihl, ihr, ← henclosed, ← henclosed]
    simp only [List.map_append, List.map_cons, String.join_append, String.join_cons, Token.text,
      String.append_assoc]
  | case2 e hbinary => simp [Token.text]

end Expr

open Expr

/-- The grammar of printed operator trees: the parts say the expression, and every operator outside
parentheses binds at least as tightly as the level `p`. -/
inductive Says : (p : Nat) → List Token → Expr → Prop
  | operand {p : Nat} {e : Expr} : e.isOperand = true → Says p [.operand e] e
  | group {p : Nat} {ts : List Token} {e : Expr} : Says 0 ts e →
      Says p (.opening :: (ts ++ [.closing])) e
  | binary {p : Nat} {symbol : String} {op : Operator} {ls rs : List Token} {left right : Expr} :
      Operator.ofSymbol? symbol = some op → p ≤ op.precedence → Says op.precedence ls left →
      Says (op.precedence + 1) rs right →
      Says p (ls ++ .operator symbol :: rs) (.binary op left right)

theorem Says.mono {p q : Nat} {ts : List Token} {e : Expr} (h : Says q ts e) (hpq : p ≤ q) :
    Says p ts e := by
  cases h with
  | operand he => exact .operand he
  | group hts => exact .group hts
  | binary hop hq hl hr => exact .binary hop (Nat.le_trans hpq hq) hl hr

/-! ## The printer keeps to the grammar -/

/-- An operand has parentheses, or its operator binds tightly enough. -/
theorem Says.enclosed {e : Expr} (outer : Nat) (right : Bool)
    (h : ∀ p, (∀ q, e.precedence? = some q → p ≤ q) → Says p e.tokens e) :
    Says (if right then outer + 1 else outer) (enclosed (e.wrapped outer right) e.tokens) e := by
  cases hwrapped : e.wrapped outer right with
  | true => exact .group (h 0 fun _ _ => Nat.zero_le _)
  | false =>
    refine h _ fun q hq => ?_
    simp only [wrapped, hq, Bool.or_eq_false_iff, decide_eq_false_iff_not, Bool.and_eq_false_iff,
      beq_eq_false_iff_ne] at hwrapped
    cases right with
    | false => simpa using hwrapped.1
    | true =>
      have hne : q ≠ outer := by simpa using hwrapped.2
      simp only [if_true]
      omega

theorem Expr.OperatorTree.grouped {e : Expr} (h : OperatorTree e) (p : Nat)
    (hp : ∀ q, e.precedence? = some q → p ≤ q) : Says p e.tokens e := by
  induction h generalizing p with
  | @operand e he =>
    have htokens : e.tokens = [.operand e] := by
      cases e with
      | binary => cases he
      | _ => rfl
    rw [htokens]
    exact .operand he
  | @binary op left right hop _ _ ihl ihr =>
    have hleft := Says.enclosed op.precedence false ihl
    have hright := Says.enclosed op.precedence true ihr
    exact .binary (Reader.Operator.ofSymbol?_symbol hop) (hp _ rfl) hleft hright

/-! ## Reading tokens -/

namespace Grouping

/-- What the reader keeps for later: an open parenthesis, or an operator with its left operand. -/
inductive Frame where
  | opening
  | left (e : Expr) (op : Operator)

/-- Where the reader is: what it keeps, the latest first, and the operand that it has just read. -/
structure State where
  frames : List Frame := []
  operand? : Option Expr := none

/-- Gives an operand to the operators in front of it that bind at least as tightly as `p`. -/
def settle (p : Nat) (e : Expr) : List Frame → Expr × List Frame
  | .left l op :: fs =>
    if p ≤ op.precedence then settle p (.binary op l e) fs else (e, .left l op :: fs)
  | fs => (e, fs)

/-- One token on. An operator waits for its right operand when all operators in front of it that
bind as tightly have theirs. -/
def step (s : State) (t : Token) : Option State :=
  match s.operand?, t with
  | none, .operand e => if e.isOperand then some { s with operand? := some e } else none
  | none, .opening => some { frames := .opening :: s.frames }
  | some e, .operator symbol =>
    (Operator.ofSymbol? symbol).map fun op =>
      let (left, fs) := settle op.precedence e s.frames
      { frames := .left left op :: fs }
  | some e, .closing =>
    match settle 0 e s.frames with
    | (inner, .opening :: fs) => some { frames := fs, operand? := some inner }
    | _ => none
  | _, _ => none

/-- The expression of a state at the end of the tokens, if nothing is left open. -/
def finish (s : State) : Option Expr :=
  match s.operand? with
  | none => none
  | some e =>
    match settle 0 e s.frames with
    | (whole, []) => some whole
    | _ => none

/-- Reads tokens. -/
def read? (ts : List Token) : Option Expr := (ts.foldlM step {}).bind finish

/-- How tightly the next operator has to bind so that the last one waits for it. -/
def level : List Frame → Nat
  | .left _ op :: _ => op.precedence + 1
  | _ => 0

theorem settle_of_level_le {p : Nat} {fs : List Frame} (h : level fs ≤ p) (e : Expr) :
    settle p e fs = (e, fs) := by
  cases fs with
  | nil => rfl
  | cons f fs =>
    cases f with
    | opening => rfl
    | left l op => exact if_neg (Nat.not_le.mpr h)

/-! ### What the grammar says is read -/

/-- From any place the reader reads what is said at the level of that place. The last operators may
still wait, but they have what they wait for: settling them gives the same as settling with the
whole expression. -/
theorem run_of_says {p : Nat} {ts : List Token} {e : Expr} (h : Says p ts e) {fs : List Frame}
    (hlevel : level fs ≤ p) :
    ∃ fs' e', ts.foldlM step ⟨fs, none⟩ = some ⟨fs', some e'⟩ ∧
      ∀ q ≤ p, settle q e' fs' = settle q e fs := by
  induction h generalizing fs with
  | @operand p e he =>
    refine ⟨fs, e, ?_, fun _ _ => rfl⟩
    simp [step, he]
  | @group p ts e _ ih =>
    have hinside : level (.opening :: fs) ≤ 0 := Nat.le_refl 0
    obtain ⟨fs', e', hrun, hsettle⟩ := ih hinside
    have hinner : settle 0 e' fs' = (e, .opening :: fs) := hsettle 0 (Nat.le_refl 0)
    have hopening : step ⟨fs, none⟩ .opening = some ⟨.opening :: fs, none⟩ := rfl
    have hclosing : step ⟨fs', some e'⟩ .closing = some ⟨fs, some e⟩ := by
      simp only [step, hinner]
    refine ⟨fs, e, ?_, fun _ _ => rfl⟩
    simp only [List.foldlM_cons, List.foldlM_append, List.foldlM_nil, Option.bind_eq_bind,
      Option.bind_some, hopening, hrun, hclosing]
    rfl
  | @binary p symbol op ls rs left right hop hp _ _ ihl ihr =>
    have hbehind : level (.left left op :: fs) ≤ op.precedence + 1 := Nat.le_refl _
    obtain ⟨fs₁, l', hleft, hsettle₁⟩ := ihl (Nat.le_trans hlevel hp)
    obtain ⟨fs₂, r', hright, hsettle₂⟩ := ihr hbehind
    -- What still waits in the left operand binds at least as tightly as the operator behind it, and
    -- what was there before does not.
    have hwait : settle op.precedence l' fs₁ = (left, fs) := by
      rw [hsettle₁ _ (Nat.le_refl _), settle_of_level_le (Nat.le_trans hlevel hp)]
    have hoperator : step ⟨fs₁, some l'⟩ (.operator symbol) = some ⟨.left left op :: fs, none⟩ := by
      simp only [step, hop, Option.map_some, hwait]
    refine ⟨fs₂, r', ?_, fun q hq => ?_⟩
    · simp only [List.foldlM_append, List.foldlM_cons, Option.bind_eq_bind, Option.bind_some, hleft,
        hoperator, hright]
    · have hqop : q ≤ op.precedence := Nat.le_trans hq hp
      rw [hsettle₂ q (Nat.le_succ_of_le hqop), settle, if_pos hqop]

/-! ### What is read, the grammar says -/

/-- What the reader keeps comes from these tokens. Operators that wait bind ever more tightly. -/
inductive Kept : List Frame → List Token → Prop
  | nil : Kept [] []
  | opening {fs : List Frame} {ts : List Token} : Kept fs ts →
      Kept (.opening :: fs) (ts ++ [.opening])
  | left {fs : List Frame} {ts ls : List Token} {symbol : String} {op : Operator} {l : Expr} :
      Kept fs ts → level fs ≤ op.precedence → Operator.ofSymbol? symbol = some op →
      Says op.precedence ls l → Kept (.left l op :: fs) (ts ++ (ls ++ [.operator symbol]))

/-- The invariant of reading: behind what is kept there is at most one operand, which is closed. -/
def Reached (ts : List Token) (s : State) : Prop :=
  match s.operand? with
  | none => Kept s.frames ts
  | some e => ∃ ts₀ es, ts = ts₀ ++ es ∧ Kept s.frames ts₀ ∧ ∀ p, Says p es e

theorem Kept.settle {p q : Nat} {fs fs' : List Frame} {ts es : List Token} {e e' : Expr}
    (h : Kept fs ts) (he : Says q es e) (hp : p ≤ q) (hlevel : level fs ≤ q)
    (hsettle : settle p e fs = (e', fs')) :
    ∃ ts' es', ts ++ es = ts' ++ es' ∧ Kept fs' ts' ∧ Says p es' e' ∧ level fs' ≤ p := by
  induction h generalizing q es e with
  | nil =>
    cases hsettle
    exact ⟨[], es, rfl, .nil, he.mono hp, Nat.zero_le p⟩
  | opening h _ =>
    cases hsettle
    exact ⟨_, es, rfl, .opening h, he.mono hp, Nat.zero_le p⟩
  | @left fs ts ls symbol op l h hfs hop hl ih =>
    rw [Grouping.settle] at hsettle
    split at hsettle
    · next hpop =>
      -- The operator has its right operand now, and both together are the operand of the next one.
      have hbinary := Says.binary hop (Nat.le_refl _) hl (he.mono hlevel)
      obtain ⟨ts', es', heq, hrest⟩ := ih hbinary hpop hfs hsettle
      exact ⟨ts', es', by simpa using heq, hrest⟩
    · next hpop =>
      cases hsettle
      exact ⟨_, es, rfl, .left h hfs hop hl, he.mono hp, Nat.not_le.mp hpop⟩

theorem reached_step {ts : List Token} {s s' : State} {t : Token} (h : Reached ts s)
    (hstep : step s t = some s') : Reached (ts ++ [t]) s' := by
  obtain ⟨fs, operand?⟩ := s
  cases operand? with
  | none =>
    cases t with
    | operand e =>
      simp only [step, Option.ite_none_right_eq_some] at hstep
      obtain ⟨he, hstep⟩ := hstep
      cases hstep
      exact ⟨ts, [.operand e], rfl, h, fun _ => .operand he⟩
    | opening =>
      cases hstep
      exact Kept.opening h
    | operator | closing => cases hstep
  | some e =>
    obtain ⟨ts₀, es, rfl, hkept, he⟩ := h
    cases t with
    | operator symbol =>
      obtain ⟨op, hop, rfl⟩ := Option.map_eq_some_iff.mp hstep
      -- A closed operand is said at every level, so at that of either side.
      obtain ⟨ts', es', heq, hkept', hleft, hlevel⟩ :=
        hkept.settle (he (max op.precedence (level fs))) (Nat.le_max_left _ _)
          (Nat.le_max_right _ _) rfl
      have htokens : ts₀ ++ es ++ [.operator symbol] = ts' ++ (es' ++ [.operator symbol]) := by
        rw [heq, List.append_assoc]
      rw [htokens]
      exact Kept.left hkept' hlevel hop hleft
    | closing =>
      simp only [step] at hstep
      split at hstep
      · next inner fs' hsettle =>
        cases hstep
        obtain ⟨ts', es', heq, hkept', hinner, -⟩ :=
          hkept.settle (he (level fs)) (Nat.zero_le _) (Nat.le_refl _) hsettle
        cases hkept' with
        | @opening _ ts' h =>
          refine ⟨ts', .opening :: (es' ++ [.closing]), ?_, h, fun _ => .group hinner⟩
          rw [heq]
          simp
      · cases hstep
    | operand | opening => cases hstep

theorem reached_run {ts ts' : List Token} {s s' : State} (h : Reached ts s)
    (hrun : ts'.foldlM step s = some s') : Reached (ts ++ ts') s' := by
  induction ts' generalizing ts s with
  | nil =>
    cases hrun
    rwa [List.append_nil]
  | cons t ts' ih =>
    rw [List.foldlM_cons] at hrun
    obtain ⟨s₁, hstep, hrun⟩ := Option.bind_eq_some_iff.mp hrun
    rw [List.append_cons]
    exact ih (reached_step h hstep) hrun

/-- The reader reads exactly what the grammar says. -/
theorem read?_eq_some_iff {ts : List Token} {e : Expr} : read? ts = some e ↔ Says 0 ts e := by
  constructor
  · intro h
    obtain ⟨s, hrun, hfinish⟩ := Option.bind_eq_some_iff.mp h
    have hstart : Reached [] {} := Kept.nil
    have hreached := reached_run hstart hrun
    obtain ⟨fs, operand?⟩ := s
    cases operand? with
    | none => cases hfinish
    | some e' =>
      obtain ⟨ts₀, es, heq, hkept, he⟩ := hreached
      simp only [finish] at hfinish
      split at hfinish
      · next whole hsettle =>
        cases hfinish
        obtain ⟨ts', es', heq', hkept', hwhole, -⟩ :=
          hkept.settle (he (level fs)) (Nat.zero_le _) (Nat.le_refl _) hsettle
        cases hkept'
        rw [List.nil_append] at heq heq'
        rw [heq, heq']
        exact hwhole
      · cases hfinish
  · intro h
    have hstart : level [] ≤ 0 := Nat.le_refl 0
    obtain ⟨fs, e', hrun, hsettle⟩ := run_of_says h hstart
    have hwhole : settle 0 e' fs = (e, []) := hsettle 0 (Nat.le_refl 0)
    rw [read?, hrun]
    simp only [Option.bind_some, finish, hwhole]

end Grouping

/-- Operator trees are printed as operands, operators and parentheses in such a way that reading
these back, with the precedences of the operators and equal ones grouped to the left, gives the
tree; and no other tree can be read from them. -/
theorem print_grouped {e : Expr} (h : e.OperatorTree) :
    (∀ l, e.print l = String.join (e.tokens.map (Token.text l))) ∧
      Grouping.read? e.tokens = some e ∧ ∀ e', Says 0 e.tokens e' ↔ e' = e := by
  have hread : Grouping.read? e.tokens = some e :=
    Grouping.read?_eq_some_iff.mpr (h.grouped 0 fun _ _ => Nat.zero_le _)
  refine ⟨fun l => print_eq_join l e, hread, fun e' => ?_⟩
  rw [← Grouping.read?_eq_some_iff, hread, Option.some.injEq, eq_comm]

/-- A difference on the right of another one, below a product. -/
def Expr.differences : Expr :=
  .binary .mul (.binary .sub (.ref "a") (.binary .sub (.ref "b") (.ref "c")))
    (.binary .rem (.ref "d") (.list [.binary .add (.ref "e") (.ref "f")]))

theorem differences_grouped :
    differences.OperatorTree ∧
      (∀ l, differences.print l = String.join (differences.tokens.map (Token.text l))) ∧
      Grouping.read? differences.tokens = some differences ∧
      ∀ e', Says 0 differences.tokens e' ↔ e' = differences := by
  have hname (name : String) : (Expr.ref name).OperatorTree := .operand rfl
  have htree : differences.OperatorTree :=
    .binary (by decide)
      (.binary (by decide) (hname "a") (.binary (by decide) (hname "b") (hname "c")))
      (.binary (by decide) (hname "d") (.operand rfl))
  exact ⟨htree, print_grouped htree⟩

example : differences.print .compact = "(a - (b - c)) * (d % [e + f])" := by decide +kernel

end TreeLang
