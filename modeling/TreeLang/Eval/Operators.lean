import TreeLang.Eval.Basic
import TreeLang.Program.Printer

/-!
# Operators on values

Addition adds numbers, puts texts together when one side is a text, and puts lists together. The
other arithmetic operators need numbers. Comparison is total: values of different or unordered kinds
compare false. Any two values can be tested for equality.
-/

namespace TreeLang.Operator

/-- Why an operator has no value. -/
inductive Refusal where
  | operands (op : Operator) (left right : Value)
  | unknown (symbol : String)

/-- The report of a refusal, without an expression. -/
def Refusal.diagnostic : Refusal → Diagnostic
  | .operands op left right =>
    runtimeFault .unsupportedOperandKind
      ("unsupported operand types for " ++ op.symbol ++ ": " ++ left.kindName ++ " and " ++
        right.kindName)
  | .unknown symbol =>
    runtimeFault .unsupportedOperator ("unsupported operator " ++ Text.quoted symbol)

/-- The sum of two values. -/
def plus (left right : Value) : Except Refusal Value :=
  match left, right with
  | .number x _, .number y _ => .ok (.number (x + y) .fresh)
  | .text s _, v => .ok (.text (s ++ v.inspect) .fresh)
  | v, .text s _ => .ok (.text (v.inspect ++ s) .fresh)
  | .list xs _, .list ys _ => .ok (.list (xs ++ ys) .fresh)
  | _, _ => .error (.operands .add left right)

/-- The order of two values, if they have one: numbers other than NaN, texts, and truth values with
false before true. -/
def order? : Value → Value → Option Ordering
  | .number x _, .number y _ =>
    if x.isNaN || y.isNaN then none
    else some (if x < y then .lt else if y < x then .gt else .eq)
  | .text s _, .text t _ => some (if s < t then .lt else if t < s then .gt else .eq)
  | .bool b _, .bool c _ => some (compare b.toNat c.toNat)
  | _, _ => none

/-- A comparison; without an order it is false. -/
def comparison (holds : Ordering → Bool) (left right : Value) : Value :=
  .bool ((order? left right).any holds) .shared

/-- An arithmetic operator on numbers. -/
def arithmetic (op : Operator) (f : Float → Float → Float) (left right : Value) :
    Except Refusal Value :=
  match left, right with
  | .number x _, .number y _ => .ok (.number (f x y) .fresh)
  | _, _ => .error (.operands op left right)

/-- The value of an operator on two values. -/
def run (op : Operator) (left right : Value) : Except Refusal Value :=
  match op with
  | .add => plus left right
  | .sub => arithmetic op (· - ·) left right
  | .mul => arithmetic op (· * ·) left right
  | .div => arithmetic op (· / ·) left right
  | .rem => arithmetic op Decimal.remainder left right
  | .lt => .ok (comparison (· == .lt) left right)
  | .gt => .ok (comparison (· == .gt) left right)
  | .le => .ok (comparison (· != .gt) left right)
  | .ge => .ok (comparison (· != .lt) left right)
  | .eq => .ok (.bool (left.equal right) .shared)
  | .ne => .ok (.bool (!left.equal right) .shared)
  | .other s => .error (.unknown s)

end TreeLang.Operator
