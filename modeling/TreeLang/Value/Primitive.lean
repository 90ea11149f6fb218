import TreeLang.Ty.Basic

/-!
# Builtin functions

The functions that every program can call, with their declared types and type parameters. The
checker and the evaluator both take them from here.
-/

namespace TreeLang

/-- A builtin function. -/
inductive Primitive where
  | print
  | input
  | add
  | mul
  | len
  | map
  | filter
  | reduce
  | toUpperCase
  | split
  | join
  | keys
  | values
  | get
  | hasKey
  | merge
  | and
  | or
  | not
deriving DecidableEq, Repr, Inhabited

namespace Primitive

/-- All builtin functions. -/
def all : List Primitive :=
  [.print, .input, .add, .mul, .len, .map, .filter, .reduce, .toUpperCase, .split, .join, .keys,
    .values, .get, .hasKey, .merge, .and, .or, .not]

/-- The list of builtin functions is complete. -/
theorem mem_all (p : Primitive) : p ∈ all := by cases p <;> decide

/-- The name of a builtin function. -/
def name : Primitive → String
  | .print => "print"
  | .input => "input"
  | .add => "add"
  | .mul => "mul"
  | .len => "len"
  | .map => "map"
  | .filter => "filter"
  | .reduce => "reduce"
  | .toUpperCase => "toUpperCase"
  | .split => "split"
  | .join => "join"
  | .keys => "keys"
  | .values => "values"
  | .get => "get"
  | .hasKey => "hasKey"
  | .merge => "merge"
  | .and => "and"
  | .or => "or"
  | .not => "not"

/-- The type parameters of a builtin function. -/
def typeParams : Primitive → List String
  | .print | .len | .filter => ["T"]
  | .map | .reduce => ["T", "U"]
  | .keys | .values | .get | .hasKey | .merge => ["K", "V"]
  | _ => []

/-- The declared type of a builtin function. -/
def type : Primitive → FnType
  | .print => ⟨[.var "T"], .var "T", false⟩
  | .input => ⟨[], .text, false⟩
  | .add | .mul => ⟨[.number], .number, true⟩
  | .len => ⟨[.var "T"], .number, false⟩
  | .map =>
    ⟨[.list (.var "T"), .fn [.var "T"] (.var "U") false], .list (.var "U"), false⟩
  | .filter =>
    ⟨[.list (.var "T"), .fn [.var "T"] .boolean false], .list (.var "T"), false⟩
  | .reduce =>
    ⟨[.list (.var "T"), .fn [.var "U", .var "T"] (.var "U") false, .var "U"], .var "U", false⟩
  | .toUpperCase => ⟨[.text], .text, false⟩
  | .split => ⟨[.text, .text], .list .text, false⟩
  | .join => ⟨[.list .text, .text], .text, false⟩
  | .keys => ⟨[.dict (.var "K") (.var "V")], .list (.var "K"), false⟩
  | .values => ⟨[.dict (.var "K") (.var "V")], .list (.var "V"), false⟩
  | .get => ⟨[.dict (.var "K") (.var "V"), .var "K"], .var "V", false⟩
  | .hasKey => ⟨[.dict (.var "K") (.var "V"), .var "K"], .boolean, false⟩
  | .merge =>
    ⟨[.dict (.var "K") (.var "V"), .dict (.var "K") (.var "V")], .dict (.var "K") (.var "V"),
      false⟩
  | .and | .or => ⟨[.boolean, .boolean], .boolean, false⟩
  | .not => ⟨[.boolean], .boolean, false⟩

end Primitive

end TreeLang
