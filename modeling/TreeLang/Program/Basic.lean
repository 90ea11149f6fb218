import TreeLang.Ty.Basic

/-!
# Programs

A program is a list of function definitions and a list of top-level expressions that run in order.
Expressions are trees; an operator may be unknown, which only shows when it is checked or applied.
-/

namespace TreeLang

/-- An operator. -/
inductive Operator where
  | add
  | sub
  | mul
  | div
  | rem
  | lt
  | gt
  | le
  | ge
  | eq
  | ne
  | other (symbol : String)
deriving DecidableEq, Repr, Inhabited

namespace Operator

/-- The operators of the language. -/
def known : List Operator := [.add, .sub, .mul, .div, .rem, .lt, .gt, .le, .ge, .eq, .ne]

/-- The written form of an operator. -/
def symbol : Operator → String
  | .add => "+"
  | .sub => "-"
  | .mul => "*"
  | .div => "/"
  | .rem => "%"
  | .lt => "<"
  | .gt => ">"
  | .le => "<="
  | .ge => ">="
  | .eq => "=="
  | .ne => "!="
  | .other s => s

/-- The operator of the language with a written form. -/
def ofSymbol? (s : String) : Option Operator := known.find? (·.symbol == s)

/-- The operator with a written form, known or not. -/
def ofSymbol (s : String) : Operator := (ofSymbol? s).getD (.other s)

/-- How tightly an operator binds; unknown ones bind tightest. -/
def precedence : Operator → Nat
  | .eq | .ne => 3
  | .lt | .gt | .le | .ge => 4
  | .add | .sub => 7
  | .mul | .div | .rem => 8
  | .other _ => 10

end Operator

/-- An expression. -/
inductive Expr where
  | number (value : Float)
  | text (value : String)
  | bool (value : Bool)
  | ref (name : String)
  | assign (name : String) (value : Expr)
  | binary (op : Operator) (left right : Expr)
  | call (name : String) (args : List Expr)
  | ite (cond thenBranch elseBranch : Expr)
  | loop (cond body : Expr)
  | seq (bodies : List Expr)
  | list (elems : List Expr)
  | dict (entries : List (Expr × Expr))
deriving Repr, Inhabited

/-- A parameter; its type is missing when it is not declared. -/
structure Param where
  name : String
  type : Ty := .missing
deriving Repr, Inhabited

/-- A function definition with its type parameters. -/
structure FunctionDef where
  name : String
  params : List Param := []
  result : Ty := .missing
  body : Expr
  typeParams : List String := []
deriving Repr, Inhabited

namespace FunctionDef

/-- The declared type. -/
def signature (d : FunctionDef) : FnType := ⟨d.params.map (·.type), d.result, false⟩

/-- The parameter names in order. -/
def paramNames (d : FunctionDef) : List String := d.params.map (·.name)

/-- All types are declared. -/
def isTyped (d : FunctionDef) : Bool :=
  !d.result.isMissing && d.params.all fun p => !p.type.isMissing

end FunctionDef

/-- A program and the file it came from. -/
structure Program where
  file : String := ""
  defs : List FunctionDef := []
  exprs : List Expr := []
deriving Repr, Inhabited

end TreeLang
