import TreeLang.Table

/-!
# Types

Type constants, variables, lists, dictionaries and functions. The last parameter of a variadic
function may repeat. `Ty.missing` is the type that an untyped declaration leaves out; it is written
`?` inside another type and is the same as no type, not even itself.
-/

namespace TreeLang

/-- A type of the language. -/
inductive Ty where
  | missing
  | var (name : String)
  | con (name : String)
  | list (elem : Ty)
  | dict (key value : Ty)
  | fn (params : List Ty) (result : Ty) (variadic : Bool)
deriving Repr, Inhabited

namespace Ty

/-- The type of numbers. -/
def number : Ty := .con "Number"

/-- The type of texts. -/
def text : Ty := .con "String"

/-- The type of truth values. -/
def boolean : Ty := .con "Boolean"

/-- The type of loops and of empty sequences. -/
def void : Ty := .con "Void"

/-- The type is left out. -/
def isMissing : Ty → Bool
  | .missing => true
  | _ => false

/-! ## Text -/

mutual

/-- The written form of a type. -/
def render : Ty → String
  | .missing => "?"
  | .var name => name
  | .con name => name
  | .list elem => "List<" ++ elem.render ++ ">"
  | .dict key value => "Dict<" ++ key.render ++ ", " ++ value.render ++ ">"
  | .fn params result variadic => "(" ++ renderParams variadic params ++ ") -> " ++ result.render

/-- The parameters with commas between them; dots stand before the last one if it may repeat. -/
def renderParams (variadic : Bool) : List Ty → String
  | [] => if variadic then "..." else ""
  | [p] => if variadic then "..." ++ p.render else p.render
  | p :: ps => p.render ++ ", " ++ renderParams variadic ps

end

/-- A type inside a message, where a missing one shows as an absent argument. -/
def shown : Ty → String
  | .missing => "%!s(<nil>)"
  | t => t.render

/-! ## Structural equality -/

mutual

/-- The two types have the same structure and the same names; a missing type equals nothing. -/
def same : Ty → Ty → Bool
  | .con a, .con b => a == b
  | .var a, .var b => a == b
  | .list a, .list b => same a b
  | .dict a b, .dict c d => same a c && same b d
  | .fn ps r v, .fn qs s w => v == w && sameAll ps qs && same r s
  | _, _ => false

/-- The types are the same one by one. -/
def sameAll : List Ty → List Ty → Bool
  | [], [] => true
  | a :: as, b :: bs => same a b && sameAll as bs
  | _, _ => false

end

/-! ## Variables and size -/

mutual

/-- All occurrences of variables, left to right. -/
def occurrences : Ty → List String
  | .missing => []
  | .con _ => []
  | .var name => [name]
  | .list elem => elem.occurrences
  | .dict key value => key.occurrences ++ value.occurrences
  | .fn params result _ => occurrencesAll params ++ result.occurrences

/-- All occurrences of variables in a list of types. -/
def occurrencesAll : List Ty → List String
  | [] => []
  | t :: ts => t.occurrences ++ occurrencesAll ts

end

/-- Each name once, at its first place. -/
def firsts : List String → List String
  | [] => []
  | n :: rest => n :: (firsts rest).filter (· ≠ n)

/-- The variables of a type in order of first occurrence. -/
def freeVars (t : Ty) : List String := firsts t.occurrences

mutual

/-- The number of constructors. -/
def size : Ty → Nat
  | .missing => 1
  | .con _ => 1
  | .var _ => 1
  | .list elem => elem.size + 1
  | .dict key value => key.size + value.size + 1
  | .fn params result _ => sizeAll params + result.size + 1

/-- The number of constructors in a list of types. -/
def sizeAll : List Ty → Nat
  | [] => 0
  | t :: ts => t.size + sizeAll ts

end

end Ty

/-- The type of a function: its parameters, its result, and whether the last parameter repeats. -/
structure FnType where
  params : List Ty
  result : Ty
  variadic : Bool := false
deriving Repr, Inhabited

namespace FnType

/-- The function type as a type. -/
def toTy (f : FnType) : Ty := .fn f.params f.result f.variadic

/-- The function type that a type is, if it is one. -/
def ofTy? : Ty → Option FnType
  | .fn params result variadic => some ⟨params, result, variadic⟩
  | _ => none

/-- The function takes `n` arguments: as many as it has parameters, or any number from one less on
if the last parameter repeats. -/
def accepts (f : FnType) (n : Int) : Bool :=
  if f.variadic then (f.params.length : Int) - 1 ≤ n else n == f.params.length

/-- The declared type of argument `i`; the last parameter of a variadic function repeats. -/
def paramAt? (f : FnType) (i : Nat) : Option Ty :=
  if f.variadic && f.params.length ≤ i + 1 then f.params.getLast? else f.params[i]?

/-- The number of arguments in words. -/
def arity (f : FnType) : String :=
  if f.variadic then "at least " ++ toString ((f.params.length : Int) - 1) ++ " arguments"
  else if f.params.length = 1 then "1 argument"
  else toString f.params.length ++ " arguments"

end FnType

end TreeLang
