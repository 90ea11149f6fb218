import TreeLang.Ty.Basic
import TreeLang.Text.Pieces

/-!
# Types of the host program

The host binds functions and hands over values of its own types. Numbers, texts, truth values, lists
and maps have a counterpart in the language, and so has a function of such types.
-/

namespace TreeLang

/-- A kind of whole numbers: with or without sign, and of a width in bits. Without a width they have
that of a machine word, 64. -/
structure IntKind where
  signed : Bool
  width : Option Nat := none
deriving DecidableEq, Repr, Inhabited

namespace IntKind

/-- The name of a kind. -/
def name (k : IntKind) : String :=
  (if k.signed then "int" else "uint") ++ (k.width.map toString).getD ""

/-- The number of values. -/
def modulus (k : IntKind) : Nat := Nat.pow 2 (k.width.getD 64)

/-- The value of the kind that a number wraps around to. -/
def wrap (k : IntKind) (n : Int) : Int := if k.signed then n.bmod k.modulus else n % k.modulus

end IntKind

/-- A type of the host. `any` holds a value of any type, `value` a value of the language, `error` a
failure; a value of these three may also be absent. Of a variadic function the last parameter is the
slice of the remaining arguments. Types that nothing is done with have only a name. -/
inductive HostType where
  | int (kind : IntKind)
  | float32
  | float64
  | bool
  | text
  | any
  | error
  | value
  | slice (elem : HostType)
  | array (size : Nat) (elem : HostType)
  | pointer (elem : HostType)
  | map (key elem : HostType)
  | function (params : List HostType) (variadic : Bool) (results : List HostType)
  | other (name : String)
deriving Repr, Inhabited

namespace HostType

/-- Bytes. -/
def byte : HostType := .int ⟨false, some 8⟩

/-- Code points. -/
def rune : HostType := .int ⟨true, some 32⟩

mutual

/-- The name of a type in messages. -/
def name : HostType → String
  | .int k => k.name
  | .float32 => "float32"
  | .float64 => "float64"
  | .bool => "bool"
  | .text => "string"
  | .any => "interface \x7b\x7d"
  | .error => "error"
  | .value => "evaluator.Object"
  | .slice e => "[]" ++ e.name
  | .array n e => "[" ++ toString n ++ "]" ++ e.name
  | .pointer e => "*" ++ e.name
  | .map k e => "map[" ++ k.name ++ "]" ++ e.name
  | .function params variadic results =>
    "func(" ++ paramNames variadic params ++ ")" ++ match results with
      | [] => ""
      | [r] => " " ++ r.name
      | rs => " (" ++ paramNames false rs ++ ")"
  | .other n => n

/-- The names of parameters with commas between them; dots mark the remaining arguments. -/
def paramNames (variadic : Bool) : List HostType → String
  | [] => ""
  | [.slice e] => (if variadic then "..." else "[]") ++ e.name
  | [t] => t.name
  | t :: ts => t.name ++ ", " ++ paramNames variadic ts

end

/-- The type says nothing about its values but that they may be absent. -/
def isInterface : HostType → Bool
  | .any | .error | .value => true
  | _ => false

/-! ## Counterparts in the language -/

/-- Why a type has no counterpart. -/
inductive Foreign where
  | type (name : String)
  | parameter (index : Nat) (why : Foreign)
  | result (why : Foreign)
  | results (count : Nat)
deriving DecidableEq, Repr

/-- The wording of a reason. -/
def Foreign.message : Foreign → String
  | .type name => "no language type for Go type " ++ name
  | .parameter i why => "parameter " ++ toString i ++ ": " ++ why.message
  | .result why => "result: " ++ why.message
  | .results n =>
    "functions may return one value and an optional error, got " ++ toString n ++ " results"

/-- The results of a function less the failure at the end. -/
def valueResults (results : List HostType) : List HostType :=
  match results.getLast? with
  | some .error => results.dropLast
  | _ => results

/-- The last type stands for the elements of the list that it is. -/
def remaining : List Ty → List Ty
  | [] => []
  | [.list e] => [e]
  | t :: ts => t :: remaining ts

mutual

/-- The counterpart of a type. A function may end with a failure, which is no part of its type. -/
def toTy : HostType → Except Foreign Ty
  | .int _ | .float32 | .float64 => .ok .number
  | .text => .ok .text
  | .bool => .ok .boolean
  | .slice e => e.toTy.map .list
  | .array _ e => e.toTy.map .list
  | .map k e => do
    let key ← k.toTy
    let value ← e.toTy
    pure (.dict key value)
  | .function params variadic results => do
    let ps ← paramTys 0 params
    let r ← resultTy results.length results
    pure (.fn (if variadic then remaining ps else ps) r variadic)
  | t => .error (.type t.name)

/-- The counterparts of the parameters from `index` on. -/
def paramTys (index : Nat) : List HostType → Except Foreign (List Ty)
  | [] => .ok []
  | p :: ps => do
    let t ← p.toTy.mapError (.parameter index)
    let ts ← paramTys (index + 1) ps
    pure (t :: ts)

/-- The counterpart of the one result, if it is one; `count` is the number of all. -/
def resultTy (count : Nat) : List HostType → Except Foreign Ty
  | [] => .ok .void
  | [.error] => .ok .void
  | [t] => t.toTy.mapError .result
  | [t, .error] => t.toTy.mapError .result
  | _ => .error (.results count)

end

/-- The signature of a function of the host in the language. -/
def signature (params : List HostType) (variadic : Bool) (results : List HostType) :
    Except Foreign FnType :=
  match toTy (.function params variadic results) with
  | .ok t => (FnType.ofTy? t).elim (.error (.type t.render)) .ok
  | .error why => .error why

end HostType

end TreeLang
