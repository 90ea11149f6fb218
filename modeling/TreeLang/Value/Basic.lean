import TreeLang.Value.Primitive
import TreeLang.Program.Basic
import TreeLang.Text.Quoted
import TreeLang.Decimal.Written

/-!
# Values

What expressions evaluate to: numbers, texts, truth values, nil, lists, dictionaries and functions.
Dictionaries keep their entries in order of first insertion; their keys are numbers, texts and truth
values. Two numbers are the same key when they have the same text, so `0` and `-0` differ and NaN is
one key.

A value also knows which object it is, so that one can tell whether a variable holds the very object
that it held before. This has no part in what a value says: neither its text, nor its type, nor
equality depends on it. Main statements: `Value.equal` compares what values say, and
`Value.sameObject` compares objects.
-/

namespace TreeLang

/-- A user function as a value. Two of them are the same function when they come from the same act
of defining, which the stamp records. -/
structure UserFunction where
  stamp : Nat
  definition : FunctionDef
deriving Repr, Inhabited

/-- What a callable that is no user function does: a builtin function, or a function of the host
program by its number. -/
inductive Callee where
  | primitive (p : Primitive)
  | host (id : Nat)
deriving DecidableEq, Repr, Inhabited

/-- A callable that is no user function. -/
structure Builtin where
  name : String
  type : FnType
  typeParams : List String := []
  callee : Callee
deriving Repr, Inhabited

/-- The callable of a builtin function. -/
def Builtin.ofPrimitive (p : Primitive) : Builtin := ⟨p.name, p.type, p.typeParams, .primitive p⟩

/-- Which object a value is. A computation makes a new object, which is `fresh` until the run gives
it a number. The two truth values of the language are `shared` by all that compute them. -/
inductive Identity where
  | fresh
  | shared
  | made (n : Nat)
deriving DecidableEq, Repr, Inhabited

/-- A key of a dictionary. -/
inductive Key where
  | number (x : Float) (id : Identity)
  | text (s : String) (id : Identity)
  | bool (b : Bool) (id : Identity)
deriving Repr, Inhabited

/-- A value. -/
inductive Value where
  | number (x : Float) (id : Identity)
  | text (s : String) (id : Identity)
  | bool (b : Bool) (id : Identity)
  | nil
  | list (elems : List Value) (id : Identity)
  | dict (entries : List (Key × Value)) (id : Identity)
  | function (f : UserFunction)
  | builtin (b : Builtin)
deriving Repr, Inhabited

/-! ## Keys and dictionaries -/

/-- What makes two keys the same: the bits of a number, with one pattern for NaN, or the key
itself. -/
inductive KeyId where
  | number (bits : UInt64)
  | text (s : String)
  | bool (b : Bool)
deriving DecidableEq, Repr

namespace Key

/-- The identity of a key. -/
def id : Key → KeyId
  | .number x _ => .number (if x.isNaN then 0x7FF8000000000001 else x.toBits)
  | .text s _ => .text s
  | .bool b _ => .bool b

/-- The key as a value. -/
def value : Key → Value
  | .number x id => .number x id
  | .text s id => .text s id
  | .bool b id => .bool b id

/-- The key that a value is, if it can be one. -/
def ofValue? : Value → Option Key
  | .number x id => some (.number x id)
  | .text s id => some (.text s id)
  | .bool b id => some (.bool b id)
  | _ => none

end Key

/-- The entries of a dictionary in order of first insertion. -/
abbrev Dict := List (Key × Value)

namespace Dict

/-- The value under a key. -/
def get? (k : Key) : Dict → Option Value
  | [] => none
  | (k', v) :: rest => if k'.id = k.id then some v else get? k rest

/-- The dictionary with a value under a key: in place if the key is there, else at the end. -/
def set (k : Key) (v : Value) : Dict → Dict
  | [] => [(k, v)]
  | (k', w) :: rest => if k'.id = k.id then (k', v) :: rest else (k', w) :: set k v rest

/-- The left entries, overwritten by the right ones, with new right keys behind. -/
def merge (a b : Dict) : Dict := b.foldl (fun d e => set e.1 e.2 d) a

end Dict

namespace Value

/-! ## Kinds -/

/-- The kind of a value as hosts see it. -/
def kind : Value → String
  | .number _ _ => "NUMBER"
  | .text _ _ => "STRING"
  | .bool _ _ => "BOOLEAN"
  | .nil => "NIL"
  | .list _ _ => "LIST"
  | .dict _ _ => "DICT"
  | .function _ => "FUNCTION"
  | .builtin _ => "BUILTIN"

/-- The kind of a value in messages. -/
def kindName : Value → String
  | .number _ _ => "Number"
  | .text _ _ => "String"
  | .bool _ _ => "Boolean"
  | .nil => "Nil"
  | .list _ _ => "List"
  | .dict _ _ => "Dict"
  | .function _ | .builtin _ => "Function"

/-- The value can be called. -/
def isCallable : Value → Bool
  | .function _ | .builtin _ => true
  | _ => false

/-- The value counts as true in a condition: false, zero, NaN, the empty text and nil do not. -/
def truthy : Value → Bool
  | .bool b _ => b
  | .number x _ => x != 0 && x == x
  | .text s _ => !s.isEmpty
  | .nil => false
  | _ => true

/-! ## Text -/

/-- The text of a truth value. -/
def boolText (b : Bool) : String := if b then "true" else "false"

/-- The text of a key inside a dictionary. -/
def keyRepr : Key → String
  | .number x _ => Decimal.written x
  | .text s _ => Text.quoted s
  | .bool b _ => boolText b

mutual

/-- The text of a value as it is printed: a text stands for itself. -/
def inspect : Value → String
  | .number x _ => Decimal.written x
  | .text s _ => s
  | .bool b _ => boolText b
  | .nil => "nil"
  | .list elems _ => "[" ++ reprElems elems ++ "]"
  | .dict entries _ => "\x7b" ++ reprEntries entries ++ "\x7d"
  | .function f => "<function " ++ f.definition.name ++ ">"
  | .builtin b => "<builtin " ++ b.name ++ ">"

/-- The text of a value inside a collection: a text is quoted. -/
def repr : Value → String
  | .number x _ => Decimal.written x
  | .text s _ => Text.quoted s
  | .bool b _ => boolText b
  | .nil => "nil"
  | .list elems _ => "[" ++ reprElems elems ++ "]"
  | .dict entries _ => "\x7b" ++ reprEntries entries ++ "\x7d"
  | .function f => "<function " ++ f.definition.name ++ ">"
  | .builtin b => "<builtin " ++ b.name ++ ">"

/-- The elements of a list with commas between them. -/
def reprElems : List Value → String
  | [] => ""
  | [v] => v.repr
  | v :: vs => v.repr ++ ", " ++ reprElems vs

/-- The entries of a dictionary with commas between them. -/
def reprEntries : List (Key × Value) → String
  | [] => ""
  | [(k, v)] => keyRepr k ++ ": " ++ v.repr
  | (k, v) :: es => keyRepr k ++ ": " ++ v.repr ++ ", " ++ reprEntries es

end

/-! ## Types at run time -/

/-- The type of a key. -/
def keyType : Key → Ty
  | .number _ _ => .number
  | .text _ _ => .text
  | .bool _ _ => .boolean

/-- The type that a value shows. A collection shows the type of its first entry, and an empty one
leaves it open; a user function without declared types is just a function. -/
def runtimeType : Value → Ty
  | .number _ _ => .number
  | .text _ _ => .text
  | .bool _ _ => .boolean
  | .nil => .void
  | .list [] _ => .list (.var "T")
  | .list (v :: _) _ => .list v.runtimeType
  | .dict [] _ => .dict (.var "K") (.var "V")
  | .dict ((k, v) :: _) _ => .dict (keyType k) v.runtimeType
  | .function f =>
    if f.definition.isTyped then f.definition.signature.toTy else .con "Function"
  | .builtin b => b.type.toTy

/-! ## Equality -/

mutual

/-- Structural equality. Dictionaries are equal when they have equal values under the same keys, in
any order. -/
def equal : Value → Value → Bool
  | .number x _, .number y _ => x == y
  | .text s _, .text t _ => s == t
  | .bool b _, .bool c _ => b == c
  | .nil, .nil => true
  | .list xs _, .list ys _ => equalAll xs ys
  | .dict xs _, .dict ys _ => xs.length == ys.length && equalEntries xs ys
  | .function f, .function g => f.stamp == g.stamp
  | .builtin b, .builtin c => b.name == c.name
  | _, _ => false

/-- Elements are equal one by one. -/
def equalAll : List Value → List Value → Bool
  | [], [] => true
  | x :: xs, y :: ys => equal x y && equalAll xs ys
  | _, _ => false

/-- Every entry has an equal value under the same key in `ys`. -/
def equalEntries : List (Key × Value) → Dict → Bool
  | [], _ => true
  | (k, v) :: es, ys =>
    (match Dict.get? k ys with
      | some w => equal v w
      | none => false) && equalEntries es ys

end

/-! ## Objects -/

/-- The values are the same object; fresh ones of a kind are not told apart. Nil has one object, a
user function one for each act of defining, and any other function one for each name and deed. -/
def sameObject : Value → Value → Bool
  | .nil, .nil => true
  | .bool b i, .bool c j => b == c && i == j
  | .number _ i, .number _ j
  | .text _ i, .text _ j
  | .list _ i, .list _ j
  | .dict _ i, .dict _ j => i == j
  | .function f, .function g => f.stamp == g.stamp
  | .builtin b, .builtin c => b.name == c.name && b.callee == c.callee
  | _, _ => false

@[simp] theorem sameObject_self (v : Value) : v.sameObject v = true := by
  cases v <;> simp [sameObject]

end Value

/-- Numbers a key from `n` on, if it is fresh. -/
def Key.numberFrom (n : Nat) : Key → Key × Nat
  | .number x .fresh => (.number x (.made n), n + 1)
  | .text s .fresh => (.text s (.made n), n + 1)
  | .bool b .fresh => (.bool b (.made n), n + 1)
  | k => (k, n)

mutual

/-- Numbers the fresh objects of a value from `n` on, and gives the next number. An object that has
its number contains none without. -/
def Value.numberFrom (n : Nat) : Value → Value × Nat
  | .number x .fresh => (.number x (.made n), n + 1)
  | .text s .fresh => (.text s (.made n), n + 1)
  | .bool b .fresh => (.bool b (.made n), n + 1)
  | .list elems .fresh =>
    let (elems, next) := Value.numberAllFrom (n + 1) elems
    (.list elems (.made n), next)
  | .dict entries .fresh =>
    let (entries, next) := Value.numberEntriesFrom (n + 1) entries
    (.dict entries (.made n), next)
  | v => (v, n)

/-- Numbers the fresh objects of values from `n` on. -/
def Value.numberAllFrom (n : Nat) : List Value → List Value × Nat
  | [] => ([], n)
  | v :: vs =>
    let (v, n) := v.numberFrom n
    let (vs, n) := Value.numberAllFrom n vs
    (v :: vs, n)

/-- Numbers the fresh objects of entries from `n` on. -/
def Value.numberEntriesFrom (n : Nat) : List (Key × Value) → List (Key × Value) × Nat
  | [] => ([], n)
  | (k, v) :: es =>
    let (k, n) := k.numberFrom n
    let (v, n) := v.numberFrom n
    let (es, n) := Value.numberEntriesFrom n es
    ((k, v) :: es, n)

end

end TreeLang
