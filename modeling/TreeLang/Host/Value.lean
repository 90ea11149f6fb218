import TreeLang.Host.Type
import TreeLang.Value.Basic

/-!
# Values of the host program

A value of the host carries its type. Slices, maps and pointers may be nil, and an absent value is
what the types `any`, `value` and `error` hold when they hold nothing.
-/

namespace TreeLang

/-- A value of the host. Numbers of the narrow float type are kept as the wide floats that they are
equal to. Functions of the host appear among values only by their type. -/
inductive HostValue where
  | absent
  | int (kind : IntKind) (n : Int)
  | float32 (x : Float)
  | float64 (x : Float)
  | bool (b : Bool)
  | text (s : String)
  | nilSlice (elem : HostType)
  | slice (elem : HostType) (items : List HostValue)
  | array (elem : HostType) (items : List HostValue)
  | nilMap (key elem : HostType)
  | map (key elem : HostType) (entries : List (HostValue × HostValue))
  | nilPointer (elem : HostType)
  | pointer (elem : HostType) (target : HostValue)
  | value (v : Value)
  | failure (text : String)
  | function (params : List HostType) (variadic : Bool) (results : List HostType)
  | other (name : String)
deriving Repr, Inhabited

namespace HostValue

/-- The type that a value carries. Absent values, values of the language and failures have none that
the host could declare. -/
def type? : HostValue → Option HostType
  | .absent | .value _ | .failure _ => none
  | .int k _ => some (.int k)
  | .float32 _ => some .float32
  | .float64 _ => some .float64
  | .bool _ => some .bool
  | .text _ => some .text
  | .nilSlice e | .slice e _ => some (.slice e)
  | .array e items => some (.array items.length e)
  | .nilMap k e | .map k e _ => some (.map k e)
  | .nilPointer e | .pointer e _ => some (.pointer e)
  | .function ps v rs => some (.function ps v rs)
  | .other n => some (.other n)

/-- The name of a language value's kind to the host. -/
def kindTypeName : Value → String
  | .number .. => "*evaluator.Number"
  | .text .. => "*evaluator.String"
  | .bool .. => "*evaluator.Boolean"
  | .nil => "*evaluator.Nil"
  | .list .. => "*evaluator.List"
  | .dict .. => "*evaluator.Dict"
  | .function _ => "*evaluator.Function"
  | .builtin _ => "*evaluator.Builtin"

/-- The name of the type that a value carries, in messages. -/
def typeName (x : HostValue) : String :=
  match x with
  | .absent => "<nil>"
  | .value v => kindTypeName v
  | .failure _ => "*errors.errorString"
  | x => (x.type?.map HostType.name).getD ""

/-- The value that a type has before anything is stored. -/
def zero : HostType → HostValue
  | .int k => .int k 0
  | .float32 => .float32 0
  | .float64 => .float64 0
  | .bool => .bool false
  | .text => .text ""
  | .any | .error | .value => .absent
  | .slice e => .nilSlice e
  | .array n e => .array e (List.replicate n (zero e))
  | .pointer e => .nilPointer e
  | .map k e => .nilMap k e
  | .function ps v rs => .function ps v rs
  | .other n => .other n

/-! ## Maps -/

mutual

/-- Two values are the same key of a map. Pointers are never the same, and NaN is not the same as
itself. -/
def sameKey : HostValue → HostValue → Bool
  | .absent, .absent => true
  | .int k n, .int l m => k == l && n == m
  | .float32 x, .float32 y => x == y
  | .float64 x, .float64 y => x == y
  | .bool a, .bool b => a == b
  | .text a, .text b => a == b
  | .array _ xs, .array _ ys => sameKeys xs ys
  | .other a, .other b => a == b
  | _, _ => false

/-- Values are the same keys one by one. -/
def sameKeys : List HostValue → List HostValue → Bool
  | [], [] => true
  | x :: xs, y :: ys => sameKey x y && sameKeys xs ys
  | _, _ => false

end

/-- The entries of a map with one more; an entry under the same key is replaced. -/
def putEntry (key elem : HostValue) : List (HostValue × HostValue) → List (HostValue × HostValue)
  | [] => [(key, elem)]
  | (k, e) :: rest =>
    if sameKey k key then (key, elem) :: rest else (k, e) :: putEntry key elem rest

/-- The entries of a map that are put one after the other. -/
def ofEntries (entries : List (HostValue × HostValue)) : List (HostValue × HostValue) :=
  entries.foldl (fun es e => putEntry e.1 e.2 es) []

end HostValue

end TreeLang
