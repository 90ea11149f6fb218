import TreeLang.Host.Value

/-!
# Values between host and language

`HostValue.toValue` makes a value of the language from one of the host, and `Value.toHost` goes the
other way, to a type of the host or, without one, to the type that fits the value best. The entries
of a map come in no order, so they enter a dictionary in the order of their keys' texts.
-/

namespace TreeLang

/-- Why a value cannot be converted. -/
inductive Unconvertible where
  | notValue (type : String)
  | badKey (text : String)
  | scalar (source target : String)
  | list (target : String)
  | dict (target : String)
  | mapKey (why : Unconvertible)
  | mapElem (why : Unconvertible)
deriving DecidableEq, Repr

/-- The wording of a reason. -/
def Unconvertible.message : Unconvertible → String
  | .notValue type => "cannot convert " ++ type ++ " to a value"
  | .badKey text => "map key " ++ text ++ " cannot be used as a dictionary key"
  | .scalar source target => "cannot convert " ++ source ++ " to " ++ target
  | .list target => "cannot convert a list to " ++ target
  | .dict target => "cannot convert a dictionary to " ++ target
  | .mapKey why => "map key: " ++ why.message
  | .mapElem why => "map value: " ++ why.message

namespace HostValue

/-! ## Into the language -/

/-- The dictionary with these entries, put in the order of their keys' texts. -/
def dictOf (entries : List (Value × Value)) : Except Unconvertible Dict :=
  (entries.mergeSort fun a b => !(b.1.repr < a.1.repr)).foldlM (fun d (k, v) =>
    match Key.ofValue? k with
    | some key => .ok (Dict.set key v d)
    | none => .error (.badKey k.repr)) []

mutual

/-- The value of the language that a host value stands for. -/
def toValue : HostValue → Except Unconvertible Value
  | .absent => .ok .nil
  | .int _ n => .ok (.number (Float.ofInt n) .fresh)
  | .float32 x => .ok (.number x .fresh)
  | .float64 x => .ok (.number x .fresh)
  | .bool b => .ok (.bool b .fresh)
  | .text s => .ok (.text s .fresh)
  | .nilSlice _ => .ok (.list [] .fresh)
  | .slice _ items => (toValues items).map (.list · .fresh)
  | .array _ items => (toValues items).map (.list · .fresh)
  | .nilMap _ _ => .ok (.dict [] .fresh)
  | .map _ _ entries => do
    let es ← toEntries entries
    let d ← dictOf es
    pure (.dict d .fresh)
  | .nilPointer _ => .ok .nil
  | .pointer _ target => target.toValue
  | .value v => .ok v
  | .failure _ => .error (.notValue "errors.errorString")
  | .function ps v rs => .error (.notValue (HostType.name (.function ps v rs)))
  | .other n => .error (.notValue n)

/-- The values of a list, in order. -/
def toValues : List HostValue → Except Unconvertible (List Value)
  | [] => .ok []
  | x :: xs => do
    let v ← x.toValue
    let vs ← toValues xs
    pure (v :: vs)

/-- The keys and values of a map. -/
def toEntries : List (HostValue × HostValue) → Except Unconvertible (List (Value × Value))
  | [] => .ok []
  | (k, e) :: rest => do
    let key ← k.toValue.mapError .mapKey
    let elem ← e.toValue.mapError .mapElem
    let es ← toEntries rest
    pure ((key, elem) :: es)

end

end HostValue

/-! ## Out of the language -/

/-- What keeps a value from reaching a place of the host: it cannot be converted, or storing it
crashes the host. -/
inductive Obstacle where
  | refused (why : Unconvertible)
  | crash
deriving DecidableEq, Repr

namespace HostValue

/-- The value as it is stored in a place of a type. Nothing becomes the zero value. A value of the
language cannot be stored where the host has a type of its own for it, and only failures are stored
as failures. -/
def store (slot : HostType) (x : HostValue) : Except Obstacle HostValue :=
  match x, slot with
  | .absent, slot => .ok (zero slot)
  | x, .any => .ok x
  | .value v, .value => .ok (.value v)
  | .failure t, .error => .ok (.failure t)
  | .value _, _ | .failure _, _ => .error .crash
  | _, .error | _, .value => .error .crash
  | x, _ => .ok x

end HostValue

namespace Value

/-- The integer of 64 bits that a float is cut to, for a kind without sign: the upper half of the
range is reached by way of the lower. -/
def cutUnsigned (x : Float) : Int :=
  if x < 9223372036854775808 then Decimal.cut x
  else Decimal.cut (x - 9223372036854775808) + 9223372036854775808

/-- A number as a host value of a type. -/
def numberTo (x : Float) : HostType → Except Unconvertible HostValue
  | .int k => .ok (.int k (k.wrap (if k.signed then Decimal.cut x else cutUnsigned x)))
  | .float32 => .ok (.float32 x.toFloat32.toFloat)
  | .float64 => .ok (.float64 x)
  | t => .error (.scalar "float64" t.name)

/-- A text as a host value of a type: a text, its bytes or its code points. -/
def textTo (s : String) : HostType → Except Unconvertible HostValue
  | .text => .ok (.text s)
  | .slice (.int ⟨false, some 8⟩) =>
    .ok (.slice .byte (s.toUTF8.toList.map fun b => .int ⟨false, some 8⟩ b.toNat))
  | .slice (.int ⟨true, some 32⟩) =>
    .ok (.slice .rune (s.toList.map fun c => .int ⟨true, some 32⟩ c.toNat))
  | t => .error (.scalar "string" t.name)

/-- A truth value as a host value of a type. -/
def boolTo (b : Bool) : HostType → Except Unconvertible HostValue
  | .bool => .ok (.bool b)
  | t => .error (.scalar "bool" t.name)

/-- The value goes where the type leaves it open, so it takes the type that fits it best. -/
def isOpen (target : Option HostType) : Bool :=
  match target with
  | none => true
  | some t => t.isInterface

/-- The element type of the slice that a list becomes, if it can become one. -/
def elemTarget? (target : Option HostType) : Option HostType :=
  match target with
  | some (.slice e) => some e
  | t => if isOpen t then some .any else none

/-- The key and element types of the map that a dictionary becomes, if it can become one. Without a
type of its own, the keys are texts if they all are. -/
def entryTarget? (d : Dict) (target : Option HostType) : Option (HostType × HostType) :=
  let allTexts := d.all fun e => match e.1 with
    | .text .. => true
    | _ => false
  match target with
  | some (.map k e) => some (k, e)
  | t => if isOpen t then some (if allTexts then .text else .any, .any) else none

/-- A key as a host value of a type. -/
def keyToHost (k : Key) (t : HostType) : Except Unconvertible HostValue :=
  match k, t with
  | k, .value => .ok (.value k.value)
  | .number x _, t => if t.isInterface then .ok (.float64 x) else numberTo x t
  | .text s _, t => if t.isInterface then .ok (.text s) else textTo s t
  | .bool b _, t => if t.isInterface then .ok (.bool b) else boolTo b t

/-- The name of a target in messages. -/
def targetName (target : Option HostType) : String := (target.map HostType.name).getD ""

/-- A scalar by `convert` if there is a type to convert it to. -/
def scalarTo (target : Option HostType) (free : HostValue)
    (convert : HostType → Except Unconvertible HostValue) : Except Obstacle HostValue :=
  match target with
  | none => .ok free
  | some t => if t.isInterface then .ok free else (convert t).mapError .refused

/-- The target is a place for values of the language. -/
def isValueTarget : Option HostType → Bool
  | some .value => true
  | _ => false

mutual

/-- The host value that a value becomes. A place for values of the language takes the value itself,
and functions stay what they are. -/
def toHost (v : Value) (target : Option HostType) : Except Obstacle HostValue :=
  if isValueTarget target then .ok (.value v)
  else match v with
    | .nil => .ok .absent
    | .number x _ => scalarTo target (.float64 x) (numberTo x)
    | .text s _ => scalarTo target (.text s) (textTo s)
    | .bool b _ => scalarTo target (.bool b) (boolTo b)
    | .list vs _ =>
      match elemTarget? target with
      | some e => (toItems e vs).map (.slice e)
      | none => .error (.refused (.list (targetName target)))
    | .dict es _ =>
      match entryTarget? es target with
      | some (k, e) => (toHostEntries k e es []).map (.map k e)
      | none => .error (.refused (.dict (targetName target)))
    | .function f => .ok (.value (.function f))
    | .builtin b => .ok (.value (.builtin b))

/-- The items of a slice with elements of a type. -/
def toItems (elem : HostType) : List Value → Except Obstacle (List HostValue)
  | [] => .ok []
  | v :: vs => do
    let x ← toHost v (some elem)
    let x ← x.store elem
    let xs ← toItems elem vs
    pure (x :: xs)

/-- The entries of a map with keys and elements of given types; `done` has those so far. -/
def toHostEntries (key elem : HostType) :
    List (Key × Value) → (done : List (HostValue × HostValue)) →
    Except Obstacle (List (HostValue × HostValue))
  | [], done => .ok done
  | (k, v) :: rest, done => do
    let a ← (keyToHost k key).mapError fun why => .refused (.mapKey why)
    let b ← match toHost v (some elem) with
      | .error (.refused why) => .error (.refused (.mapElem why))
      | other => other
    let a ← a.store key
    let b ← b.store elem
    toHostEntries key elem rest (HostValue.putEntry a b done)

end

end Value

end TreeLang
