import TreeLang.Host.Convert
import TreeLang.Eval.Machine

/-!
# Functions of the host program

A call converts its arguments to the parameter types, runs the function and converts the result
back. What goes wrong on the way is a fault of the run, except that a value which cannot be stored
crashes the host.
-/

namespace TreeLang

/-- A function of the host. `run` takes one value for each parameter; a variadic function gets the
remaining arguments as one slice. It gives one value for each result, and none at all if the
function itself is nil. -/
structure HostFunction where
  params : List HostType := []
  variadic : Bool := false
  results : List HostType := []
  run : List HostValue → Option (List HostValue)

namespace HostFunction

/-- The type of the function in the language. -/
def signature (f : HostFunction) : Except HostType.Foreign FnType :=
  HostType.signature f.params f.variadic f.results

/-- The element type of the slice at the end. -/
def remainingType (f : HostFunction) : HostType :=
  match f.params.getLast? with
  | some (.slice e) => e
  | _ => .any

/-- The parameters that take one argument each. -/
def fixedParams (f : HostFunction) : List HostType :=
  if f.variadic then f.params.dropLast else f.params

/-- The types of the places for `count` arguments. -/
def places (f : HostFunction) (count : Nat) : List HostType :=
  f.fixedParams ++ List.replicate (count - f.fixedParams.length) f.remainingType

/-- Why a call does not come about. -/
inductive Refusal where
  | fault (d : Diagnostic)
  | crash
deriving Repr

/-- The number of arguments does not fit. -/
def wrongCount (f : HostFunction) (name : String) (count : Nat) : Diagnostic :=
  runtimeFault .arityMismatch
    (name ++ " expects " ++ (if f.variadic then "at least " else "") ++
      toString f.fixedParams.length ++ " arguments, got " ++ toString count)

/-- Converts arguments from number `i` on to the types of their places. -/
def convert (name : String) : (i : Nat) → List (HostType × Value) → Except Refusal (List HostValue)
  | _, [] => .ok []
  | i, (t, v) :: rest =>
    match v.toHost (some t) with
    | .error .crash => .error .crash
    | .error (.refused why) =>
      .error (.fault (runtimeFault .unsupportedOperandKind
        (name ++ ": argument " ++ toString i ++ ": " ++ why.message)))
    | .ok x => (convert name (i + 1) rest).map (x :: ·)

/-- Stores converted arguments in their places. -/
def storeAll : List (HostType × HostValue) → Except Refusal (List HostValue)
  | [] => .ok []
  | (t, x) :: rest =>
    match x.store t with
    | .ok x => (storeAll rest).map (x :: ·)
    | .error _ => .error .crash

/-- The values for the parameters of a call. All arguments are converted before the first one is
stored. -/
def arguments (f : HostFunction) (name : String) (args : List Value) :
    Except Refusal (List HostValue) := do
  let fixed := f.fixedParams.length
  if args.length < fixed || (!f.variadic && args.length > fixed) then
    throw (.fault (f.wrongCount name args.length))
  let places := f.places args.length
  let xs ← convert name 1 (places.zip args)
  let xs ← storeAll (places.zip xs)
  pure (if f.variadic then xs.take fixed ++ [.slice f.remainingType (xs.drop fixed)] else xs)

/-- What the language sees of the results: a failure at the end is a fault, and else the first value
counts. -/
def reply (f : HostFunction) (name : String) (results : List HostValue) : HostReply :=
  match f.results.getLast?, results.getLast? with
  | some .error, some (.failure text) =>
    .fault (runtimeFault .runtimeError (name ++ ": " ++ text))
  | _, _ =>
    match (results.take (HostType.valueResults f.results).length).head? with
    | none => .value .nil
    | some x =>
      match x.toValue with
      | .ok v => .value v
      | .error why => .fault (runtimeFault .runtimeError (name ++ ": result: " ++ why.message))

/-- Calls the function under a name. Tells also whether the function was reached. -/
def call (f : HostFunction) (name : String) (args : List Value) : Bool × HostReply :=
  match f.arguments name args with
  | .error (.fault d) => (false, .fault d)
  | .error .crash => (false, .crash)
  | .ok xs =>
    match f.run xs with
    | some results => (true, f.reply name results)
    | none => (false, .crash)

end HostFunction

/-- The host that has these functions, numbered in order. -/
def Host.ofFunctions (functions : List HostFunction) : Host :=
  ⟨fun id name args =>
    match functions[id]? with
    | some f => f.call name args
    | _ => (false, .crash)⟩

end TreeLang
