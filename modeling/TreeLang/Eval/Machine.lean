import TreeLang.Eval.Builtins
import TreeLang.Eval.Operators

/-!
# The evaluator

A machine knows the user functions, the builtin ones, the scoping policy and what the host does.
`eval` runs an expression with a bound on nesting: every expression inside another one, and every
function body, is one level deeper, and at the bound the run faults. One level is `step`, which
takes the evaluation of the next level as a parameter.

A callback has fewer arguments than the call it comes from: `reduce` is called with three and calls
back with two, `map` and `filter` are called with two and call back with one. This bounds how deep
builtin functions can call each other.
-/

namespace TreeLang

/-- What a host function answers. -/
inductive HostReply where
  | value (v : Value)
  | fault (d : Diagnostic)
  | crash
deriving Repr, Inhabited

/-- The program around the language: it answers calls of bound functions, and says whether the
function itself was reached. -/
structure Host where
  call : (id : Nat) → (name : String) → List Value → Bool × HostReply

/-- A host without functions. -/
def Host.none : Host := ⟨fun _ _ _ => (false, .value .nil)⟩

instance : Inhabited Host := ⟨Host.none⟩

/-- All that stays the same while a program runs. -/
structure Machine where
  functions : Table UserFunction := ∅
  builtins : Table Builtin := ∅
  scoping : Scoping := .static
  /-- The bound on nesting; zero means the default one. -/
  maxDepth : Nat := 0
  /-- The run has been called off. -/
  cancelled : Bool := false
  /-- The number of the next definition. -/
  nextStamp : Nat := 0
  host : Host := Host.none

namespace Machine

/-- The table of builtin functions. -/
def prelude : Table Builtin :=
  Table.ofList (Primitive.all.map fun p => (p.name, Builtin.ofPrimitive p))

/-- A machine with the builtin functions only. -/
def initial : Machine := { builtins := prelude }

/-- The default bound on nesting. -/
def defaultDepth : Nat := 10000

/-- The bound on nesting. -/
def depth (m : Machine) : Nat := if m.maxDepth = 0 then defaultDepth else m.maxDepth

/-- Adds or replaces a user function. -/
def define (m : Machine) (d : FunctionDef) : Machine :=
  { m with
    functions := m.functions.insert d.name ⟨m.nextStamp, d⟩
    nextStamp := m.nextStamp + 1 }

/-- Adds or replaces a builtin function. -/
def defineBuiltin (m : Machine) (b : Builtin) : Machine :=
  { m with builtins := m.builtins.insert b.name b }

/-- The function with a name: user functions first, then builtin ones. -/
def function? (m : Machine) (name : String) : Option Value :=
  match m.functions.get? name with
  | some f => some (.function f)
  | none => (m.builtins.get? name).map .builtin

end Machine

/-- How far an expression in a report is shown. -/
def reportWidth : Nat := 60

/-- A fault of the run time at an expression. -/
def faultAt (e : Expr) (code : Code) (text : String) : Diagnostic :=
  { code, phase := .runtime, text, node := e.compact reportWidth }

namespace Exec

/-- Calls a host function and records the call. -/
def callHost (host : Host) (id : Nat) (name : String) (args : List Value) : Exec Value := fun s =>
  let (reached, reply) := host.call id name args
  let s :=
    if reached then
      { s with channels := { s.channels with calls := s.channels.calls ++ [⟨id, name, args⟩] } }
    else s
  match reply with
  | .value v => (.value v, s)
  | .fault d => (.fault d, s)
  | .crash => (.crash, s)

/-- Calls a user function by `body`, which evaluates its body. -/
def callUser (m : Machine) (body : Expr → Exec Value) (f : UserFunction) (args : List Value) :
    Exec Value :=
  let d := f.definition
  if args.length ≠ d.params.length then
    Exec.fault (runtimeFault .arityMismatch
      ("function " ++ d.name ++ " expects " ++ Text.counted d.params.length "argument" ++
        ", got " ++ toString args.length))
  else
    Exec.within (fun s => m.scoping.callFrame s.frame d.paramNames args) (body d.body)

/-- Calls a value on arguments. `level` bounds how deep builtin functions call each other; the
number of arguments is enough. -/
def apply (m : Machine) (body : Expr → Exec Value) : (level : Nat) → Value → List Value → Exec Value
  | level, f, args =>
    match f with
    | .function f => callUser m body f args
    | .builtin b =>
      match b.callee with
      | .host id => do make (← callHost m.host id b.name args)
      | .primitive p =>
        match level with
        | 0 => do make (← p.run (fun _ _ => Exec.pure .nil) args)
        | level + 1 => do make (← p.run (apply m body level) args)
    | v => Exec.fault (runtimeFault .unsupportedOperandKind (v.kindName ++ " is not a function"))

/-- Evaluates expressions from left to right; `done` has the values so far, backwards. -/
def evalAll (rec : Expr → Exec Value) : List Expr → (done : List Value) → Exec (List Value)
  | [], done => Exec.pure done.reverse
  | e :: es, done => fun s =>
    match rec e s with
    | (.value v, s) => evalAll rec es (v :: done) s
    | (.fault d, s) => (.fault d, s)
    | (.crash, s) => (.crash, s)
    | (.unfinished, s) => (.unfinished, s)

/-- Evaluates expressions in order; the value is that of the last one. -/
def evalSeq (rec : Expr → Exec Value) : List Expr → (last : Value) → Exec Value
  | [], last => Exec.pure last
  | e :: es, _ => fun s =>
    match rec e s with
    | (.value v, s) => evalSeq rec es v s
    | (.fault d, s) => (.fault d, s)
    | (.crash, s) => (.crash, s)
    | (.unfinished, s) => (.unfinished, s)

/-- Evaluates the entries of a dictionary, key before value; `done` has those so far. A repeated key
keeps its place and takes the last value. -/
def evalEntries (rec : Expr → Exec Value) : List (Expr × Expr) → (done : Dict) → Exec Dict
  | [], done => Exec.pure done
  | (k, v) :: es, done => fun s =>
    match rec k s with
    | (.value key, s) =>
      match rec v s with
      | (.value value, s) =>
        match Key.ofValue? key with
        | some id => evalEntries rec es (Dict.set id value done) s
        | none =>
          (.fault (faultAt k .unsupportedOperandKind
            (key.kindName ++ " cannot be used as a dictionary key")), s)
      | (.fault d, s) => (.fault d, s)
      | (.crash, s) => (.crash, s)
      | (.unfinished, s) => (.unfinished, s)
    | (.fault d, s) => (.fault d, s)
    | (.crash, s) => (.crash, s)
    | (.unfinished, s) => (.unfinished, s)

/-- Repeats a body while a condition holds, for at most `turns` turns. -/
def repeatWhile (cond body : Exec Value) : (turns : Nat) → Exec Value
  | 0 => fun s => (.unfinished, s)
  | turns + 1 => fun s =>
    match cond s with
    | (.value c, s) =>
      if c.truthy then
        match body s with
        | (.value _, s) => repeatWhile cond body turns s
        | (.fault d, s) => (.fault d, s)
        | (.crash, s) => (.crash, s)
        | (.unfinished, s) => (.unfinished, s)
      else (.value .nil, s)
    | (.fault d, s) => (.fault d, s)
    | (.crash, s) => (.crash, s)
    | (.unfinished, s) => (.unfinished, s)

/-- What a call refers to: a function of that name, else a variable that holds one. -/
def callee (m : Machine) (e : Expr) (name : String) : Exec Value := fun s =>
  match m.function? name with
  | some f => (.value f, s)
  | none =>
    match s.frame.get? name with
    | none =>
      (.fault (faultAt e .undefinedFunction ("function " ++ name ++ " is not defined")), s)
    | some v =>
      if v.isCallable then (.value v, s)
      else
        (.fault (faultAt e .unsupportedOperandKind
          (name ++ " is not a function, it is a " ++ v.kindName)), s)

/-- A variable, or a function when no variable has the name. -/
def reference (m : Machine) (e : Expr) (name : String) : Exec Value := fun s =>
  match s.frame.get? name with
  | some v => (.value v, s)
  | none =>
    match m.function? name with
    | some f => (.value f, s)
    | none => (.fault (faultAt e .undefinedVariable ("variable " ++ name ++ " is not defined")), s)

/-- One level of evaluation; `rec` evaluates the next level and `turns` bounds each loop. -/
def step (m : Machine) (turns : Nat) (rec : Expr → Exec Value) (e : Expr) : Exec Value :=
  match e with
  | .number x => make (.number x .fresh)
  | .text s => make (.text s .fresh)
  | .bool b => Exec.pure (.bool b .shared)
  | .ref name => reference m e name
  | .assign name value => do
    let v ← rec value
    Exec.assign name v
  | .binary op left right => do
    let l ← rec left
    let r ← rec right
    match op.run l r with
    | .ok v => make v
    | .error refusal => Exec.fault (refusal.diagnostic.withNode (e.compact reportWidth))
  | .call name args => do
    let f ← callee m e name
    let vs ← evalAll rec args []
    Exec.onFault (·.withNode (e.compact reportWidth)) (apply m rec vs.length f vs)
  | .ite c t f => do
    let v ← rec c
    if v.truthy then rec t else rec f
  | .loop c b => repeatWhile (rec c) (rec b) turns
  | .seq bodies => evalSeq rec bodies .nil
  | .list elems => do
    let vs ← evalAll rec elems []
    make (.list vs .fresh)
  | .dict entries => do
    let d ← evalEntries rec entries []
    make (.dict d .fresh)

/-- Evaluates an expression with at most `depth` levels of nesting. -/
def eval (m : Machine) (turns : Nat) : (depth : Nat) → Expr → Exec Value
  | 0, e => Exec.fault (faultAt e .runtimeError "maximum recursion depth exceeded")
  | depth + 1, e =>
    if m.cancelled then
      Exec.fault (faultAt e .runtimeError "execution cancelled: context canceled")
    else step m turns (eval m turns depth) e

end Exec

namespace Machine

/-- Evaluates an expression at the top level. -/
def evalExpr (m : Machine) (turns : Nat) (e : Expr) : Exec Value := Exec.eval m turns m.depth e

/-- Calls a value from the top level. -/
def call (m : Machine) (turns : Nat) (f : Value) (args : List Value) : Exec Value :=
  Exec.apply m (Exec.eval m turns m.depth) args.length f args

/-- The machine with the functions of a program. -/
def defineAll (m : Machine) (defs : List FunctionDef) : Machine := defs.foldl define m

/-- Runs the expressions of a program whose functions the machine knows. -/
def runExprs (m : Machine) (turns : Nat) (p : Program) : Exec Value :=
  Exec.onFault (·.withFile p.file) (Exec.evalSeq (m.evalExpr turns) p.exprs .nil)

/-- Defines the functions of a program and runs its expressions. -/
def runProgram (m : Machine) (turns : Nat) (p : Program) : Exec Value :=
  (m.defineAll p.defs).runExprs turns p

end Machine

end TreeLang
