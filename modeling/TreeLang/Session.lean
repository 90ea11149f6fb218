import TreeLang.Host.Function
import TreeLang.Pipeline

/-!
# Sessions

A session keeps a checker and a machine side by side: what one entry defines, the next ones see.
Entries are checked before they run, unless checking is off. If an entry does not check, the session
is as before. If it checks but its run fails, the assignments that were checked and never ran are
taken back, so that the checker knows the variables that there are.

The host program takes part: it binds functions, sets and gets variables, and calls functions.
`Request` lists what it can ask for, and `perform` does it.
-/

namespace TreeLang

/-- What is kept between entries. -/
structure Session where
  checker : Checker := {}
  machine : Machine := Machine.initial
  /-- The global variables. -/
  globals : Table Value := ∅
  /-- The number of objects made so far. -/
  made : Nat := 0
  channels : Channels := {}
  /-- The functions of the host, by number. -/
  functions : List HostFunction := []
  /-- The types of the bound functions. -/
  bindings : Table FnType := ∅
  skipCheck : Bool := false
  /-- The bound on the turns of each loop. -/
  turns : Nat := loopTurns

namespace Session

/-- Why an operation fails. -/
inductive Problem where
  | report (d : Diagnostic)
  | notFunction (name type : String)
  | unbindable (name : String) (why : HostType.Foreign)
  | unsettable (name : String) (why : Unconvertible)
  | undefinedVariable (name : String)
  | undefinedFunction (name : String)
  | badArgument (name : String) (index : Nat) (why : Unconvertible)
  | unconvertible (why : Unconvertible)
  | unknownScoping (name : String)
  | crash
  | endless
deriving Repr

/-- The wording of a problem. -/
def Problem.message : Problem → String
  | .report d => d.message
  | .notFunction name type => "bind " ++ name ++ ": expected a function, got " ++ type
  | .unbindable name why => "bind " ++ name ++ ": " ++ why.message
  | .unsettable name why => "set " ++ name ++ ": " ++ why.message
  | .undefinedVariable name => "variable " ++ name ++ " is not defined"
  | .undefinedFunction name => "function " ++ name ++ " is not defined"
  | .badArgument name i why =>
    "call " ++ name ++ ": argument " ++ toString i ++ ": " ++ why.message
  | .unconvertible why => why.message
  | .unknownScoping name => Settings.unknownScoping name
  | .crash => "crash"
  | .endless => "endless"

/-- An answer and the session after it. -/
abbrev Step (α : Type) := Except Problem α × Session

/-- The file that reports about entries name. -/
def entryFile : String := "<embed>"

/-- The problem of a text that is no document. -/
def Problem.malformed (file : String) : Problem :=
  .report ((Reader.Failure.document .malformed).diagnostic file)

/-- The problem that keeps a check from a verdict. -/
def Problem.ofHalt : Halt → Problem
  | .fault d => .report d
  | .endless => .endless

/-! ## Running -/

/-- The state in which a run starts: the globals and channels of the session. -/
def start (s : Session) : RunState := { frame := s.globals, channels := s.channels, made := s.made }

/-- Runs an evaluation on the globals and channels of the session. -/
def exec (s : Session) (x : Exec Value) : Step Value :=
  let (r, st) := x s.start
  let s := { s with globals := st.frame, channels := st.channels, made := st.made }
  match r with
  | .value v => (.ok v, s)
  | .fault d => (.error (.report d), s)
  | .crash => (.error .crash, s)
  | .unfinished => (.error .endless, s)

/-- A variable does not exist after a run, or holds the same object as before it. -/
def untouched (before after : Table Value) (name : String) : Bool :=
  match before.get? name, after.get? name with
  | _, none => true
  | none, some _ => false
  | some old, some now => now.sameObject old

/-- The scope after a failed run. Variables that the run did not touch have the types that they had
before the check. -/
def rollBack (earlier current : Scope) (before after : Table Value) : Scope :=
  current.vars.names.foldl (fun scope name =>
    if untouched before after name then scope.restoreVariable earlier name else scope) current

/-- Runs what has been checked; `earlier` is the scope before the check. A run that fails is rolled
back; one that crashes is left as it is. -/
def runChecked (s : Session) (earlier : Scope) (x : Exec Value) : Step Value :=
  match s.exec x with
  | (.error (.report d), s') =>
    let scope := rollBack earlier s'.checker.scope s.globals s'.globals
    (.error (.report d), { s' with checker := { s'.checker with scope } })
  | other => other

/-- Checks by `check`, and runs by `run` if the check succeeds; else the scope goes back to what it
was. -/
def checkAndRun {α : Type} (s : Session) (check : Checker → Except Halt α × Checker)
    (run : Session → Session × Exec Value) : Step Value :=
  let earlier := s.checker.scope
  match check s.checker with
  | (.error h, c) =>
    (.error (.ofHalt h), { s with checker := { c with scope := c.scope.restore earlier } })
  | (.ok _, c) =>
    let (s, x) := run { s with checker := c }
    s.runChecked earlier x

/-! ## Entries -/

/-- Adds or replaces a function. -/
def define (s : Session) (d : FunctionDef) : Step Unit :=
  if s.skipCheck then (.ok (), { s with machine := s.machine.define d })
  else match s.checker.define d with
    | (.error h, c) => (.error (.ofHalt h), { s with checker := c })
    | (.ok (), c) => (.ok (), { s with checker := c, machine := s.machine.define d })

/-- Evaluates an expression. -/
def evalExpr (s : Session) (e : Expr) : Step Value :=
  if s.skipCheck then s.exec (s.machine.evalExpr s.turns e)
  else s.checkAndRun (·.checkExpr 0 e) fun s => (s, s.machine.evalExpr s.turns e)

/-- Takes an entry. A definition is added and has no value; an expression is evaluated. -/
def take (s : Session) : Reader.Entry → Step (Option Value)
  | .definition d =>
    match s.define d with
    | (.ok (), s) => (.ok none, s)
    | (.error p, s) => (.error p, s)
  | .expression e =>
    match s.evalExpr e with
    | (.ok v, s) => (.ok (some v), s)
    | (.error p, s) => (.error p, s)

/-- Reads one entry and takes it. -/
def eval (s : Session) (source : String) : Step (Option Value) :=
  match Reader.readEntry source with
  | .error f => (.error (.report (f.diagnostic entryFile)), s)
  | .ok entry => s.take entry

/-- Defines the functions of a program and gives the run of its expressions. -/
def enter (s : Session) (p : Program) : Session × Exec Value :=
  let machine := s.machine.defineAll p.defs
  ({ s with machine }, machine.runExprs s.turns p)

/-- Checks and runs a whole program. Its functions and assignments stay. -/
def takeProgram (s : Session) (p : Program) : Step Value :=
  if s.skipCheck then
    let (s, x) := s.enter p
    s.exec x
  else
    let (r, s) := s.checkAndRun (·.checkProgram p) (·.enter p)
    (r, { s with checker := { s.checker with file := "" } })

/-- Reads a program and takes it. -/
def evalProgram (s : Session) (source file : String) : Step Value :=
  match Reader.readProgram source file with
  | .error f => (.error (.report (f.diagnostic file)), s)
  | .ok p => s.takeProgram p

/-- The type of an expression. It is checked with the variables and functions of the session and a
new supply of type variables, and the session stays as it is. -/
def typeOf (s : Session) (source : String) : Except Problem Ty :=
  match Reader.readExpression source with
  | .error f => .error (.report (f.diagnostic entryFile))
  | .ok e =>
    (({ scope := s.checker.scope } : Checker).checkExpr 0 e).1.mapError Problem.ofHalt

/-! ## The host program -/

/-- A value as the host gets it. -/
def toHost (v : Value) : Except Problem HostValue :=
  match v.toHost none with
  | .ok x => .ok x
  | .error .crash => .error .crash
  | .error (.refused why) => .error (.unconvertible why)

/-- Evaluates an entry for the host, which gets nothing for a definition. -/
def evalForHost (s : Session) (source : String) : Step HostValue :=
  match s.eval source with
  | (.ok (some v), s) => (toHost v, s)
  | (.ok none, s) => (.ok .absent, s)
  | (.error p, s) => (.error p, s)

/-- Checks and runs a whole program for the host. -/
def evalProgramForHost (s : Session) (source file : String) : Step HostValue :=
  match s.evalProgram source file with
  | (.ok v, s) => (toHost v, s)
  | (.error p, s) => (.error p, s)

/-- Binds a function of the host to a name. The name then stands for it in the checker, and also in
the machine unless a function of the language has that name. -/
def bind (s : Session) (name : String) (f : HostFunction) : Step Unit :=
  match f.signature with
  | .error why => (.error (.unbindable name why), s)
  | .ok type =>
    let functions := s.functions ++ [f]
    let builtin : Builtin := { name, type, callee := .host s.functions.length }
    let scope := s.checker.scope.defineBuiltin name type []
    let machine := { s.machine.defineBuiltin builtin with host := Host.ofFunctions functions }
    (.ok (), { s with
      checker := { s.checker with scope }
      machine, functions
      bindings := s.bindings.insert name type })

/-- Binds a value of the host, which has to be a function. A function among values is nil: it can be
bound, and calling it crashes. -/
def bindValue (s : Session) (name : String) (x : HostValue) : Step Unit :=
  match x with
  | .function params variadic results =>
    s.bind name { params, variadic, results, run := fun _ => none }
  | x => (.error (.notFunction name x.typeName), s)

/-- The type that the checker takes for a variable of the host: the counterpart of its host type if
there is one, else the type that the value shows. -/
def hostVariableType (x : HostValue) (v : Value) : Ty :=
  match x.type? with
  | some t => (t.toTy.toOption).getD v.runtimeType
  | none => v.runtimeType

/-- Sets a global variable. -/
def set (s : Session) (name : String) (x : HostValue) : Step Unit :=
  match x.toValue with
  | .error why => (.error (.unsettable name why), s)
  | .ok v =>
    let scope := s.checker.scope.define name (hostVariableType x v)
    let (v, made) := v.numberFrom s.made
    (.ok (), { s with
      checker := { s.checker with scope }
      globals := s.globals.insert name v
      made })

/-- Gets a global variable. -/
def get (s : Session) (name : String) : Except Problem HostValue :=
  match s.globals.get? name with
  | some v => toHost v
  | none => .error (.undefinedVariable name)

/-- Converts the arguments of a call from number `i` on. -/
def callArguments (name : String) : (i : Nat) → List HostValue → Except Problem (List Value)
  | _, [] => .ok []
  | i, x :: xs =>
    match x.toValue with
    | .error why => .error (.badArgument name i why)
    | .ok v => (callArguments name (i + 1) xs).map (v :: ·)

/-- What a call by name refers to: a function, else a variable. -/
def callee? (s : Session) (name : String) : Option Value :=
  (s.machine.function? name).or (s.globals.get? name)

/-- Calls a function with arguments of the host. -/
def call (s : Session) (name : String) (args : List HostValue) : Step HostValue :=
  match s.callee? name with
  | none => (.error (.undefinedFunction name), s)
  | some f =>
    match callArguments name 1 args with
    | .error p => (.error p, s)
    | .ok vs =>
      match s.exec (s.machine.call s.turns f vs) with
      | (.ok v, s) => (toHost v, s)
      | (.error p, s) => (.error p, s)

/-! ## Ways of running -/

/-- Chooses the scoping policy. -/
def setScoping (s : Session) (name : String) : Step Unit :=
  if Settings.isScoping name then
    (.ok (), { s with machine := { s.machine with scoping := .ofName name } })
  else (.error (.unknownScoping name), s)

/-- Gives the session a text to read lines from. Once a line has been asked for, the text of that
time stays in use. -/
def setInput (s : Session) (text : String) : Session :=
  { s with channels := { s.channels with source := .ofText text } }

/-- Lets the session read from a stream, from now on and also with a reader that it already has. -/
def lend (s : Session) (stream : Text.Octets) : Session :=
  { s with channels := { s.channels with
      source := stream
      reader := s.channels.reader.map ({ · with stream }) } }

/-- What the session has not taken of the stream that it reads from. -/
def unread (s : Session) : Text.Octets :=
  match s.channels.reader with
  | some r => r.stream
  | none => s.channels.source

/-- Calls runs off, or lets them go on. -/
def setCancelled (s : Session) (cancelled : Bool) : Session :=
  { s with machine := { s.machine with cancelled } }

/-! ## Requests -/

/-- What the host can ask of a session. -/
inductive Request where
  | eval (source : String)
  | evalObject (source : String)
  | evalProgram (source file : String)
  | evalProgramObject (source file : String)
  | define (d : FunctionDef)
  | typeOf (source : String)
  | bind (name : String) (f : HostFunction)
  | bindValue (name : String) (x : HostValue)
  | set (name : String) (x : HostValue)
  | get (name : String)
  | call (name : String) (args : List HostValue)
  | setScoping (name : String)
  | setSkipCheck (skip : Bool)
  | setInput (text : String)
  | setCancelled (cancelled : Bool)

/-- What a session answers. -/
inductive Answer where
  | done
  | value (x : HostValue)
  | object (v : Option Value)
  | type (t : Ty)

/-- The step with an answer of the given form. -/
def Step.answer {α : Type} (r : Step α) (f : α → Answer) : Step Answer := (r.1.map f, r.2)

/-- Carries out a request. -/
def perform (s : Session) : Request → Step Answer
  | .eval source => (s.evalForHost source).answer .value
  | .evalObject source => (s.eval source).answer .object
  | .evalProgram source file => (s.evalProgramForHost source file).answer .value
  | .evalProgramObject source file => (s.evalProgram source file).answer fun v => .object (some v)
  | .define d => (s.define d).answer fun _ => .done
  | .typeOf source => Step.answer (s.typeOf source, s) .type
  | .bind name f => (s.bind name f).answer fun _ => .done
  | .bindValue name x => (s.bindValue name x).answer fun _ => .done
  | .set name x => (s.set name x).answer fun _ => .done
  | .get name => Step.answer (s.get name, s) .value
  | .call name args => (s.call name args).answer .value
  | .setScoping name => (s.setScoping name).answer fun _ => .done
  | .setSkipCheck skip => (.ok .done, { s with skipCheck := skip })
  | .setInput text => (.ok .done, s.setInput text)
  | .setCancelled cancelled => (.ok .done, s.setCancelled cancelled)

/-! ## Records -/

/-- The calls of host functions with the values that the functions got. -/
def calls (s : Session) : List (String × List HostValue) :=
  s.channels.calls.map fun c =>
    (c.name, ((s.functions[c.id]?).bind fun f => (f.arguments c.name c.args).toOption).getD [])

/-- The session with nothing printed and no call recorded yet. -/
def clearLog (s : Session) : Session :=
  { s with channels := { s.channels with out := "", calls := [] } }

end Session

end TreeLang
