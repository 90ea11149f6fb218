import TreeLang.Value.Basic
import TreeLang.Diagnostic
import TreeLang.Text.Lines

/-!
# Runs: state and outcome

A run has the variables of the current function, the channels through which it prints and reads
lines, and the number of objects made so far. It ends with a value or with a fault, and the state
survives a fault. Two more endings are kept apart: a host function may crash, and a loop may not end
within the turns it is given.
-/

namespace TreeLang

/-- How a called function sees variables. -/
inductive Scoping where
  | static
  | dynamic
deriving DecidableEq, Repr, Inhabited

namespace Scoping

/-- The name of a policy. -/
def name : Scoping → String
  | .static => "static"
  | .dynamic => "dynamic"

/-- The policy with a name; every other name means the static one. -/
def ofName (s : String) : Scoping := if s = "dynamic" then .dynamic else .static

/-- The variables that a function body runs with. Under the static policy it has its parameters
only, under the dynamic one also a copy of its caller's variables. -/
def callFrame (s : Scoping) (caller : Table Value) (params : List String) (args : List Value) :
    Table Value :=
  let base := match s with
    | .static => ∅
    | .dynamic => caller
  (params.zip args).foldl (fun t e => t.insert e.1 e.2) base

end Scoping

/-- A call of a host function that took place. -/
structure HostCall where
  id : Nat
  name : String
  args : List Value
deriving Repr, Inhabited

/-- The channels of a run. Lines come from `reader` once the first line has been asked for, and
`source` is then no longer looked at. A channel with a failure refuses every use. -/
structure Channels where
  out : String := ""
  outFailure : Option String := none
  source : Text.Octets := []
  reader : Option Text.LineReader := none
  inFailure : Option String := none
  calls : List HostCall := []
deriving Repr, Inhabited

/-- The state of a run: the variables of the current function, or the global ones, the channels, and
the number of objects made so far. -/
structure RunState where
  frame : Table Value := ∅
  channels : Channels := {}
  made : Nat := 0
deriving Repr, Inhabited

/-- How an evaluation ends. -/
inductive Outcome (α : Type) where
  | value (a : α)
  | fault (d : Diagnostic)
  | crash
  | unfinished
deriving Repr, Inhabited

/-- An evaluation: it changes the state and has an outcome. -/
def Exec (α : Type) := RunState → Outcome α × RunState

namespace Exec

variable {α β : Type}

/-- Ends at once with a value. -/
@[always_inline, inline] def pure (a : α) : Exec α := fun s => (.value a, s)

/-- Goes on with the value of the first evaluation, if it has one. -/
@[always_inline, inline] def bind (x : Exec α) (f : α → Exec β) : Exec β := fun s =>
  match x s with
  | (.value a, s) => f a s
  | (.fault d, s) => (.fault d, s)
  | (.crash, s) => (.crash, s)
  | (.unfinished, s) => (.unfinished, s)

instance : Monad Exec where
  pure := Exec.pure
  bind := Exec.bind

/-- Ends with a fault. -/
@[always_inline, inline] def fault (d : Diagnostic) : Exec α := fun s => (.fault d, s)

/-- Changes the diagnostic of a fault. -/
@[always_inline, inline] def onFault (f : Diagnostic → Diagnostic) (x : Exec α) : Exec α := fun s =>
  match x s with
  | (.fault d, s) => (.fault (f d), s)
  | other => other

/-- The value of a variable in the current frame. -/
@[always_inline, inline] def lookup (name : String) : Exec (Option Value) :=
  fun s => (.value (s.frame.get? name), s)

/-- Assigns a variable in the current frame. -/
@[always_inline, inline] def assign (name : String) (v : Value) : Exec Value :=
  fun s => (.value v, { s with frame := s.frame.insert name v })

/-- Gives the new objects of a value their numbers. -/
@[always_inline, inline] def make (v : Value) : Exec Value := fun s =>
  let (v, made) := v.numberFrom s.made
  (.value v, { s with made })

/-- Runs with other variables and then goes back to the current ones, whatever the outcome. -/
@[always_inline, inline]
def within (vars : RunState → Table Value) (x : Exec α) : Exec α := fun s =>
  let frame := s.frame
  match x { s with frame := vars s } with
  | (r, s) => (r, { s with frame })

end Exec

/-- A fault of the run time without an expression, which the enclosing call adds. -/
def runtimeFault (code : Code) (text : String) : Diagnostic := { code, phase := .runtime, text }

end TreeLang
