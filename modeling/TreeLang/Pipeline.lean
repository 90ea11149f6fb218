import TreeLang.Program.Reader
import TreeLang.Typing
import TreeLang.Eval.Machine
import TreeLang.Settings.Basic

/-!
# Reading, checking and running a program

The three stages in order. A stage that fails leaves one report, and the later stages do not run, so
nothing is printed or read unless reading and checking succeed. Checking can be left out.
-/

namespace TreeLang

/-- Where a program comes from: a text to read, a program at hand, or nowhere. -/
inductive Origin where
  | source (text : String)
  | program (p : Program)
  | nothing
deriving Repr

/-- The number of turns that a loop is given unless one says otherwise; a loop that needs more
counts as endless. -/
def loopTurns : Nat := 1000000000000

/-- A program to run and how. -/
structure Task where
  origin : Origin
  file : String := ""
  settings : Settings := {}
  channels : Channels := {}
  cancelled : Bool := false
  turns : Nat := loopTurns

/-- What came of a task. -/
structure Report where
  program : Option Program := none
  type : Option Ty := none
  result : Option Value := none
  channels : Channels := {}
  errors : List Diagnostic := []
deriving Inhabited

/-- The bound on nesting that settings ask for; the default one if they ask for none. -/
def Settings.depth (s : Settings) : Nat := s.maxDepth.toNat

namespace Task

/-- Reads the program. -/
def read (t : Task) : Except Diagnostic Program :=
  match t.origin with
  | .nothing =>
    .error { code := .invalidProgram, phase := .parse, text := "no source code", file := t.file }
  | .program p => .ok p
  | .source text =>
    (Reader.readProgram text t.file).mapError fun f => f.diagnostic t.file

/-- Checks a program with a new session. -/
def check (t : Task) (p : Program) : Except Halt Ty :=
  (({ file := t.file } : Checker).checkProgram p).1

/-- The machine that the settings ask for. -/
def machine (t : Task) : Machine :=
  { Machine.initial with
    scoping := .ofName t.settings.scoping
    maxDepth := t.settings.depth
    cancelled := t.cancelled }

/-- Runs a program. -/
def evaluate (t : Task) (p : Program) (type : Option Ty) : Report :=
  match t.machine.runProgram t.turns p { channels := t.channels } with
  | (.value v, s) => { program := some p, type, result := some v, channels := s.channels }
  | (.fault d, s) =>
    { program := some p, type, channels := s.channels, errors := [d.withFile t.file] }
  | (_, s) => { program := some p, type, channels := s.channels }

/-- Reads and checks, and runs the program by `finish` if nothing failed. -/
def runWith (t : Task) (finish : Program → Option Ty → Report) : Report :=
  match t.read with
  | .error d => { channels := t.channels, errors := [d] }
  | .ok p =>
    if t.settings.skipCheck then finish p none
    else match t.check p with
      | .error (.fault d) =>
        { program := some p, channels := t.channels, errors := [d.withFile t.file] }
      | .error .endless => { program := some p, channels := t.channels }
      | .ok type => finish p (some type)

/-- All three stages. -/
def run (t : Task) : Report := t.runWith t.evaluate

/-- Reading and checking only. -/
def checkOnly (t : Task) : Report :=
  t.runWith fun p type => { program := some p, type, channels := t.channels }

end Task

end TreeLang
