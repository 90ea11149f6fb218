import TreeLang.Command.Address
import TreeLang.Command.Options
import TreeLang.Command.Repl
import TreeLang.Program.Dump
import TreeLang.Program.Printer
import TreeLang.Settings.Find

/-!
# Commands

`Command.run` takes the arguments of the program to one of its commands. A command first reads its
options, then the settings, and then the program; the first of these that fails ends it, and the
exit code tells failures of the program from misuse.
-/

namespace TreeLang.Command

/-- How a command ends: well, with a program that could not be read, checked or run, or because of
its arguments or of a file that could not be read. -/
inductive Exit where
  | ok
  | failed
  | misused
deriving DecidableEq, Repr, Inhabited

/-- The exit code. -/
def Exit.code : Exit → Nat
  | .ok => 0
  | .failed => 1
  | .misused => 2

/-- The release. -/
def version : String := "0.3.0"

/-- How to use the program. -/
def usage : String := Text.unlines
  ["Usage: minilang <command> [flags] [file]",
   "",
   "Commands:",
   "  run    [-dynamic] [-nocheck] [-config path] <file>   check and run a program",
   "  check  [-config path] <file>                         check a program and print its type",
   "  fmt    <file>                                        print a program in readable form",
   "  dump   <file>                                        print the parsed syntax tree",
   "  repl   [-dynamic] [-nocheck]                         interactive session",
   "  serve  [-addr host:port] [-config path]              serve the Engine gRPC API",
   "",
   "A bare file argument is the same as \"run <file>\". Use \"-\" to read stdin."]

/-- The endings of the names of program files. -/
def sourceEndings : List String := [".json", ".yaml", ".yml"]

/-- The name is that of a program file. -/
def isSourceFile (name : String) : Bool := sourceEndings.any fun e => name.endsWith e

variable {m : Type → Type} [Monad m]

/-- A step of a command, which may end it. -/
abbrev Attempt (m : Type → Type) := ExceptT Exit m

namespace Attempt

/-- Says a line on the error output. -/
def say (c : Console m) (line : String) : Attempt m Unit := c.printError (line ++ "\n")

/-- Ends the command with a line on the error output. -/
def fail {α : Type} (c : Console m) (exit : Exit) (line : String) : Attempt m α := do
  say c line
  throw exit

/-- Ends the command unless there is a result. -/
def demand {α : Type} (c : Console m) (exit : Exit) (r : Except String α) : Attempt m α :=
  match r with
  | .ok a => pure a
  | .error line => fail c exit line

/-- The options and operands of a command. -/
def options (c : Console m) (command : String) (specs : List OptionSpec) (args : List String) :
    Attempt m (Options × List String) :=
  match readOptions specs {} args with
  | .ok r => pure r
  | .error f => do
    match f.message? with
    | some line => say c line
    | none => pure ()
    c.printError (optionUsage command specs)
    throw .misused

/-- The options of a command and its one operand. -/
def singleFile (c : Console m) (command : String) (specs : List OptionSpec) (args : List String) :
    Attempt m (Options × String) := do
  match ← options c command specs args with
  | (o, [path]) => pure (o, path)
  | _ => fail c .misused ("Usage: minilang " ++ command ++ " [flags] <file>")

/-- The settings: those of the file that the options name, or of the nearest one for programs in a
directory, or the default ones. The options come over them. -/
def settings (c : Console m) (o : Options) (dir : String) : Attempt m Settings := do
  let path ← if o.configPath.isEmpty then do
      let base ← (c.base : m _)
      (Settings.candidates (Path.locate base dir)).findM? fun p => (c.isPresent p : m Bool)
    else pure (some o.configPath)
  let s ← match path with
    | none => pure {}
    | some path => do demand c .misused (Settings.ofFile path (← (c.readFile path : m _)))
  pure { s with
    scoping := if o.dynamic then "dynamic" else s.scoping
    skipCheck := s.skipCheck || o.noCheck }

/-- The text of a program and the name of its file; a dash stands for the input. -/
def source (c : Console m) (path : String) : Attempt m (String × String) := do
  if path = "-" then
    let file := "<stdin>"
    let text ← (c.input : m _)
    if text.isText then pure (text.text, file)
    else fail c .failed ((Reader.Failure.document .malformed).diagnostic file).message
  else match ← (c.readFile path : m _) with
    | .ok text => pure (text, path)
    | .error f => fail c .misused ("reading " ++ path ++ ": " ++ f.message path)

/-- The directory whose settings apply to a program. -/
def settingsDirectory (path : String) : String := if path = "-" then "" else Path.directory path

/-- The program in a text. -/
def program (c : Console m) (text file : String) : Attempt m Program :=
  match Reader.readProgram text file with
  | .ok p => pure p
  | .error f => fail c .failed (f.diagnostic file).message

/-- Says the errors of a report and ends the command if there are any. -/
def succeed (c : Console m) (r : Report) : Attempt m Unit := do
  r.errors.forM fun d => say c d.message
  if !r.errors.isEmpty then throw .failed

end Attempt

open Attempt

/-- The program may ask for a line of input. -/
def readsInput (p : Program) : Bool :=
  p.nodes.any fun (_, e) => match e with
    | .call name _ => name == "input"
    | .ref name => name == "input"
    | _ => false

/-- Checks and runs a program. -/
def runProgram (c : Console m) (args : List String) : Attempt m Unit := do
  let (o, path) ← singleFile c "run" programOptions args
  let s ← settings c o (settingsDirectory path)
  let (text, file) ← source c path
  let p ← program c text file
  let input ← if readsInput p then (c.input : m _) else pure []
  let task : Task :=
    { origin := .program p, file, settings := s, channels := { source := input } }
  let r := task.run
  c.print r.channels.out
  succeed c r

/-- Checks a program and prints its type. -/
def checkProgram (c : Console m) (args : List String) : Attempt m Unit := do
  let (o, path) ← singleFile c "check" programOptions args
  let s ← settings c o (settingsDirectory path)
  let (text, file) ← source c path
  let task : Task :=
    { origin := .source text, file, settings := { s with skipCheck := false } }
  let r := task.checkOnly
  succeed c r
  c.print ((r.type.map Ty.render).getD "untyped" ++ "\n")

/-- Prints a program in readable form. -/
def formatProgram (c : Console m) (args : List String) : Attempt m Unit := do
  let (_, path) ← singleFile c "fmt" [] args
  let (text, file) ← source c path
  let p ← program c text file
  c.print (p.print (.spread 0))

/-- Prints the tree of a program. -/
def dumpProgram (c : Console m) (args : List String) : Attempt m Unit := do
  let (_, path) ← singleFile c "dump" [] args
  let (text, file) ← source c path
  let p ← program c text file
  c.print (p.dump (Reader.stated text))

/-- The first line of an interactive session. -/
def banner (s : Settings) : String :=
  "minilang " ++ version ++ " (" ++ s.scoping ++ " scoping, checking " ++
    (if s.skipCheck then "off" else "on") ++ "). :help for help.\n"

/-- An interactive session. It does not take the bound on nesting from the settings. -/
def interact (c : Console m) (args : List String) : Attempt m Unit := do
  let (o, _) ← options c "repl" programOptions args
  let s ← settings c o ""
  let session : Session := { skipCheck := s.skipCheck }
  let (chosen, session) := session.setScoping s.scoping
  demand c .misused (chosen.mapError (·.message))
  c.print (banner s)
  (Repl.run c session : m Unit)

/-- Serves requests. This console has no network, so what remains is to say why not. -/
def serve (c : Console m) (args : List String) : Attempt m Unit := do
  let (o, _) ← options c "serve" serverOptions args
  let s ← settings c o ""
  let address := if o.address.isEmpty then s.address else o.address
  let why := ((Address.problem? address).map (·.message)).getD "listen tcp: network is unreachable"
  fail c .failed ("serve: listening on " ++ address ++ ": " ++ why)

/-- Runs the command that the arguments name. -/
def dispatch (c : Console m) : List String → Attempt m Unit
  | [] => do
    c.printError usage
    throw .misused
  | name :: args =>
    match name with
    | "-v" | "-version" | "--version" | "version" => c.print ("minilang " ++ version ++ "\n")
    | "-h" | "-help" | "--help" | "help" => c.print usage
    | "run" => runProgram c args
    | "check" => checkProgram c args
    | "fmt" => formatProgram c args
    | "dump" => dumpProgram c args
    | "repl" => interact c args
    | "serve" => serve c args
    | name =>
      if name.startsWith "-" || !isSourceFile name then do
        c.printError ("unknown command " ++ Text.quoted name ++ "\n\n" ++ usage)
        throw .misused
      else runProgram c (name :: args)

/-- Runs the program with its arguments and tells how it ends. -/
def run (c : Console m) (args : List String) : m Exit := do
  match ← (dispatch c args).run with
  | .ok () => pure .ok
  | .error exit => pure exit

end TreeLang.Command
