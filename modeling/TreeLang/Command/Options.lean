import TreeLang.Text.Quoted
import TreeLang.Text.Lines

/-!
# Options on the command line

An option starts with one dash or two; its value follows after an equals sign or, for options that
take a text, as the next argument. Options end at the first argument that is none, or behind a
double dash. The first problem ends the reading.
-/

namespace TreeLang.Command

/-- What the options say. -/
structure Options where
  dynamic : Bool := false
  noCheck : Bool := false
  configPath : String := ""
  address : String := ""
deriving DecidableEq, Repr, Inhabited

/-- How an option takes effect: a switch needs no value. -/
inductive OptionKind where
  | switch (set : Bool → Options → Options)
  | text (set : String → Options → Options)

/-- An option with its description. -/
structure OptionSpec where
  name : String
  usage : String
  kind : OptionKind

/-- The options of commands that run programs, by name. -/
def programOptions : List OptionSpec :=
  [⟨"config", "path to minilang.yaml", .text fun v o => { o with configPath := v }⟩,
   ⟨"dynamic", "use dynamic scoping", .switch fun b o => { o with dynamic := b }⟩,
   ⟨"nocheck", "run without the type checker", .switch fun b o => { o with noCheck := b }⟩]

/-- The options of the server, by name. -/
def serverOptions : List OptionSpec :=
  ⟨"addr", "listen address (default :7788)", .text fun v o => { o with address := v }⟩ ::
    programOptions

/-- What can be wrong with an option; `help` asks for the description. -/
inductive OptionFault where
  | malformed (arg : String)
  | unknown (name : String)
  | notBool (value name : String)
  | noValue (name : String)
  | help
deriving DecidableEq, Repr

/-- The wording of a fault; asking for help is none. -/
def OptionFault.message? : OptionFault → Option String
  | .malformed arg => some ("bad flag syntax: " ++ arg)
  | .unknown name => some ("flag provided but not defined: -" ++ name)
  | .notBool value name =>
    some ("invalid boolean value " ++ Text.quoted value ++ " for -" ++ name ++ ": parse error")
  | .noValue name => some ("flag needs an argument: -" ++ name)
  | .help => none

/-- The description of the options of a command. -/
def optionUsage (command : String) (specs : List OptionSpec) : String :=
  "Usage of " ++ command ++ ":\n" ++ String.join (specs.map fun s =>
    "  -" ++ s.name ++ (match s.kind with
      | .switch _ => ""
      | .text _ => " string") ++ "\n    \t" ++ s.usage ++ "\n")

/-- What an argument is: an option with its name and perhaps a value, or the end of options, which
counts as an argument itself unless it is a double dash. -/
inductive Argument where
  | option (name : String) (value : Option String)
  | malformed
  | dashes
  | operand
deriving DecidableEq, Repr

/-- A name, and the value behind the first equals sign. -/
def nameAndValue (cs : List Char) : Argument :=
  match cs with
  | [] => .malformed
  | c :: rest =>
    if c = '-' || c = '=' then .malformed
    else
      let name := rest.takeWhile (· ≠ '=')
      let value := match rest.drop name.length with
        | [] => none
        | _ :: v => some (String.ofList v)
      .option (String.ofList (c :: name)) value

/-- Takes an argument apart. A single dash is an operand. -/
def Argument.ofString (arg : String) : Argument :=
  match arg.toList with
  | ['-', '-'] => .dashes
  | ['-'] => .operand
  | '-' :: '-' :: rest => nameAndValue rest
  | '-' :: rest => nameAndValue rest
  | _ => .operand

/-- The words for truth values. -/
def switchValue? (s : String) : Option Bool :=
  if ["1", "t", "T", "TRUE", "true", "True"].contains s then some true
  else if ["0", "f", "F", "FALSE", "false", "False"].contains s then some false
  else none

/-- Reads the options in front and gives the operands. -/
def readOptions (specs : List OptionSpec) :
    Options → List String → Except OptionFault (Options × List String)
  | o, [] => .ok (o, [])
  | o, arg :: rest =>
    match Argument.ofString arg with
    | .operand => .ok (o, arg :: rest)
    | .dashes => .ok (o, rest)
    | .malformed => .error (.malformed arg)
    | .option name value =>
      match specs.find? (·.name == name) with
      | none => .error (if name = "help" || name = "h" then .help else .unknown name)
      | some ⟨_, _, .switch set⟩ =>
        match value with
        | none => readOptions specs (set true o) rest
        | some v =>
          match switchValue? v with
          | some b => readOptions specs (set b o) rest
          | none => .error (.notBool v name)
      | some ⟨_, _, .text set⟩ =>
        match value, rest with
        | some v, rest => readOptions specs (set v o) rest
        | none, v :: rest => readOptions specs (set v o) rest
        | none, [] => .error (.noValue name)

end TreeLang.Command
