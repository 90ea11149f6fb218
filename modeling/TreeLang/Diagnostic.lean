/-!
# Diagnostics

What a pass reports when it refuses a program: a code, the phase that found the problem, a message,
and if known the offending expression and the file. A code or a phase outside the taxonomy is its
own name.
-/

namespace TreeLang

/-- The class of a problem. -/
inductive Code where
  | undefinedVariable
  | undefinedFunction
  | arityMismatch
  | typeMismatch
  | unsupportedOperator
  | unsupportedOperandKind
  | invalidProgram
  | runtimeError
  | other (id : String)
deriving DecidableEq, Repr, Inhabited

namespace Code

/-- The identifier of a code. -/
def id : Code → String
  | .undefinedVariable => "E001"
  | .undefinedFunction => "E002"
  | .arityMismatch => "E003"
  | .typeMismatch => "E004"
  | .unsupportedOperator => "E005"
  | .unsupportedOperandKind => "E006"
  | .invalidProgram => "E007"
  | .runtimeError => "E008"
  | .other id => id

/-- The name of a code. -/
def name : Code → String
  | .undefinedVariable => "UndefinedVariable"
  | .undefinedFunction => "UndefinedFunction"
  | .arityMismatch => "ArityMismatch"
  | .typeMismatch => "TypeMismatch"
  | .unsupportedOperator => "UnsupportedOperator"
  | .unsupportedOperandKind => "UnsupportedOperandKind"
  | .invalidProgram => "InvalidProgram"
  | .runtimeError => "RuntimeError"
  | .other id => id

/-- The codes of the taxonomy. -/
def all : List Code :=
  [.undefinedVariable, .undefinedFunction, .arityMismatch, .typeMismatch, .unsupportedOperator,
    .unsupportedOperandKind, .invalidProgram, .runtimeError]

/-- The code with an identifier. -/
def ofId (id : String) : Code := (all.find? (·.id == id)).getD (.other id)

end Code

/-- The pass that found a problem. -/
inductive Phase where
  | parse
  | check
  | runtime
  | other (name : String)
deriving DecidableEq, Repr, Inhabited

/-- The name of a phase. -/
def Phase.name : Phase → String
  | .parse => "parse"
  | .check => "check"
  | .runtime => "runtime"
  | .other name => name

/-- The phase with a name. -/
def Phase.ofName (name : String) : Phase :=
  ([.parse, .check, .runtime].find? (·.name == name)).getD (.other name)

/-- A report. The expression and the file are empty when they are not known. -/
structure Diagnostic where
  code : Code
  phase : Phase
  text : String
  node : String := ""
  file : String := ""
deriving DecidableEq, Repr, Inhabited

namespace Diagnostic

/-- The report as one line. -/
def message (d : Diagnostic) : String :=
  (if d.file.isEmpty then "" else d.file ++ ": ") ++
    d.phase.name ++ " error " ++ d.code.id ++ ": " ++ d.text ++
    (if d.node.isEmpty then "" else " (in " ++ d.node ++ ")")

/-- Names the offending expression unless one is named already. -/
def withNode (d : Diagnostic) (node : String) : Diagnostic :=
  if d.node.isEmpty then { d with node } else d

/-- Names the file unless one is named already. -/
def withFile (d : Diagnostic) (file : String) : Diagnostic :=
  if d.file.isEmpty then { d with file } else d

@[simp] theorem code_withNode (d : Diagnostic) (node : String) :
    (d.withNode node).code = d.code := by
  unfold withNode
  split <;> rfl

@[simp] theorem code_withFile (d : Diagnostic) (file : String) :
    (d.withFile file).code = d.code := by
  unfold withFile
  split <;> rfl

@[simp] theorem phase_withNode (d : Diagnostic) (node : String) :
    (d.withNode node).phase = d.phase := by
  unfold withNode
  split <;> rfl

@[simp] theorem phase_withFile (d : Diagnostic) (file : String) :
    (d.withFile file).phase = d.phase := by
  unfold withFile
  split <;> rfl

end Diagnostic

end TreeLang
