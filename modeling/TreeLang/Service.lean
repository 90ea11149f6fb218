import TreeLang.Pipeline

/-!
# Requests

A service checks programs, or checks and runs them. A problem in the program is part of the answer;
only a request that makes no sense is refused.
-/

namespace TreeLang

/-- A program that someone sends, with the way to run it. Settings that the request leaves out are
those of the service. -/
structure Request where
  source : String := ""
  file : String := ""
  scoping : String := ""
  skipCheck : Bool := false
  input : String := ""
deriving DecidableEq, Repr, Inhabited

/-- What the service answers. -/
structure Response where
  type : String := ""
  result : String := ""
  output : String := ""
  diagnostics : List Diagnostic := []
deriving DecidableEq, Repr, Inhabited

namespace Service

/-- Why a request is refused. -/
inductive Refusal where
  | unknownMethod (name : String)
  | unknownScoping (name : String)
deriving DecidableEq, Repr, Inhabited

/-- The refusal in words. -/
def Refusal.message : Refusal → String
  | .unknownMethod name => "unknown method " ++ name
  | .unknownScoping name => Settings.unknownScoping name

/-- What a service can be asked for. -/
inductive Method where
  | check
  | run
deriving DecidableEq, Repr, Inhabited

/-- The method with a name. -/
def Method.ofName? : String → Option Method
  | "Check" => some .check
  | "Run" => some .run
  | _ => none

/-- The settings for a request. -/
def settingsFor (base : Settings) (r : Request) : Except Refusal Settings :=
  let s := if r.skipCheck then { base with skipCheck := true } else base
  if r.scoping.isEmpty then .ok s
  else if Settings.isScoping r.scoping then .ok { s with scoping := r.scoping }
  else .error (.unknownScoping r.scoping)

/-- The answer that a report makes. -/
def respond (r : Report) : Response :=
  { type := (r.type.map Ty.render).getD ""
    result := (r.result.map Value.repr).getD ""
    output := r.channels.out
    diagnostics := r.errors }

/-- Answers a request under the settings of the service. -/
def execute (base : Settings) (method : String) (r : Request) : Except Refusal Response :=
  match Method.ofName? method with
  | none => .error (.unknownMethod method)
  | some m => do
    let settings ← settingsFor base r
    let task : Task :=
      { origin := .source r.source
        file := r.file
        settings
        channels := { source := .ofText r.input } }
    pure (respond (match m with
      | .check => task.checkOnly
      | .run => task.run))

end Service

end TreeLang
