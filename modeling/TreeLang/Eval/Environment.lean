import TreeLang.Eval.Basic

/-!
# Environments

Environments are variables that can be shared: an enclosed environment sees the variables of the one
around it, and sees later changes there. A copy takes over all visible variables and is on its own
from then on. Environments live in a store and are known by their numbers; an environment is added
after the one around it.
-/

namespace TreeLang

/-- A store of environments, each with the number of the one around it. -/
structure Environments where
  envs : List (Table Value × Option Nat) := [(∅, none)]
deriving Repr, Inhabited

namespace Environments

/-- Adds an environment and gives its number. -/
def add (s : Environments) (vars : Table Value) (outer : Option Nat) : Environments × Nat :=
  (⟨s.envs ++ [(vars, outer)]⟩, s.envs.length)

/-- The variables bound directly in an environment. -/
def vars (s : Environments) (n : Nat) : Table Value := (s.envs[n]?.map (·.1)).getD ∅

/-- Binds a variable in an environment. -/
def assign (s : Environments) (n : Nat) (name : String) (v : Value) : Environments :=
  ⟨s.envs.modify n fun (vars, outer) => (vars.insert name v, outer)⟩

/-- The variables of an environment and of those around it, from the innermost outwards. -/
def chainWithin (s : Environments) : (depth : Nat) → Nat → List (Table Value)
  | 0, _ => []
  | depth + 1, n =>
    match s.envs[n]? with
    | none => []
    | some (vars, none) => [vars]
    | some (vars, some m) => vars :: chainWithin s depth m

/-- The environments that can be seen from one, innermost first. -/
def chain (s : Environments) (n : Nat) : List (Table Value) := s.chainWithin s.envs.length n

/-- The value of a variable as an environment sees it. -/
def get? (s : Environments) (n : Nat) (name : String) : Option Value :=
  (s.chain n).findSome? (·.get? name)

/-- All variables that an environment sees, in one table. -/
def flatten (s : Environments) (n : Nat) : Table Value :=
  (s.chain n).foldr (fun vars all => vars.entries.foldl (fun t e => t.insert e.1 e.2) all) ∅

/-- Adds the environment of a function body that is called from an environment, or from none. -/
def call (s : Environments) (policy : Scoping) (caller : Option Nat) (params : List String)
    (args : List Value) : Environments × Nat :=
  let seen := match caller with
    | some n => s.flatten n
    | none => ∅
  s.add (policy.callFrame seen params args) none

end Environments

end TreeLang
