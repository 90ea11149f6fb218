import TreeLang.Value.Primitive
import TreeLang.Program.Basic

/-!
# Scopes

A scope has variables and functions in separate name spaces, so an assignment never hides a
function. Scopes are nested, and a chain lists them from the innermost outwards. Variables are
looked for up to and including the first function scope: a function body never sees the variables
around it. Functions are looked for everywhere.
-/

namespace TreeLang

/-- A function that a scope knows. A user function has its definition. -/
structure FnSymbol where
  name : String
  type : FnType
  typeParams : List String := []
  definition : Option FunctionDef := none
  builtin : Bool := false
deriving Repr, Inhabited

/-- The symbol of a user function. -/
def FnSymbol.ofDef (d : FunctionDef) : FnSymbol :=
  { name := d.name, type := d.signature, typeParams := d.typeParams, definition := some d }

/-- What kind of scope it is. -/
inductive ScopeKind where
  | prelude
  | global
  | function
deriving DecidableEq, Repr, Inhabited

/-- One scope. -/
structure Scope where
  kind : ScopeKind := .global
  vars : Table Ty := ∅
  funcs : Table FnSymbol := ∅
deriving Repr, Inhabited

namespace Scope

/-- Binds a variable, replacing an earlier type. -/
def define (s : Scope) (name : String) (t : Ty) : Scope := { s with vars := s.vars.insert name t }

/-- Stores a function symbol under its name. -/
def setFunction (s : Scope) (f : FnSymbol) : Scope := { s with funcs := s.funcs.insert f.name f }

/-- Adds a user function. -/
def defineFunction (s : Scope) (d : FunctionDef) : Scope := s.setFunction (.ofDef d)

/-- Adds a builtin function. -/
def defineBuiltin (s : Scope) (name : String) (type : FnType) (typeParams : List String) : Scope :=
  s.setFunction { name, type, typeParams, builtin := true }

/-- Drops a function of this scope. -/
def removeFunction (s : Scope) (name : String) : Scope := { s with funcs := s.funcs.erase name }

/-- Goes back to the bindings of an earlier state of the scope. -/
def restore (s : Scope) (earlier : Scope) : Scope :=
  { s with vars := earlier.vars, funcs := earlier.funcs }

/-- Goes back to the binding of one variable in an earlier state, which may be none. -/
def restoreVariable (s : Scope) (earlier : Scope) (name : String) : Scope :=
  match earlier.vars.get? name with
  | some t => s.define name t
  | none => { s with vars := s.vars.erase name }

/-- The scope of all builtin functions. -/
def prelude : Scope :=
  Primitive.all.foldl (fun s p => s.defineBuiltin p.name p.type p.typeParams) { kind := .prelude }

end Scope

/-- What a name refers to. -/
inductive Symbol where
  | var (name : String) (type : Ty)
  | function (f : FnSymbol)
deriving Repr, Inhabited

/-- The type of what a name refers to. -/
def Symbol.type : Symbol → Ty
  | .var _ t => t
  | .function f => f.type.toTy

/-- Scopes from the innermost outwards. -/
abbrev ScopeChain := List Scope

namespace ScopeChain

/-- The type of a variable. -/
def findVariable (name : String) : ScopeChain → Option Ty
  | [] => none
  | s :: outer =>
    match s.vars.get? name with
    | some t => some t
    | none => if s.kind = .function then none else findVariable name outer

/-- A function. -/
def findFunction (name : String) : ScopeChain → Option FnSymbol
  | [] => none
  | s :: outer =>
    match s.funcs.get? name with
    | some f => some f
    | none => findFunction name outer

/-- What a reference means: a variable first, then a function. -/
def find? (c : ScopeChain) (name : String) : Option Symbol :=
  match c.findVariable name with
  | some t => some (.var name t)
  | none => (c.findFunction name).map .function

/-- The names of all functions that can be seen, in ascending order. -/
def functionNames (c : ScopeChain) : List String :=
  Table.sortNames (Ty.firsts (c.flatMap fun s => s.funcs.entries.map (·.1)))

end ScopeChain

/-! ## Forests of scopes -/

/-- Scopes that know the scope around them by number. A scope is added after the one around it. -/
structure Forest where
  scopes : List (Scope × Option Nat) := []
deriving Repr, Inhabited

namespace Forest

/-- Adds a scope and gives its number. -/
def add (f : Forest) (s : Scope) (outer : Option Nat) : Forest × Nat :=
  (⟨f.scopes ++ [(s, outer)]⟩, f.scopes.length)

/-- The scope with a number. -/
def get? (f : Forest) (n : Nat) : Option Scope := f.scopes[n]?.map (·.1)

/-- Changes the scope with a number. -/
def update (f : Forest) (n : Nat) (g : Scope → Scope) : Forest :=
  ⟨f.scopes.modify n fun (s, outer) => (g s, outer)⟩

/-- The scope around a scope. -/
def outer? (f : Forest) (n : Nat) : Option Nat := (f.scopes[n]?).bind (·.2)

/-- The chain from a scope outwards, of at most `depth` scopes. -/
def chainWithin (f : Forest) : (depth : Nat) → Nat → ScopeChain
  | 0, _ => []
  | depth + 1, n =>
    match f.scopes[n]? with
    | none => []
    | some (s, none) => [s]
    | some (s, some m) => s :: chainWithin f depth m

/-- The chain from a scope outwards. -/
def chain (f : Forest) (n : Nat) : ScopeChain := f.chainWithin f.scopes.length n

end Forest

end TreeLang
