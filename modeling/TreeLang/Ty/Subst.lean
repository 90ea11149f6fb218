import TreeLang.Ty.Basic

/-!
# Substitutions and matching

A substitution binds variables to types. Applying it follows bindings to the end; a variable met
again while its own binding is being expanded stays as it is, so applying always ends.

Matching makes two types equal by extending a substitution. It binds an unbound variable to
whatever it meets, also to a type that contains it, and so it may run forever; `matchTypes?` answers
`none` exactly for the runs that do not end within a number of steps that every finite run keeps.
-/

namespace TreeLang

/-- Bindings of type variables. -/
abbrev Subst := Table Ty

namespace Ty

mutual

/-- The type with every variable replaced. -/
def bind (f : String → Ty) : Ty → Ty
  | .missing => .missing
  | .con name => .con name
  | .var name => f name
  | .list elem => .list (elem.bind f)
  | .dict key value => .dict (key.bind f) (value.bind f)
  | .fn params result variadic => .fn (bindAll f params) (result.bind f) variadic

/-- The types with every variable replaced. -/
def bindAll (f : String → Ty) : List Ty → List Ty
  | [] => []
  | t :: ts => t.bind f :: bindAll f ts

end

/-- What a variable stands for. Its own binding is set aside while it is being expanded; `depth`
bounds how many bindings can be set aside, and the size of the substitution is enough. -/
def resolve : (depth : Nat) → Subst → String → Ty
  | 0, _, name => .var name
  | depth + 1, s, name =>
    match s.get? name with
    | none => .var name
    | some (.var other) =>
      if other = name then .var name else resolve depth (s.erase name) other
    | some t => t.bind (resolve depth (s.erase name))

/-- The type with all bindings followed. -/
def apply (s : Subst) (t : Ty) : Ty := t.bind (resolve s.size s)

/-! ## Matching -/

/-- Matches the types of two lists one by one by `rec`, up to the first failure. -/
def matchAll (rec : Ty → Ty → Subst → Option (Bool × Subst)) :
    List Ty → List Ty → Subst → Option (Bool × Subst)
  | [], [], s => some (true, s)
  | p :: ps, c :: cs, s =>
    match rec p c s with
    | some (true, s) => matchAll rec ps cs s
    | other => other
  | _, _, s => some (false, s)

/-- One step of matching two types that are no variables: parts are matched by `rec`. -/
def matchParts (rec : Ty → Ty → Subst → Option (Bool × Subst)) (p c : Ty) (s : Subst) :
    Option (Bool × Subst) :=
  match p, c with
  | .con a, .con b => some (a == b, s)
  | .list a, .list b => rec a b s
  | .dict a b, .dict c d => matchAll rec [a, b] [c, d] s
  | .fn ps r v, .fn qs t w =>
    if ps.length ≠ qs.length || v != w then some (false, s)
    else matchAll rec (ps ++ [r]) (qs ++ [t]) s
  | _, _ => some (false, s)

/-- Matches pattern `p` with `c` under `s`, for at most `depth` nested steps. The answer says
whether they match, and gives the extended substitution also when they do not. -/
def matchWithin : (depth : Nat) → (p c : Ty) → Subst → Option (Bool × Subst)
  | 0, _, _, _ => none
  | depth + 1, p, c, s =>
    match p, c with
    | .var a, c =>
      match s.get? a with
      | some bound => matchWithin depth bound c s
      | none =>
        match c with
        | .var b => some (true, if a = b then s else s.insert a c)
        | c => some (true, s.insert a c)
    | p, .var b => matchWithin depth (.var b) p s
    | p, c => matchParts (matchWithin depth) p c s

/-- The number of constructors in the bound types. -/
def substSize (s : Subst) : Nat := sizeAll (s.entries.map fun e => e.2)

/-- A depth that every finite run of matching keeps: between two new bindings the same pair of parts
cannot come up twice, and there are no more bindings than parts. -/
def matchDepth (p c : Ty) (s : Subst) : Nat :=
  let n := p.size + c.size + substSize s + 2
  n * (n * n)

/-- Matches pattern `p` with `c` under `s`; `none` when matching runs forever. -/
def matchTypes? (p c : Ty) (s : Subst) : Option (Bool × Subst) :=
  matchWithin (matchDepth p c s) p c s

/-- Two types that do not match. -/
structure Mismatch where
  pattern : Ty
  concrete : Ty
deriving Repr, Inhabited

/-- The mismatch in words. -/
def Mismatch.message (m : Mismatch) : String :=
  "cannot match " ++ m.pattern.render ++ " with " ++ m.concrete.render

/-- The bindings that make pattern `p` match `c`; `none` when matching runs forever. -/
def unify? (p c : Ty) : Option (Except Mismatch Subst) :=
  (matchTypes? p c ∅).map fun (matched, s) => if matched then .ok s else .error ⟨p, c⟩

end Ty

namespace FnType

/-- Matches the parameters of `f`, from argument `i` on, with argument types. -/
def matchArgsFrom (f : FnType) : (i : Nat) → List Ty → Subst → Option (Bool × Subst)
  | _, [], s => some (true, s)
  | i, a :: as, s =>
    match f.paramAt? i with
    | none => some (false, s)
    | some p =>
      match Ty.matchTypes? p a s with
      | some (true, s) => matchArgsFrom f (i + 1) as s
      | other => other

/-- Matches the parameters of `f` with argument types, if their number is accepted. -/
def matchArgs? (f : FnType) (args : List Ty) (s : Subst) : Option (Bool × Subst) :=
  if f.accepts args.length then f.matchArgsFrom 0 args s else some (false, s)

/-- The function type with all bindings followed. -/
def apply (s : Subst) (f : FnType) : FnType :=
  ⟨Ty.bindAll (Ty.resolve s.size s) f.params, f.result.apply s, f.variadic⟩

end FnType

/-! ## Fresh variables -/

/-- A supply of type variables: the number that the next one gets. -/
structure Supply where
  next : Nat := 0
deriving DecidableEq, Repr, Inhabited

namespace Supply

/-- A new variable: the stem, or `T` for want of one, and the next number. -/
def fresh (stem : String) (s : Supply) : String × Supply :=
  ((if stem.isEmpty then "T" else stem) ++ toString s.next, ⟨s.next + 1⟩)

/-- Bindings of type parameters to new variables, one each in order. -/
def freshen : List String → Subst → Supply → Subst × Supply
  | [], b, s => (b, s)
  | p :: ps, b, s =>
    let (v, s) := s.fresh p
    freshen ps (b.insert p (.var v)) s

/-- The type with its type parameters replaced by new variables. -/
def instantiate (t : Ty) (params : List String) (s : Supply) : Ty × Supply :=
  if params.isEmpty then (t, s)
  else
    let (b, s) := freshen params ∅ s
    (t.apply b, s)

/-- The function type with its type parameters replaced by new variables. -/
def instantiateFn (f : FnType) (params : List String) (s : Supply) : FnType × Supply :=
  if params.isEmpty then (f, s)
  else
    let (b, s) := freshen params ∅ s
    (f.apply b, s)

end Supply

end TreeLang
