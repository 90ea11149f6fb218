import TreeLang.Scope
import TreeLang.Ty.Subst
import TreeLang.Program.Printer
import TreeLang.Diagnostic

/-!
# Type checking

Functions are checked against their declared types, never inferred. A call instantiates the type
parameters of the callee with new variables and matches the parameters with the argument types, from
left to right. A body sees its parameters and all functions, but no variable around it. Checking
stops at the first problem; the types of the expressions checked before stay recorded.

An expression of a program is known by its path: the number of its unit (function bodies first, then
top-level expressions), and the number of the child at each step down.
-/

namespace TreeLang

/-- Where an expression stands in a program. -/
abbrev Path := List Nat

/-- Why checking stops: a problem, or a match that runs forever. -/
inductive Halt where
  | fault (d : Diagnostic)
  | endless
deriving DecidableEq, Repr

/-- What checking changes: the innermost scope, the supply of type variables, and the record of
types. -/
structure CheckState where
  scope : Scope
  supply : Supply := {}
  record : List (Path × Ty) := []
deriving Repr, Inhabited

/-- A step of checking. Its changes stay when it stops. -/
abbrev Check := ExceptT Halt (StateM CheckState)

namespace Check

/-- How far an expression in a report is shown. -/
def reportWidth : Nat := 60

/-- A problem with an expression. -/
def problem {α : Type} (e : Expr) (code : Code) (text : String) : Check α :=
  throw (.fault { code, phase := .check, text, node := e.compact reportWidth })

/-- The scopes from the innermost outwards; `outer` are those around the innermost one. -/
def chain (outer : ScopeChain) : Check ScopeChain := do pure ((← get).scope :: outer)

/-- A new type variable. -/
def fresh (stem : String) : Check Ty := do
  let s ← get
  let (name, supply) := s.supply.fresh stem
  set { s with supply }
  pure (.var name)

/-- Records the type of an expression. -/
def note (path : Path) (t : Ty) : Check Unit :=
  modify fun s => { s with record := (path, t) :: s.record }

/-! ## Rules -/

/-- The type of an operator expression. -/
def operatorType (e : Expr) (op : Operator) (left right : Ty) : Check Ty :=
  let mismatch : Check Ty :=
    problem e .typeMismatch
      ("unsupported operand types for " ++ op.symbol ++ ": " ++ left.shown ++ " and " ++
        right.shown)
  let numeric := left.same .number && right.same .number
  match op with
  | .add =>
    if numeric then pure .number
    else if left.same .text && right.same .text then pure .text
    else match left, right with
      | .list a, .list b => if a.same b then pure (.list a) else mismatch
      | _, _ => mismatch
  | .sub | .mul | .div | .rem => if numeric then pure .number else mismatch
  | .lt | .gt | .le | .ge | .eq | .ne => pure .boolean
  | .other s => problem e .unsupportedOperator ("unsupported operator " ++ Text.quoted s)

/-- What a call refers to: a function of that name, else a variable of a function type. -/
def callee (outer : ScopeChain) (e : Expr) (name : String) : Check (FnType × List String) := do
  let c ← chain outer
  match c.findFunction name with
  | some f => pure (f.type, f.typeParams)
  | none =>
    match c.findVariable name with
    | some t =>
      match FnType.ofTy? t with
      | some f => pure (f, [])
      | none => problem e .typeMismatch (name ++ " is not a function, it has type " ++ t.shown)
    | none => problem e .undefinedFunction ("function " ++ name ++ " is not defined")

/-- The type of the callee in a call with `n` arguments; new variables stand for its type
parameters. -/
def signature (outer : ScopeChain) (e : Expr) (name : String) (n : Nat) : Check FnType := do
  let (f, typeParams) ← callee outer e name
  let s ← get
  let (f, supply) := s.supply.instantiateFn f typeParams
  set { s with supply }
  if f.accepts n then pure f
  else
    problem e .arityMismatch
      ("function " ++ name ++ " expects " ++ f.arity ++ ", got " ++ toString n)

/-- Matches parameters with argument types from argument `i` on, and gives the bindings. -/
def matchArgs (e : Expr) (name : String) (f : FnType) : (i : Nat) → List Ty → Subst → Check Subst
  | _, [], s => pure s
  | i, a :: as, s =>
    match f.paramAt? i with
    | none => matchArgs e name f (i + 1) as s
    | some p =>
      match Ty.matchTypes? p a s with
      | none => throw .endless
      | some (true, s) => matchArgs e name f (i + 1) as s
      | some (false, s) =>
        problem e .typeMismatch
          ("argument " ++ toString (i + 1) ++ " of " ++ name ++ ": expected " ++
            (p.apply s).shown ++ ", got " ++ (a.apply s).shown)

mutual

/-- The type of an expression at a path; `outer` are the scopes around the innermost one. -/
def infer (outer : ScopeChain) (path : Path) (e : Expr) : Check Ty := do
  let t ← match e with
    | .number _ => pure Ty.number
    | .text _ => pure Ty.text
    | .bool _ => pure Ty.boolean
    | .ref name => do
      match (← chain outer).find? name with
      | some s => pure s.type
      | none => problem e .undefinedVariable ("variable " ++ name ++ " is not defined")
    | .assign name value => do
      let t ← infer outer (path ++ [0]) value
      modify fun s => { s with scope := s.scope.define name t }
      pure t
    | .binary op left right => do
      let l ← infer outer (path ++ [0]) left
      let r ← infer outer (path ++ [1]) right
      operatorType e op l r
    | .call name args => do
      let f ← signature outer e name args.length
      let types ← inferAll outer path 0 args
      let b ← matchArgs e name f 0 types ∅
      pure (f.result.apply b)
    | .ite c t f => do
      let ct ← infer outer (path ++ [0]) c
      condition c ct
      let tt ← infer outer (path ++ [1]) t
      let ft ← infer outer (path ++ [2]) f
      if tt.same ft then pure tt
      else
        problem e .typeMismatch
          ("branches of if must have the same type: then is " ++ tt.shown ++ ", else is " ++
            ft.shown)
    | .loop c b => do
      let ct ← infer outer (path ++ [0]) c
      condition c ct
      let _ ← infer outer (path ++ [1]) b
      pure Ty.void
    | .seq bodies => do
      let types ← inferAll outer path 0 bodies
      pure (types.getLast?.getD .void)
    | .list elems => do
      match elems with
      | [] => do pure (.list (← fresh "T"))
      | first :: rest => do
        let t ← infer outer (path ++ [0]) first
        inferElems outer path e t 1 rest
        pure (.list t)
    | .dict entries => do
      match entries with
      | [] => do
        let k ← fresh "K"
        let v ← fresh "V"
        pure (.dict k v)
      | (key, value) :: rest => do
        let k ← infer outer (path ++ [0]) key
        let v ← infer outer (path ++ [1]) value
        inferEntries outer path e k v 2 rest
        pure (.dict k v)
  note path t
  pure t
where
  /-- A condition is a truth value. -/
  condition (c : Expr) (t : Ty) : Check Unit :=
    if t.same .boolean then pure ()
    else problem c .typeMismatch
      ("condition must be " ++ Ty.boolean.shown ++ ", got " ++ t.shown)

/-- The types of expressions from left to right, which are the children from `i` on. -/
def inferAll (outer : ScopeChain) (path : Path) (i : Nat) : List Expr → Check (List Ty)
  | [] => pure []
  | e :: es => do
    let t ← infer outer (path ++ [i]) e
    let ts ← inferAll outer path (i + 1) es
    pure (t :: ts)

/-- The elements of `whole` from number `i` on have the type of the first one. -/
def inferElems (outer : ScopeChain) (path : Path) (whole : Expr) (first : Ty) (i : Nat) :
    List Expr → Check Unit
  | [] => pure ()
  | e :: es => do
    let t ← infer outer (path ++ [i]) e
    if t.same first then inferElems outer path whole first (i + 1) es
    else
      problem whole .typeMismatch
        ("all elements of a list must have the same type: element 0 is " ++ first.shown ++
          ", element " ++ toString i ++ " is " ++ t.shown)

/-- The entries of `whole`, whose children start at `i`, have the types of the first one. -/
def inferEntries (outer : ScopeChain) (path : Path) (whole : Expr) (key value : Ty) (i : Nat) :
    List (Expr × Expr) → Check Unit
  | [] => pure ()
  | (k, v) :: es => do
    let kt ← infer outer (path ++ [i]) k
    let vt ← infer outer (path ++ [i + 1]) v
    if !kt.same key then
      problem whole .typeMismatch
        ("all keys of a dictionary must have the same type: " ++ key.shown ++ " and " ++ kt.shown)
    else if !vt.same value then
      problem whole .typeMismatch
        ("all values of a dictionary must have the same type: " ++ value.shown ++ " and " ++
          vt.shown)
    else inferEntries outer path whole key value (i + 2) es

end

end Check

/-! ## The checker -/

/-- A checking session: the global scope, the supply of type variables, the file that reports name,
and the types recorded so far. -/
structure Checker where
  scope : Scope := {}
  supply : Supply := {}
  file : String := ""
  record : List (Path × Ty) := []
deriving Repr, Inhabited

namespace Checker

/-- A verdict and the session after it. -/
abbrev Session (α : Type) := Except Halt α × Checker

/-- Names the file of the session in a report that names none. -/
def withFile (c : Checker) : Halt → Halt
  | .fault d => .fault (d.withFile c.file)
  | .endless => .endless

/-- Checks an expression of unit `unit` in the global scope. Its assignments stay visible. -/
def checkExpr (c : Checker) (unit : Nat) (e : Expr) : Session Ty :=
  let (r, s) := (Check.infer [Scope.prelude] [unit] e).run ⟨c.scope, c.supply, c.record⟩
  let c := { c with scope := s.scope, supply := s.supply, record := s.record }
  (r.mapError c.withFile, c)

/-- The scope of a function body: its parameters. -/
def bodyScope (d : FunctionDef) : Scope :=
  d.params.foldl (fun s p => s.define p.name p.type) { kind := .function }

/-- Checks the body of unit `unit` against the declared result. Nothing but the supply and the
record changes. -/
def checkFunction (c : Checker) (unit : Nat) (d : FunctionDef) : Session Unit :=
  let (r, s) := (Check.infer [c.scope, Scope.prelude] [unit] d.body).run
    ⟨bodyScope d, c.supply, c.record⟩
  let c := { c with supply := s.supply, record := s.record }
  let r := r.bind fun t =>
    if t.same d.result then .ok ()
    else .error (.fault
      { code := .typeMismatch
        phase := .check
        text := "return type mismatch in function " ++ d.name ++ ": declared " ++ d.result.shown ++
          ", body has type " ++ t.shown
        node := d.body.compact Check.reportWidth })
  (r.mapError c.withFile, c)

/-- Registers the declared type of a function; all its types must be declared. -/
def declare (c : Checker) (d : FunctionDef) : Session Unit :=
  if d.isTyped then (.ok (), { c with scope := c.scope.defineFunction d })
  else
    (.error (c.withFile (.fault
      { code := .invalidProgram
        phase := .check
        text := "function " ++ d.name ++ " has no type annotations and cannot be checked" })), c)

/-- Adds one function to the session. If it fails, the previous one of that name stays. -/
def define (c : Checker) (d : FunctionDef) : Session Unit :=
  let previous := c.scope.funcs.get? d.name
  match c.declare d with
  | (.error h, c) => (.error h, c)
  | (.ok (), c) =>
    match c.checkFunction 0 d with
    | (.ok (), c) => (.ok (), c)
    | (.error h, c) =>
      let scope := match previous with
        | some f => c.scope.setFunction f
        | none => c.scope.removeFunction d.name
      (.error h, { c with scope })

/-- Registers functions in order, up to the first problem. -/
def declareAll : List FunctionDef → Checker → Session Unit
  | [], c => (.ok (), c)
  | d :: ds, c =>
    match c.declare d with
    | (.ok (), c) => declareAll ds c
    | failed => failed

/-- Checks bodies in order, which are the units from `unit` on. -/
def checkFunctions (unit : Nat) : List FunctionDef → Checker → Session Unit
  | [], c => (.ok (), c)
  | d :: ds, c =>
    match c.checkFunction unit d with
    | (.ok (), c) => checkFunctions (unit + 1) ds c
    | failed => failed

/-- Checks expressions in order, which are the units from `unit` on; the type is that of the last
one. -/
def checkExprs (unit : Nat) (last : Ty) : List Expr → Checker → Session Ty
  | [], c => (.ok last, c)
  | e :: es, c =>
    match c.checkExpr unit e with
    | (.ok t, c) => checkExprs (unit + 1) t es c
    | failed => failed

/-- Checks a program: all declared types, then all bodies, then the expressions. Its type is that of
the last expression. -/
def checkProgram (c : Checker) (p : Program) : Session Ty :=
  let c := if p.file.isEmpty then c else { c with file := p.file }
  match declareAll p.defs c with
  | (.error h, c) => (.error h, c)
  | (.ok (), c) =>
    match checkFunctions 0 p.defs c with
    | (.error h, c) => (.error h, c)
    | (.ok (), c) => checkExprs p.defs.length .void p.exprs c

end Checker

/-! ## The expressions of a program -/

mutual

/-- The expression and all expressions inside it with their paths, each before its children. -/
def Expr.nodes (path : Path) (e : Expr) : List (Path × Expr) :=
  (path, e) :: match e with
    | .number _ | .text _ | .bool _ | .ref _ => []
    | .assign _ v => v.nodes (path ++ [0])
    | .binary _ l r => l.nodes (path ++ [0]) ++ r.nodes (path ++ [1])
    | .call _ args => Expr.nodesAll path 0 args
    | .ite c t f => c.nodes (path ++ [0]) ++ t.nodes (path ++ [1]) ++ f.nodes (path ++ [2])
    | .loop c b => c.nodes (path ++ [0]) ++ b.nodes (path ++ [1])
    | .seq bodies => Expr.nodesAll path 0 bodies
    | .list elems => Expr.nodesAll path 0 elems
    | .dict entries => Expr.nodesEntries path 0 entries

/-- The expressions in a list, which are the children from `i` on. -/
def Expr.nodesAll (path : Path) (i : Nat) : List Expr → List (Path × Expr)
  | [] => []
  | e :: es => e.nodes (path ++ [i]) ++ Expr.nodesAll path (i + 1) es

/-- The expressions in entries, whose children start at `i`. -/
def Expr.nodesEntries (path : Path) (i : Nat) : List (Expr × Expr) → List (Path × Expr)
  | [] => []
  | (k, v) :: es =>
    k.nodes (path ++ [i]) ++ v.nodes (path ++ [i + 1]) ++ Expr.nodesEntries path (i + 2) es

end

/-- All expressions of a program with their paths: function bodies, then top-level expressions. -/
def Program.nodes (p : Program) : List (Path × Expr) :=
  units 0 (p.defs.map (·.body) ++ p.exprs)
where
  /-- The expressions of units from number `i` on. -/
  units (i : Nat) : List Expr → List (Path × Expr)
    | [] => []
    | e :: es => e.nodes [i] ++ units (i + 1) es

/-- The recorded expressions of a program with their types, in the order of the program. -/
def Checker.typed (c : Checker) (p : Program) : List (Expr × Ty) :=
  p.nodes.filterMap fun (path, e) => ((c.record.find? (·.1 == path)).map fun r => (e, r.2))

end TreeLang
