import TreeLang.Proofs.Typing.Programs
import TreeLang.Eval.Machine

/-!
# Function names

The checker and the machine find the same function under a name: the last definition of that name in
the program, else the builtin function. Main statements: `prelude_funcs_get?` and `prelude_get?` for
builtin functions, `Resolves.defineAll` for those of a program.
-/

namespace TreeLang

/-! ## Builtin functions -/

/-- The builtin function with a name. -/
def Primitive.named? (name : String) : Option Primitive := all.find? (·.name == name)

/-- The symbol of a builtin function. -/
def FnSymbol.ofPrimitive (p : Primitive) : FnSymbol :=
  { name := p.name, type := p.type, typeParams := p.typeParams, builtin := true }

theorem Table.lookup_map {α β : Type} (key : α → String) (f : α → β) (name : String)
    (xs : List α) :
    lookup name (xs.map fun x => (key x, f x)) = (xs.find? (key · == name)).map f := by
  induction xs with
  | nil => rfl
  | cons x xs ih =>
    by_cases h : key x = name
    · simp [lookup, h]
    · simp [lookup, h, ih]

theorem prelude_get? (name : String) :
    Machine.prelude.get? name = (Primitive.named? name).map Builtin.ofPrimitive := by
  have hentries : Machine.prelude.entries =
      Primitive.all.map fun p => (p.name, Builtin.ofPrimitive p) := rfl
  rw [Table.get?, hentries, Table.lookup_map]
  rfl

theorem prelude_funcs_get? (name : String) :
    Scope.prelude.funcs.get? name = (Primitive.named? name).map FnSymbol.ofPrimitive := by
  have hentries : Scope.prelude.funcs.entries =
      Primitive.all.map fun p => (p.name, FnSymbol.ofPrimitive p) := rfl
  rw [Table.get?, hentries, Table.lookup_map]
  rfl

/-! ## Functions of a program -/

/-- The symbol of a user function. -/
def UserFunction.symbol (f : UserFunction) : FnSymbol := .ofDef f.definition

/-- The symbols in a scope are those of the functions of a machine. -/
def Resolves (funcs : Table FnSymbol) (functions : Table UserFunction) : Prop :=
  ∀ name, funcs.get? name = (functions.get? name).map UserFunction.symbol

theorem Resolves.define {s : Scope} {m : Machine} (h : Resolves s.funcs m.functions)
    (d : FunctionDef) : Resolves (s.defineFunction d).funcs (m.define d).functions := by
  intro name
  simp only [Scope.defineFunction, Scope.setFunction, Machine.define, Table.get?_insert,
    FnSymbol.ofDef]
  split
  · rfl
  · exact h name

theorem Resolves.defineAll {s : Scope} {m : Machine} (h : Resolves s.funcs m.functions)
    (defs : List FunctionDef) : Resolves (s.defineAll defs).funcs (m.defineAll defs).functions := by
  induction defs generalizing s m with
  | nil => exact h
  | cons d ds ih => exact ih (h.define d)

/-- Functions leave the variables of a scope alone. -/
theorem Scope.vars_defineAll (s : Scope) (defs : List FunctionDef) :
    (s.defineAll defs).vars = s.vars := by
  induction defs generalizing s with
  | nil => rfl
  | cons d ds ih => exact ih (s.defineFunction d)

/-- The functions of a program are those that it defines. -/
theorem Machine.isSome_functions_defineAll (m : Machine) (defs : List FunctionDef)
    (name : String) :
    ((m.defineAll defs).functions.get? name).isSome =
      ((m.functions.get? name).isSome || defs.any (·.name == name)) := by
  induction defs generalizing m with
  | nil => simp [Machine.defineAll]
  | cons d ds ih =>
    have hdefine : ((m.define d).functions.get? name).isSome =
        ((m.functions.get? name).isSome || d.name == name) := by
      rw [Machine.define, Table.get?_insert]
      by_cases hname : d.name = name <;> simp [hname]
    rw [List.any_cons, ← Bool.or_assoc, ← hdefine]
    exact ih (m.define d)

/-- The functions of a machine are known under their names and come from a list of definitions. -/
def Machine.Holds (m : Machine) (defs : List FunctionDef) : Prop :=
  ∀ name f, m.functions.get? name = some f → f.definition ∈ defs ∧ f.definition.name = name

theorem Machine.Holds.define {m : Machine} {defs : List FunctionDef} (h : m.Holds defs)
    {d : FunctionDef} (hd : d ∈ defs) : (m.define d).Holds defs := by
  intro name f hf
  simp only [Machine.define, Table.get?_insert] at hf
  split at hf
  · next hname =>
    cases hf
    exact ⟨hd, hname⟩
  · exact h name f hf

theorem Machine.Holds.defineAll {m : Machine} {defs : List FunctionDef} (h : m.Holds defs)
    {ds : List FunctionDef} (hds : ∀ d ∈ ds, d ∈ defs) : (m.defineAll ds).Holds defs := by
  induction ds generalizing m with
  | nil => exact h
  | cons d ds ih =>
    exact ih (h.define (hds d (by simp))) fun x hx => hds x (by simp [hx])

/-- A machine that starts without functions holds those of the program. -/
theorem Machine.holds_defineAll {m : Machine} (h : m.functions = ∅) (defs : List FunctionDef) :
    (m.defineAll defs).Holds defs := by
  apply Machine.Holds.defineAll _ fun d hd => hd
  intro name f hf
  rw [h] at hf
  cases hf

/-- Definitions leave everything but the functions alone. -/
theorem Machine.defineAll_eq (m : Machine) (defs : List FunctionDef) :
    ∃ functions nextStamp, m.defineAll defs = { m with functions, nextStamp } := by
  induction defs generalizing m with
  | nil => exact ⟨m.functions, m.nextStamp, rfl⟩
  | cons d ds ih =>
    rcases ih (m.define d) with ⟨functions, nextStamp, h⟩
    exact ⟨functions, nextStamp, h⟩

@[simp] theorem Machine.scoping_defineAll (m : Machine) (defs : List FunctionDef) :
    (m.defineAll defs).scoping = m.scoping := by
  rcases m.defineAll_eq defs with ⟨functions, nextStamp, heq⟩
  rw [heq]

@[simp] theorem Machine.builtins_defineAll (m : Machine) (defs : List FunctionDef) :
    (m.defineAll defs).builtins = m.builtins := by
  rcases m.defineAll_eq defs with ⟨functions, nextStamp, heq⟩
  rw [heq]

@[simp] theorem Machine.host_defineAll (m : Machine) (defs : List FunctionDef) :
    (m.defineAll defs).host = m.host := by
  rcases m.defineAll_eq defs with ⟨functions, nextStamp, heq⟩
  rw [heq]

/-! ## Machines for checked programs -/

/-- The function values that can come up: those of the machine, and the builtin ones. -/
def Machine.Knows (m : Machine) : Value → Prop
  | .function f => ∃ name, m.functions.get? name = some f
  | .builtin b => ∃ p, b = Builtin.ofPrimitive p
  | _ => False

/-- A machine that runs programs as they are checked: under the static policy, with the builtin
functions and those that a scope knows. -/
structure Machine.Matches (m : Machine) (funcs : Table FnSymbol) : Prop where
  static : m.scoping = .static
  builtins : m.builtins = Machine.prelude
  resolves : Resolves funcs m.functions

namespace Machine.Matches

variable {m : Machine} {funcs : Table FnSymbol} {name : String}

theorem function?_user (hm : m.Matches funcs) {f : FnSymbol} (h : funcs.get? name = some f) :
    ∃ u, m.function? name = some (.function u) ∧ m.Knows (.function u) ∧ f = u.symbol := by
  have hres := hm.resolves name
  rw [h] at hres
  rcases Option.map_eq_some_iff.mp hres.symm with ⟨u, hu, rfl⟩
  exact ⟨u, by simp [Machine.function?, hu], ⟨name, hu⟩, rfl⟩

theorem function?_other (hm : m.Matches funcs) (h : funcs.get? name = none) :
    m.function? name = (Primitive.named? name).map fun p => .builtin (.ofPrimitive p) := by
  have hres := hm.resolves name
  rw [h] at hres
  have hnone : m.functions.get? name = none := Option.map_eq_none_iff.mp hres.symm
  rw [Machine.function?, hnone, hm.builtins]
  simp only [prelude_get?, Option.map_map]
  rfl

/-- A machine without functions of its own matches the scope of a program. -/
theorem defineAll (hempty : m.functions = ∅) (hstatic : m.scoping = .static)
    (hbuiltins : m.builtins = Machine.prelude) (defs : List FunctionDef) :
    (m.defineAll defs).Matches (Scope.defineAll {} defs).funcs := by
  refine ⟨(m.scoping_defineAll defs).trans hstatic, (m.builtins_defineAll defs).trans hbuiltins, ?_⟩
  apply Resolves.defineAll
  intro name
  rw [hempty]
  rfl

end Machine.Matches

/-! ## What a place in a program sees -/

/-- A place in a program: it sees the functions of the program and the builtin ones, and the
variables of its own scope only. -/
structure Sees (funcs : Table FnSymbol) (outer : ScopeChain) (s : Scope) : Prop where
  function : ∀ name, ScopeChain.findFunction name (s :: outer) =
    (funcs.get? name).or ((Primitive.named? name).map FnSymbol.ofPrimitive)
  closed : s.kind = .function ∨ ∀ name, ScopeChain.findVariable name outer = none

namespace Sees

variable {funcs : Table FnSymbol} {outer : ScopeChain} {s s' : Scope}

theorem findVariable_eq (h : Sees funcs outer s) (name : String) :
    ScopeChain.findVariable name (s :: outer) = s.vars.get? name := by
  rw [ScopeChain.findVariable]
  split
  · next t ht => exact ht.symm
  · next hnone =>
    rw [hnone]
    -- A function scope ends the search, and around the global scope there is nothing to find.
    rcases h.closed with hkind | houter
    · simp [hkind]
    · simp [houter]

/-- What a callee is: a function of the program, a builtin function, or a variable. -/
theorem callee_cases (h : Sees funcs outer s) {name : String} {g : FnType}
    {typeParams : List String}
    (hcallee : ScopeChain.callee? (s :: outer) name = some (g, typeParams)) :
    (∃ f, funcs.get? name = some f ∧ g = f.type) ∨
      (∃ p, funcs.get? name = none ∧ Primitive.named? name = some p ∧ g = p.type) ∨
      (funcs.get? name = none ∧ Primitive.named? name = none ∧
        s.vars.get? name = some g.toTy) := by
  rw [ScopeChain.callee?, h.function name] at hcallee
  cases hfuncs : funcs.get? name with
  | some f =>
    rw [hfuncs, Option.some_or] at hcallee
    cases hcallee
    exact Or.inl ⟨f, rfl, rfl⟩
  | none =>
    rw [hfuncs, Option.none_or] at hcallee
    cases hprim : Primitive.named? name with
    | some p =>
      rw [hprim] at hcallee
      cases hcallee
      exact Or.inr (Or.inl ⟨p, rfl, rfl, rfl⟩)
    | none =>
      rw [hprim] at hcallee
      rcases Option.bind_eq_some_iff.mp hcallee with ⟨t, ht, hg⟩
      rcases Option.map_eq_some_iff.mp hg with ⟨g', hg', heq⟩
      cases heq
      have htoTy : t = g.toTy := by
        cases t <;> cases hg'
        rfl
      rw [h.findVariable_eq name, htoTy] at ht
      exact Or.inr (Or.inr ⟨rfl, rfl, ht⟩)

/-- What a reference means: a variable, a function of the program, or a builtin function. -/
theorem find_cases (h : Sees funcs outer s) {name : String} {sym : Symbol}
    (hfind : ScopeChain.find? (s :: outer) name = some sym) :
    (∃ t, s.vars.get? name = some t ∧ sym = .var name t) ∨
      (s.vars.get? name = none ∧ ∃ f, funcs.get? name = some f ∧ sym = .function f) ∨
      (s.vars.get? name = none ∧ funcs.get? name = none ∧
        ∃ p, Primitive.named? name = some p ∧ sym = .function (.ofPrimitive p)) := by
  rw [ScopeChain.find?, h.findVariable_eq name] at hfind
  cases hvar : s.vars.get? name with
  | some t =>
    rw [hvar] at hfind
    exact Or.inl ⟨t, rfl, (Option.some.inj hfind).symm⟩
  | none =>
    rw [hvar, h.function name] at hfind
    cases hfuncs : funcs.get? name with
    | some f =>
      rw [hfuncs] at hfind
      exact Or.inr (Or.inl ⟨rfl, f, rfl, (Option.some.inj hfind).symm⟩)
    | none =>
      rw [hfuncs, Option.none_or] at hfind
      cases hprim : Primitive.named? name with
      | some p =>
        rw [hprim] at hfind
        exact Or.inr (Or.inr ⟨rfl, rfl, p, rfl, (Option.some.inj hfind).symm⟩)
      | none =>
        rw [hprim] at hfind
        cases hfind

/-- Variables have no part in what a place sees. -/
theorem of_eq (h : Sees funcs outer s) (hkind : s'.kind = s.kind) (hfuncs : s'.funcs = s.funcs) :
    Sees funcs outer s' := by
  refine ⟨fun name => ?_, by rw [hkind]; exact h.closed⟩
  rw [← h.function name, ScopeChain.findFunction, ScopeChain.findFunction, hfuncs]

/-- Top-level expressions see the functions of the program. -/
theorem global (s : Scope) : Sees s.funcs [Scope.prelude] s := by
  refine ⟨fun name => ?_, Or.inr fun name => rfl⟩
  rw [ScopeChain.findFunction]
  cases s.funcs.get? name with
  | some f => rfl
  | none =>
    rw [Option.none_or, ← prelude_funcs_get?, ScopeChain.findFunction]
    cases Scope.prelude.funcs.get? name <;> rfl

/-- So do function bodies. -/
theorem body (globals : Scope) (hkind : s.kind = .function) (hfuncs : s.funcs = ∅) :
    Sees globals.funcs [globals, Scope.prelude] s := by
  refine ⟨fun name => ?_, Or.inl hkind⟩
  -- A body has no functions of its own, so that the search goes on in the global scope.
  rw [ScopeChain.findFunction, hfuncs]
  change ScopeChain.findFunction name [globals, Scope.prelude] = _
  rw [ScopeChain.findFunction]
  cases globals.funcs.get? name with
  | some f => rfl
  | none =>
    rw [Option.none_or, ← prelude_funcs_get?, ScopeChain.findFunction]
    cases Scope.prelude.funcs.get? name <;> rfl

end Sees

/-! ## The scope of a function body -/

theorem bodyScope_kind_funcs (params : List Param) (s : Scope) :
    (params.foldl (fun s p => s.define p.name p.type) s).kind = s.kind ∧
      (params.foldl (fun s p => s.define p.name p.type) s).funcs = s.funcs := by
  induction params generalizing s with
  | nil => exact ⟨rfl, rfl⟩
  | cons p params ih => exact ih (s.define p.name p.type)

theorem bodyScope_vars {params : List Param} {s : Scope} {x : String} {t : Ty}
    (h : (params.foldl (fun s p => s.define p.name p.type) s).vars.get? x = some t) :
    (∃ p ∈ params, p.name = x ∧ p.type = t) ∨ s.vars.get? x = some t := by
  induction params generalizing s with
  | nil => exact Or.inr h
  | cons p params ih =>
    rcases ih h with ⟨q, hq, hname, htype⟩ | hs
    · exact Or.inl ⟨q, by simp [hq], hname, htype⟩
    · have hs' : (s.define p.name p.type).vars.get? x = some t := hs
      rw [Scope.define, Table.get?_insert] at hs'
      split at hs'
      · next hname =>
        cases hs'
        exact Or.inl ⟨p, by simp, hname, rfl⟩
      · exact Or.inr hs'

/-- The body of a function sees the functions of the program. -/
theorem Sees.bodyScope (globals : Scope) (d : FunctionDef) :
    Sees globals.funcs [globals, Scope.prelude] (Checker.bodyScope d) := by
  have h := bodyScope_kind_funcs d.params { kind := .function }
  exact Sees.body globals h.1 h.2

end TreeLang
