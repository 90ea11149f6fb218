import TreeLang.Proofs.Table
import TreeLang.Proofs.Typing.Resolution

/-!
# Assignments along the ways through a program

The checker binds a variable at every assignment that it passes, also in branches and loops, while a
run has only the variables whose assignments it has reached. `Flow` keeps both apart, and
`Expr.settled` decides whether every name that the checker may have bound is one that a run has.
Main statements: `Typed.grown` and `TypedAll.binds`, by which the checker binds the names that are
assigned on some way and no others.
-/

namespace TreeLang

/-- Which ways through an expression count. -/
inductive Ways where
  | some
  | every
deriving DecidableEq

mutual

/-- The names that are assigned on some way, or on every way, through an expression that ends with a
value. -/
def Expr.assigned (w : Ways) : Expr → List String
  | .number _ | .text _ | .bool _ | .ref _ => []
  | .assign name value => value.assigned w ++ [name]
  | .binary _ l r => l.assigned w ++ r.assigned w
  | .call _ args => Expr.assignedAll w args
  | .ite c t f => c.assigned w ++ match w with
    | .some => t.assigned .some ++ f.assigned .some
    | .every => (t.assigned .every).filter (f.assigned .every).contains
  | .loop c b => c.assigned w ++ match w with
    | .some => b.assigned .some
    | .every => []
  | .seq bodies => Expr.assignedAll w bodies
  | .list elems => Expr.assignedAll w elems
  | .dict entries => Expr.assignedEntries w entries

/-- The names that are assigned in expressions one after the other. -/
def Expr.assignedAll (w : Ways) : List Expr → List String
  | [] => []
  | e :: es => e.assigned w ++ Expr.assignedAll w es

/-- The names that are assigned in entries one after the other. -/
def Expr.assignedEntries (w : Ways) : List (Expr × Expr) → List String
  | [] => []
  | (k, v) :: es => k.assigned w ++ v.assigned w ++ Expr.assignedEntries w es

end

theorem Expr.assignedAll_eq_flatMap (w : Ways) (es : List Expr) :
    assignedAll w es = es.flatMap (assigned w) := by
  induction es with
  | nil => rfl
  | cons e es ih => rw [assignedAll, ih, List.flatMap_cons]

theorem Expr.assignedEntries_eq_flatMap (w : Ways) (es : List (Expr × Expr)) :
    assignedEntries w es = es.flatMap fun e => e.1.assigned w ++ e.2.assigned w := by
  induction es with
  | nil => rfl
  | cons e es ih => rw [assignedEntries, ih, List.flatMap_cons]

/-- The names that are assigned on some way to a place, and those assigned on every way. -/
structure Flow where
  may : List String
  must : List String

namespace Flow

/-- The flow behind an expression. -/
def after (f : Flow) (e : Expr) : Flow := ⟨f.may ++ e.assigned .some, f.must ++ e.assigned .every⟩

/-- The flow behind an expression that was passed by. -/
def past (f : Flow) (e : Expr) : Flow := ⟨f.may ++ e.assigned .some, f.must⟩

/-- A name that may have been assigned has been assigned, or is that of a function. -/
def settles (isFunction : String → Bool) (f : Flow) (name : String) : Bool :=
  !f.may.contains name || f.must.contains name || isFunction name

end Flow

mutual

/-- Every reference and every callee in an expression is settled where it stands. -/
def Expr.settled (isFunction : String → Bool) (f : Flow) (e : Expr) : Bool :=
  match e with
  | .number _ | .text _ | .bool _ => true
  | .ref name => f.settles isFunction name
  | .assign _ value => value.settled isFunction f
  | .binary _ l r => l.settled isFunction f && r.settled isFunction (f.after l)
  | .call name args => f.settles isFunction name && Expr.settledAll isFunction f args
  | .ite c t e =>
    c.settled isFunction f && t.settled isFunction (f.after c) &&
      e.settled isFunction ((f.after c).past t)
  | .loop c b => c.settled isFunction f && b.settled isFunction (f.after c)
  | .seq bodies => Expr.settledAll isFunction f bodies
  | .list elems => Expr.settledAll isFunction f elems
  | .dict entries => Expr.settledEntries isFunction f entries

/-- The expressions are settled one after the other. -/
def Expr.settledAll (isFunction : String → Bool) (f : Flow) : List Expr → Bool
  | [] => true
  | e :: es => e.settled isFunction f && Expr.settledAll isFunction (f.after e) es

/-- The entries are settled one after the other. -/
def Expr.settledEntries (isFunction : String → Bool) (f : Flow) : List (Expr × Expr) → Bool
  | [] => true
  | (k, v) :: es =>
    k.settled isFunction f && v.settled isFunction (f.after k) &&
      Expr.settledEntries isFunction ((f.after k).after v) es

end

/-- The name is that of a function of the program or of a builtin one. -/
def Program.isFunction (p : Program) (name : String) : Bool :=
  p.defs.any (·.name == name) || (Primitive.named? name).isSome

/-- A machine without functions of its own knows the functions of the program. -/
theorem Program.isFunction_eq {m : Machine} {p : Program} (hempty : m.functions = ∅)
    (hbuiltins : m.builtins = Machine.prelude) (name : String) :
    p.isFunction name = ((m.defineAll p.defs).function? name).isSome := by
  have hfuncs := m.isSome_functions_defineAll p.defs name
  have hnone : m.functions.get? name = none := by
    rw [hempty]
    rfl
  rw [hnone, Option.isSome_none, Bool.false_or] at hfuncs
  rw [isFunction, ← hfuncs, Machine.function?, Machine.builtins_defineAll, hbuiltins]
  cases (m.defineAll p.defs).functions.get? name with
  | some u => rfl
  | none => simp only [prelude_get?, Option.isSome_none, Bool.false_or, Option.isSome_map]

/-- All names in a program are settled. A body starts with its parameters. -/
def Program.settled (p : Program) : Bool :=
  (p.defs.all fun d => d.body.settled p.isFunction ⟨d.paramNames, d.paramNames⟩) &&
    Expr.settledAll p.isFunction ⟨[], []⟩ p.exprs

/-! ## Names that the checker binds -/

/-- Checking changes a scope by binding some of the names. -/
structure Grown (names : List String) (s s' : Scope) : Prop where
  kind : s'.kind = s.kind
  funcs : s'.funcs = s.funcs
  vars : ∀ x t, s'.vars.get? x = some t → (∃ u, s.vars.get? x = some u) ∨ x ∈ names

namespace Grown

variable {names names' : List String} {s s' s'' : Scope}

theorem refl (s : Scope) : Grown names s s := ⟨rfl, rfl, fun _ t h => Or.inl ⟨t, h⟩⟩

theorem trans (h : Grown names s s') (h' : Grown names' s' s'') :
    Grown (names ++ names') s s'' := by
  refine ⟨h'.kind.trans h.kind, h'.funcs.trans h.funcs, fun x t hx => ?_⟩
  rcases h'.vars x t hx with ⟨u, hu⟩ | hmem
  · rcases h.vars x u hu with hs | hmem
    · exact Or.inl hs
    · exact Or.inr (by simp [hmem])
  · exact Or.inr (by simp [hmem])

theorem define (s : Scope) (name : String) (t : Ty) : Grown [name] s (s.define name t) := by
  refine ⟨rfl, rfl, fun x u hx => ?_⟩
  rw [Scope.define, Table.get?_insert] at hx
  split at hx
  · next hname => exact Or.inr (by simp [hname])
  · exact Or.inl ⟨u, hx⟩

end Grown

/-- After checking, the variables of before and all of the names are bound. -/
def Binds (names : List String) (s s' : Scope) : Prop :=
  ∀ x, s.vars.contains x = true ∨ x ∈ names → s'.vars.contains x = true

theorem Binds.mono {names names' : List String} {s s' : Scope} (h : Binds names' s s')
    (hsub : names ⊆ names') : Binds names s s' :=
  fun x hx => h x (hx.imp_right fun hmem => hsub hmem)

/-- A relation between scopes that adds up along assignments. -/
structure Accumulates (R : List String → Scope → Scope → Prop) : Prop where
  refl : ∀ s, R [] s s
  trans : ∀ {names names' s s' s''}, R names s s' → R names' s' s'' → R (names ++ names') s s''
  define : ∀ s name t, R [name] s (s.define name t)

theorem Grown.accumulates : Accumulates Grown := ⟨.refl, .trans, .define⟩

theorem Binds.accumulates : Accumulates Binds where
  refl s x hx := by simpa using hx
  trans {names names' s s' s''} h h' x hx := by
    apply h'
    rcases hx with hx | hx
    · exact .inl (h x (.inl hx))
    · rcases List.mem_append.mp hx with hx | hx
      · exact .inl (h x (.inr hx))
      · exact .inr hx
  define s name t x hx := by
    rw [Scope.define, Table.contains_insert]
    rcases hx with hx | hx
    · exact .inr hx
    · exact .inl (List.mem_singleton.mp hx)

section Checker

variable {outer : ScopeChain} {R : List String → Scope → Scope → Prop}

/-- Checking the expression changes the scope by what its assignments add up to. -/
def AddsUp (R : List String → Scope → Scope → Prop) (outer : ScopeChain) (e : Expr) : Prop :=
  ∀ {σ σ' : Setting} {t : Ty}, Typed outer σ e t σ' → R (e.assigned .some) σ.scope σ'.scope

theorem TypedAll.accumulates (hR : Accumulates R) {es : List Expr}
    (hes : ∀ e ∈ es, AddsUp R outer e) {σ σ' : Setting} {ts : List Ty}
    (h : TypedAll outer σ es ts σ') : R (Expr.assignedAll .some es) σ.scope σ'.scope := by
  induction es generalizing σ ts with
  | nil =>
    cases h
    exact hR.refl _
  | cons e es ih =>
    cases h with
    | cons he hrest =>
      exact hR.trans (hes e (by simp) he) (ih (fun x hx => hes x (by simp [hx])) hrest)

theorem TypedElems.accumulates (hR : Accumulates R) {es : List Expr}
    (hes : ∀ e ∈ es, AddsUp R outer e) {first : Ty} {σ σ' : Setting}
    (h : TypedElems outer first σ es σ') : R (Expr.assignedAll .some es) σ.scope σ'.scope := by
  induction es generalizing σ with
  | nil =>
    cases h
    exact hR.refl _
  | cons e es ih =>
    cases h with
    | cons he _ hrest =>
      exact hR.trans (hes e (by simp) he) (ih (fun x hx => hes x (by simp [hx])) hrest)

theorem TypedEntries.accumulates (hR : Accumulates R) {es : List (Expr × Expr)}
    (hes : ∀ e ∈ es, AddsUp R outer e.1 ∧ AddsUp R outer e.2) {kt vt : Ty} {σ σ' : Setting}
    (h : TypedEntries outer kt vt σ es σ') :
    R (Expr.assignedEntries .some es) σ.scope σ'.scope := by
  induction es generalizing σ with
  | nil =>
    cases h
    exact hR.refl _
  | cons e es ih =>
    cases h with
    | cons hk hv _ _ hrest =>
      have hhead := hes _ (List.mem_cons_self ..)
      exact hR.trans (hR.trans (hhead.1 hk) (hhead.2 hv))
        (ih (fun x hx => hes x (by simp [hx])) hrest)

/-- The checker goes through all assignments of the text, each in its place. -/
theorem Typed.accumulates (hR : Accumulates R) (e : Expr) : AddsUp R outer e := by
  induction e with
  | number | text | bool | ref =>
    intro σ σ' t h
    cases h
    exact hR.refl _
  | assign name value ih =>
    intro σ σ' t h
    cases h with
    | assign hv => exact hR.trans (ih hv) (hR.define _ name t)
  | binary op l r ihl ihr =>
    intro σ σ' t h
    cases h with
    | binary hl hr _ => exact hR.trans (ihl hl) (ihr hr)
  | call name args ih =>
    intro σ σ' t h
    cases h with
    | call hf hts _ =>
      -- The callee takes new type variables and binds no names.
      rcases hf with ⟨g, typeParams, -, -, hscope, -⟩
      rw [← hscope]
      exact hts.accumulates hR ih
  | ite c t f ihc iht ihf =>
    intro σ σ' u h
    cases h with
    -- The checker goes through both branches.
    | ite hc ht hf _ => exact hR.trans (ihc hc) (hR.trans (iht ht) (ihf hf))
  | loop c b ihc ihb =>
    intro σ σ' u h
    cases h with
    | loop hc hb => exact hR.trans (ihc hc) (ihb hb)
  | seq bodies ih =>
    intro σ σ' u h
    cases h with
    | seq hts => exact hts.accumulates hR ih
  | list elems ih =>
    intro σ σ' u h
    cases h with
    | emptyList => exact hR.refl _
    | list he hes =>
      exact hR.trans (ih _ (by simp) he) (hes.accumulates hR fun x hx => ih x (by simp [hx]))
  | dict entries ih =>
    intro σ σ' u h
    cases h with
    | emptyDict => exact hR.refl _
    | dict hk hv hes =>
      have hhead := ih _ (List.mem_cons_self ..)
      exact hR.trans (hR.trans (hhead.1 hk) (hhead.2 hv))
        (hes.accumulates hR fun x hx => ih x (by simp [hx]))

/-- Checking the expression binds no names but those that it assigns on some way. -/
def BindsAssigned (outer : ScopeChain) (e : Expr) : Prop :=
  ∀ {σ σ' : Setting} {t : Ty}, Typed outer σ e t σ' →
    Grown (e.assigned .some) σ.scope σ'.scope

/-- The checker binds no names but those that are assigned on some way. -/
theorem Typed.grown (e : Expr) : BindsAssigned outer e := Typed.accumulates Grown.accumulates e

/-- The checker binds all names that are assigned on some way. -/
theorem TypedAll.binds {es : List Expr} {σ σ' : Setting} {ts : List Ty}
    (h : TypedAll outer σ es ts σ') : Binds (Expr.assignedAll .some es) σ.scope σ'.scope :=
  h.accumulates Binds.accumulates fun e _ => Typed.accumulates Binds.accumulates e

end Checker

end TreeLang
