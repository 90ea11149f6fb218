import TreeLang.Proofs.Typing.Resolution
import TreeLang.Proofs.Typing.Calls

/-!
# The monomorphic core

The part of the language in which every type that the checker meets is ground. `Expr.inCore` decides
whether an expression belongs to it, by checking its parts in the settings in which the checker
meets them. Main statement: `Typed.core`, by which types in the core are ground and assignments in
branches and loops leave the types of variables as they are.
-/

namespace TreeLang

/-! ## What checking leaves -/

namespace Check

/-- The setting that a step of checking leaves, also when it stops. -/
def leaves {α : Type} (x : Check α) (σ : Setting) : Setting := (x.run (σ.state [])).2.setting

/-- The answer of a step of checking. -/
def answer? {α : Type} (x : Check α) (σ : Setting) : Option α :=
  match (x.run (σ.state [])).1 with
  | .ok a => some a
  | .error _ => none

end Check

namespace Setting

/-- The setting after an expression. -/
def after (outer : ScopeChain) (σ : Setting) (e : Expr) : Setting :=
  Check.leaves (Check.infer outer [] e) σ

/-- The type of an expression. -/
def typeOf? (outer : ScopeChain) (σ : Setting) (e : Expr) : Option Ty :=
  Check.answer? (Check.infer outer [] e) σ

/-- The setting in which the arguments of a call are checked. -/
def afterCallee (outer : ScopeChain) (σ : Setting) (e : Expr) (name : String) (n : Nat) : Setting :=
  Check.leaves (Check.signature outer e name n) σ

/-- The variable is bound, and its type is this one. -/
def binds (σ : Setting) (name : String) (t : Option Ty) : Bool :=
  match σ.scope.vars.get? name, t with
  | some a, some b => a.same b
  | _, _ => false

end Setting

/-! ## Membership in the core -/

/-- The name stands for a variable or for a function without type parameters. -/
def Symbol.isMono : Symbol → Bool
  | .var _ _ => true
  | .function f => f.typeParams.isEmpty

/-- The builtin functions whose declared types promise more than they keep. -/
def Primitive.partials : List Primitive := [.get, .len]

/-- The function may be called in the core. -/
def FnSymbol.inCore (f : FnSymbol) : Bool :=
  !(f.builtin && Primitive.partials.any (·.name == f.name))

/-- The types that a literal dictionary may have keys of. -/
def Ty.isKeyType (t : Ty) : Bool := t.same .number || t.same .text || t.same .boolean

mutual

/-- The expression belongs to the core when it is checked in a setting: it has no empty collection,
refers to no generic function and calls neither `get` nor `len`, its dictionaries have keys that can
be keys, and in a branch or in a loop it assigns only variables that have the same type already. -/
def Expr.inCore (outer : ScopeChain) (branch : Bool) (σ : Setting) (e : Expr) : Bool :=
  match e with
  | .number _ | .text _ | .bool _ => true
  | .ref name => (ScopeChain.find? (σ.scope :: outer) name).all Symbol.isMono
  | .assign name value =>
    value.inCore outer branch σ &&
      (!branch || (σ.after outer value).binds name (σ.typeOf? outer value))
  | .binary _ l r => l.inCore outer branch σ && r.inCore outer branch (σ.after outer l)
  | .call name args =>
    (ScopeChain.findFunction name (σ.scope :: outer)).all FnSymbol.inCore &&
      Expr.inCoreAll outer branch (σ.afterCallee outer e name args.length) args
  | .ite c t f =>
    c.inCore outer branch σ && t.inCore outer true (σ.after outer c) &&
      f.inCore outer true ((σ.after outer c).after outer t)
  | .loop c b => c.inCore outer true σ && b.inCore outer true (σ.after outer c)
  | .seq bodies => Expr.inCoreAll outer branch σ bodies
  | .list elems => !elems.isEmpty && Expr.inCoreAll outer branch σ elems
  | .dict entries => !entries.isEmpty && Expr.inCoreEntries outer branch σ entries

/-- The expressions belong to the core one after the other. -/
def Expr.inCoreAll (outer : ScopeChain) (branch : Bool) (σ : Setting) : List Expr → Bool
  | [] => true
  | e :: es => e.inCore outer branch σ && Expr.inCoreAll outer branch (σ.after outer e) es

/-- The entries belong to the core one after the other. -/
def Expr.inCoreEntries (outer : ScopeChain) (branch : Bool) (σ : Setting) :
    List (Expr × Expr) → Bool
  | [] => true
  | (k, v) :: es =>
    k.inCore outer branch σ && (σ.typeOf? outer k).any Ty.isKeyType &&
      v.inCore outer branch (σ.after outer k) &&
      Expr.inCoreEntries outer branch ((σ.after outer k).after outer v) es

end

/-- All declared types are ground, and there are no type parameters. -/
def FunctionDef.isMono (d : FunctionDef) : Bool :=
  d.typeParams.isEmpty && (d.params.all fun p => decide p.type.Ground) && decide d.result.Ground

/-- The bodies belong to the core when they are checked one after the other. -/
def FunctionDef.bodiesInCore (globals : Scope) : Supply → List FunctionDef → Bool
  | _, [] => true
  | supply, d :: ds =>
    let σ : Setting := ⟨Checker.bodyScope d, supply⟩
    d.body.inCore [globals, Scope.prelude] false σ &&
      bodiesInCore globals (σ.after [globals, Scope.prelude] d.body).supply ds

/-- The supply after the bodies have been checked. -/
def FunctionDef.supplyAfter (globals : Scope) : Supply → List FunctionDef → Supply
  | supply, [] => supply
  | supply, d :: ds =>
    let σ : Setting := ⟨Checker.bodyScope d, supply⟩
    supplyAfter globals (σ.after [globals, Scope.prelude] d.body).supply ds

/-- The program belongs to the core when it is checked by a new session with a supply. -/
def Program.inCore (supply : Supply) (p : Program) : Bool :=
  let globals := Scope.defineAll {} p.defs
  p.defs.all FunctionDef.isMono && FunctionDef.bodiesInCore globals supply p.defs &&
    Expr.inCoreAll [Scope.prelude] false ⟨globals, FunctionDef.supplyAfter globals supply p.defs⟩
      p.exprs

theorem Setting.get?_of_binds {σ : Setting} {name : String} {t : Ty}
    (h : σ.binds name (some t) = true) : σ.scope.vars.get? name = some t := by
  unfold Setting.binds at h
  cases hvar : σ.scope.vars.get? name with
  | none => simp [hvar] at h
  | some a =>
    simp only [hvar] at h
    rw [Ty.eq_of_same h]

/-! ## Settings along a derivation -/

section Leaves

variable {outer : ScopeChain} {σ σ' : Setting} {e : Expr} {t : Ty}

theorem Typed.after_eq (h : Typed outer σ e t σ') : σ.after outer e = σ' := by
  rcases Check.infer_complete e h [] [] with ⟨record, hrun⟩
  rw [Setting.after, Check.leaves, hrun]
  rfl

theorem Typed.typeOf?_eq (h : Typed outer σ e t σ') : σ.typeOf? outer e = some t := by
  rcases Check.infer_complete e h [] [] with ⟨record, hrun⟩
  rw [Setting.typeOf?, Check.answer?, hrun]

theorem Signed.afterCallee_eq {name : String} {n : Nat} {f : FnType}
    (h : Signed outer σ name n f σ') : σ.afterCallee outer e name n = σ' := by
  have hrun : Check.Gives (Check.signature outer e name n) (σ.state []) f (σ'.state []) :=
    Check.signature_gives.mpr ⟨h, rfl⟩
  rw [Setting.afterCallee, Check.leaves, hrun]
  rfl

end Leaves

/-! ## Ground settings -/

/-- The functions of a program have ground types and no type parameters. -/
def MonoFuncs (funcs : Table FnSymbol) : Prop :=
  ∀ name f, funcs.get? name = some f → f.typeParams = [] ∧ f.type.toTy.Ground

/-- A place in a program of the core: all its variables have ground types. -/
structure Mono (funcs : Table FnSymbol) (outer : ScopeChain) (σ : Setting) : Prop where
  sees : Sees funcs outer σ.scope
  vars : ∀ x t, σ.scope.vars.get? x = some t → t.Ground

/-- What an expression of the core leaves: a ground setting, and after a branch the variables with
the types that they had. -/
structure Kept (funcs : Table FnSymbol) (outer : ScopeChain) (branch : Bool) (σ σ' : Setting) :
    Prop where
  mono : Mono funcs outer σ'
  vars : branch = true → ∀ x, σ'.scope.vars.get? x = σ.scope.vars.get? x

section Static

variable {funcs : Table FnSymbol} {outer : ScopeChain} {branch : Bool}

theorem Kept.refl {σ : Setting} (h : Mono funcs outer σ) : Kept funcs outer branch σ σ :=
  ⟨h, fun _ _ => rfl⟩

theorem Kept.trans {σ σ' σ'' : Setting} (h : Kept funcs outer branch σ σ')
    (h' : Kept funcs outer branch σ' σ'') : Kept funcs outer branch σ σ'' :=
  ⟨h'.mono, fun hb x => (h'.vars hb x).trans (h.vars hb x)⟩

theorem Kept.of_branch {σ σ' : Setting} (h : Kept funcs outer true σ σ') :
    Kept funcs outer branch σ σ' :=
  ⟨h.mono, fun _ => h.vars rfl⟩

/-- New type variables leave the scope alone. -/
theorem Mono.of_scope_eq {σ σ' : Setting} (h : Mono funcs outer σ) (hscope : σ'.scope = σ.scope) :
    Mono funcs outer σ' := by
  refine ⟨?_, ?_⟩
  · rw [hscope]
    exact h.sees
  · rw [hscope]
    exact h.vars

theorem Mono.define {σ : Setting} (h : Mono funcs outer σ) {name : String} {t : Ty}
    (ht : t.Ground) : Mono funcs outer (σ.define name t) := by
  refine ⟨h.sees.of_eq rfl rfl, fun x u hx => ?_⟩
  rw [Setting.define, Scope.define, Table.get?_insert] at hx
  split at hx
  · cases hx
    exact ht
  · exact h.vars x u hx

theorem ground_toTy_result {g : FnType} (h : g.toTy.Ground) : g.result.Ground :=
  (Ty.ground_fn.mp h).2

theorem Mono.determined (hfuncs : MonoFuncs funcs) {σ : Setting} (h : Mono funcs outer σ)
    {name : String} {g : FnType} {typeParams : List String}
    (hcallee : ScopeChain.callee? (σ.scope :: outer) name = some (g, typeParams)) :
    g.Determined := by
  rcases h.sees.callee_cases hcallee with ⟨f, hf, rfl⟩ | ⟨p, -, -, rfl⟩ | ⟨-, -, hvar⟩
  · exact Or.inl (ground_toTy_result (hfuncs name f hf).2)
  · exact p.determined
  · exact Or.inl (ground_toTy_result (h.vars name _ hvar))

theorem Operator.Types.ground {op : Operator} {l r t : Ty} (h : op.Types l r t) (hl : l.Ground) :
    t.Ground := by
  cases h with
  | numeric _ => exact hl
  | text => exact hl
  | list _ => exact hl
  | comparison _ => rfl

/-- The reference of an expression in the core has a ground type. -/
theorem Mono.ref_ground (hfuncs : MonoFuncs funcs) {σ : Setting} (h : Mono funcs outer σ)
    {name : String} {sym : Symbol}
    (hfind : ScopeChain.find? (σ.scope :: outer) name = some sym) (hmono : sym.isMono = true) :
    sym.type.Ground := by
  rcases h.sees.find_cases hfind with ⟨t, ht, rfl⟩ | ⟨-, f, hf, rfl⟩ | ⟨-, -, p, -, rfl⟩
  · exact h.vars name t ht
  · exact (hfuncs name f hf).2
  · -- A builtin function without type parameters has a ground type.
    revert hmono
    cases p <;> decide

/-- Checking the expression as a part of the core gives a ground type and keeps the setting. -/
def StaysInCore (funcs : Table FnSymbol) (outer : ScopeChain) (e : Expr) : Prop :=
  ∀ {branch : Bool} {σ σ' : Setting} {t : Ty}, Mono funcs outer σ → Typed outer σ e t σ' →
    e.inCore outer branch σ = true → t.Ground ∧ Kept funcs outer branch σ σ'

theorem TypedAll.core {es : List Expr} (hes : ∀ e ∈ es, StaysInCore funcs outer e)
    {σ σ' : Setting} {ts : List Ty} (hσ : Mono funcs outer σ) (h : TypedAll outer σ es ts σ')
    (hcore : Expr.inCoreAll outer branch σ es = true) :
    (∀ t ∈ ts, t.Ground) ∧ Kept funcs outer branch σ σ' := by
  induction es generalizing σ ts with
  | nil =>
    cases h
    exact ⟨by simp, .refl hσ⟩
  | cons e es ih =>
    cases h with
    | cons he hrest =>
      rw [Expr.inCoreAll, he.after_eq, Bool.and_eq_true] at hcore
      rcases hes e (by simp) hσ he hcore.1 with ⟨ht, hkept⟩
      rcases ih (fun x hx => hes x (by simp [hx])) hkept.mono hrest hcore.2 with ⟨hts, hkept'⟩
      refine ⟨fun u hu => ?_, hkept.trans hkept'⟩
      rcases List.mem_cons.mp hu with rfl | hu
      · exact ht
      · exact hts u hu

theorem TypedElems.core {es : List Expr} (hes : ∀ e ∈ es, StaysInCore funcs outer e)
    {first : Ty} {σ σ' : Setting} (hσ : Mono funcs outer σ) (h : TypedElems outer first σ es σ')
    (hcore : Expr.inCoreAll outer branch σ es = true) : Kept funcs outer branch σ σ' := by
  induction es generalizing σ with
  | nil =>
    cases h
    exact .refl hσ
  | cons e es ih =>
    cases h with
    | cons he _ hrest =>
      rw [Expr.inCoreAll, he.after_eq, Bool.and_eq_true] at hcore
      rcases hes e (by simp) hσ he hcore.1 with ⟨-, hkept⟩
      exact hkept.trans (ih (fun x hx => hes x (by simp [hx])) hkept.mono hrest hcore.2)

theorem TypedEntries.core {es : List (Expr × Expr)}
    (hes : ∀ e ∈ es, StaysInCore funcs outer e.1 ∧ StaysInCore funcs outer e.2) {kt vt : Ty}
    {σ σ' : Setting} (hσ : Mono funcs outer σ) (h : TypedEntries outer kt vt σ es σ')
    (hcore : Expr.inCoreEntries outer branch σ es = true) : Kept funcs outer branch σ σ' := by
  induction es generalizing σ with
  | nil =>
    cases h
    exact .refl hσ
  | cons e es ih =>
    cases h with
    | cons hk hv _ _ hrest =>
      have hhead := hes _ (List.mem_cons_self ..)
      rw [Expr.inCoreEntries, hk.after_eq, hv.after_eq] at hcore
      simp only [Bool.and_eq_true] at hcore
      rcases hcore with ⟨⟨⟨hck, -⟩, hcv⟩, hcrest⟩
      rcases hhead.1 hσ hk hck with ⟨-, hkept₁⟩
      rcases hhead.2 hkept₁.mono hv hcv with ⟨-, hkept₂⟩
      have hkept₃ := ih (fun x hx => hes x (by simp [hx])) hkept₂.mono hrest hcrest
      exact (hkept₁.trans hkept₂).trans hkept₃

/-- In the core all types are ground, and branches keep the types of variables. -/
theorem Typed.core (hfuncs : MonoFuncs funcs) (e : Expr) : StaysInCore funcs outer e := by
  induction e with
  | number x =>
    intro branch σ σ' t hσ h hcore
    cases h
    exact ⟨rfl, .refl hσ⟩
  | text x =>
    intro branch σ σ' t hσ h hcore
    cases h
    exact ⟨rfl, .refl hσ⟩
  | bool b =>
    intro branch σ σ' t hσ h hcore
    cases h
    exact ⟨rfl, .refl hσ⟩
  | ref name =>
    intro branch σ σ' t hσ h hcore
    cases h with
    | ref hfind =>
      rw [Expr.inCore, hfind] at hcore
      exact ⟨hσ.ref_ground hfuncs hfind hcore, .refl hσ⟩
  | assign name value ih =>
    intro branch σ σ' t hσ h hcore
    cases h with
    | @assign _ σ₁ _ _ _ hv =>
      rw [Expr.inCore, hv.after_eq, hv.typeOf?_eq, Bool.and_eq_true] at hcore
      rcases ih hσ hv hcore.1 with ⟨ht, hkept⟩
      refine ⟨ht, hkept.mono.define ht, fun hbranch x => ?_⟩
      rw [← hkept.vars hbranch x, Setting.define, Scope.define, Table.get?_insert]
      split
      · next hx =>
        -- In a branch the variable has this very type already.
        have hbinds : σ₁.binds name (some t) = true := by simpa [hbranch] using hcore.2
        rw [← hx, Setting.get?_of_binds hbinds]
      · rfl
  | binary op l r ihl ihr =>
    intro branch σ σ' t hσ h hcore
    cases h with
    | binary hl hr hop =>
      rw [Expr.inCore, hl.after_eq, Bool.and_eq_true] at hcore
      rcases ihl hσ hl hcore.1 with ⟨hlt, hkept⟩
      rcases ihr hkept.mono hr hcore.2 with ⟨-, hkept'⟩
      exact ⟨hop.ground hlt, hkept.trans hkept'⟩
  | call name args ih =>
    intro branch σ σ' t hσ h hcore
    cases h with
    | @call _ σ₁ _ _ _ f ts b hf hts hb =>
      rw [Expr.inCore, hf.afterCallee_eq, Bool.and_eq_true] at hcore
      rcases hf.bind with ⟨g, typeParams, ρ, hcallee, rfl, hscope, hacc⟩
      have hσ₁ : Mono funcs outer σ₁ := hσ.of_scope_eq hscope
      rcases hts.core ih hσ₁ hcore.2 with ⟨hground, hkept⟩
      rw [hts.length_eq] at hacc
      -- The arguments are ground, and they determine the instance of the callee's type.
      rcases call_instance hacc hground (hσ.determined hfuncs hcallee) hb with
        ⟨τ, -, heq, hresult⟩
      rw [heq]
      exact ⟨hresult, hkept.mono, fun hbranch x => by rw [hkept.vars hbranch x, hscope]⟩
  | ite c t f ihc iht ihf =>
    intro branch σ σ' u hσ h hcore
    cases h with
    | ite hc ht hf hsame =>
      rw [Expr.inCore, hc.after_eq, ht.after_eq, Bool.and_eq_true, Bool.and_eq_true] at hcore
      rcases ihc hσ hc hcore.1.1 with ⟨-, hkept₁⟩
      rcases iht hkept₁.mono ht hcore.1.2 with ⟨htt, hkept₂⟩
      rcases ihf hkept₂.mono hf hcore.2 with ⟨-, hkept₃⟩
      -- The branches keep the types of variables wherever the whole expression stands.
      exact ⟨htt, (hkept₁.trans hkept₂.of_branch).trans hkept₃.of_branch⟩
  | loop c b ihc ihb =>
    intro branch σ σ' u hσ h hcore
    cases h with
    | loop hc hb =>
      rw [Expr.inCore, hc.after_eq, Bool.and_eq_true] at hcore
      rcases ihc hσ hc hcore.1 with ⟨-, hkept₁⟩
      rcases ihb hkept₁.mono hb hcore.2 with ⟨-, hkept₂⟩
      exact ⟨rfl, hkept₁.of_branch.trans hkept₂.of_branch⟩
  | seq bodies ih =>
    intro branch σ σ' u hσ h hcore
    cases h with
    | @seq _ _ _ ts hts =>
      rw [Expr.inCore] at hcore
      rcases hts.core ih hσ hcore with ⟨hground, hkept⟩
      refine ⟨?_, hkept⟩
      cases hlast : ts.getLast? with
      | none => rfl
      | some t => exact hground t (List.mem_of_getLast? hlast)
  | list elems ih =>
    intro branch σ σ' u hσ h hcore
    cases h with
    -- The type of an empty list has a variable in it, so the core has none.
    | emptyList => simp [Expr.inCore] at hcore
    | list he hes =>
      rw [Expr.inCore, Expr.inCoreAll, he.after_eq, Bool.and_eq_true, Bool.and_eq_true] at hcore
      rcases ih _ (by simp) hσ he hcore.2.1 with ⟨ht, hkept⟩
      have hkept' := hes.core (fun x hx => ih x (by simp [hx])) hkept.mono hcore.2.2
      exact ⟨ht, hkept.trans hkept'⟩
  | dict entries ih =>
    intro branch σ σ' u hσ h hcore
    cases h with
    | emptyDict => simp [Expr.inCore] at hcore
    | dict hk hv hes =>
      have hhead := ih _ (List.mem_cons_self ..)
      rw [Expr.inCore, Expr.inCoreEntries, hk.after_eq, hv.after_eq] at hcore
      simp only [Bool.and_eq_true] at hcore
      rcases hcore with ⟨-, ⟨⟨hck, -⟩, hcv⟩, hcrest⟩
      rcases hhead.1 hσ hk hck with ⟨hkt, hkept₁⟩
      rcases hhead.2 hkept₁.mono hv hcv with ⟨hvt, hkept₂⟩
      have hkept₃ := hes.core (fun x hx => ih x (by simp [hx])) hkept₂.mono hcrest
      exact ⟨Ty.ground_dict.mpr ⟨hkt, hvt⟩, (hkept₁.trans hkept₂).trans hkept₃⟩

end Static

end TreeLang
