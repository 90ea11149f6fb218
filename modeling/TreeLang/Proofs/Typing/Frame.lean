import TreeLang.Proofs.Program.Structure
import TreeLang.Proofs.Table
import TreeLang.Typing

/-!
# What checking leaves alone

Checking binds variables in the innermost scope and changes nothing else there, also where it stops
at a problem, and what it stops at it reports as a problem of checking. `Scope.Extends` says the
first of two scopes, and `Check.Behaves` both of a step. Main statements: `infer_behaves`, and from
it `checkExpr_extends`, `checkProgram_kept` and `checkProgram_reports` for whole verdicts.
-/

namespace TreeLang

/-- The scope has more variables, or other types for them, and is otherwise the same. -/
structure Scope.Extends (s s' : Scope) : Prop where
  kind : s'.kind = s.kind
  funcs : s'.funcs = s.funcs
  vars : ∀ n, s.vars.contains n = true → s'.vars.contains n = true

namespace Scope.Extends

theorem refl (s : Scope) : s.Extends s := ⟨rfl, rfl, fun _ h => h⟩

theorem trans {s s' s'' : Scope} (h : s.Extends s') (h' : s'.Extends s'') : s.Extends s'' :=
  ⟨h'.kind.trans h.kind, h'.funcs.trans h.funcs, fun n hn => h'.vars n (h.vars n hn)⟩

theorem define (s : Scope) (name : String) (t : Ty) : s.Extends (s.define name t) := by
  refine ⟨rfl, rfl, fun n hn => ?_⟩
  rw [Table.contains, Scope.define, Table.get?_insert]
  split
  · rfl
  · exact hn

end Scope.Extends

/-- A problem that checking stops at is reported as one of checking. -/
def Halt.OfCheck : Halt → Prop
  | .fault d => d.phase = .check
  | .endless => True

namespace Check

variable {α β : Type} {outer : ScopeChain}

/-- Whatever the outcome, the step only binds variables. -/
def Grows (x : Check α) : Prop := ∀ s : CheckState, s.scope.Extends (x.run s).2.scope

/-- The step only binds variables, and where it stops it says so in a report of checking. -/
structure Behaves (x : Check α) : Prop where
  grows : Grows x
  reports : ∀ s h, (x.run s).1 = .error h → h.OfCheck

namespace Behaves

/-- A step that does not stop. -/
theorem of_ok {x : Check α} (hgrows : Grows x) (hok : ∀ s, ∃ a, (x.run s).1 = .ok a) :
    Behaves x := by
  refine ⟨hgrows, ?_⟩
  intro s h hs
  rcases hok s with ⟨a, ha⟩
  rw [ha] at hs
  cases hs

theorem pure {a : α} : Behaves (Pure.pure a) := of_ok (fun s => .refl s.scope) fun _ => ⟨a, rfl⟩

theorem throw {h : Halt} (hh : h.OfCheck) : Behaves (MonadExcept.throw h : Check α) := by
  refine ⟨fun s => .refl s.scope, ?_⟩
  intro s h' hs
  cases hs
  exact hh

theorem problem {e : Expr} {code : Code} {text : String} :
    Behaves (Check.problem e code text : Check α) := throw rfl

theorem bind {x : Check α} {f : α → Check β} (hx : Behaves x) (hf : ∀ a, Behaves (f a)) :
    Behaves (x >>= f) := by
  have hrun (s : CheckState) : (x >>= f).run s = ExceptT.bindCont f (x.run s).1 (x.run s).2 := rfl
  constructor
  · intro s
    have hfirst := hx.grows s
    rw [hrun]
    rcases hxs : x.run s with ⟨r, s'⟩
    rw [hxs] at hfirst
    cases r with
    | error h => exact hfirst
    | ok a => exact hfirst.trans ((hf a).grows s')
  · intro s h hs
    have hfirst := hx.reports s
    rw [hrun] at hs
    rcases hxs : x.run s with ⟨r, s'⟩
    rw [hxs] at hfirst hs
    cases r with
    | error h' =>
      cases hs
      exact hfirst h rfl
    | ok a => exact (hf a).reports s' h hs

theorem ite {c : Prop} [Decidable c] {x y : Check α} (hx : Behaves x) (hy : Behaves y) :
    Behaves (if c then x else y) := by
  split
  · exact hx
  · exact hy

theorem note (path : Path) (t : Ty) : Behaves (Check.note path t) :=
  of_ok (fun s => .refl s.scope) fun _ => ⟨_, rfl⟩

theorem fresh (stem : String) : Behaves (Check.fresh stem) :=
  of_ok (fun s => .refl s.scope) fun _ => ⟨_, rfl⟩

theorem chain : Behaves (Check.chain outer) := of_ok (fun s => .refl s.scope) fun _ => ⟨_, rfl⟩

/-- A variable is bound. -/
theorem define (name : String) (t : Ty) :
    Behaves (modify fun s => { s with scope := s.scope.define name t }) :=
  of_ok (fun s => .define s.scope name t) fun _ => ⟨_, rfl⟩

theorem operatorType {e : Expr} {op : Operator} {left right : Ty} :
    Behaves (Check.operatorType e op left right) := by
  unfold Check.operatorType
  cases op with
  | add =>
    refine ite pure (ite pure ?_)
    split
    · exact ite pure problem
    · exact problem
  | other s => exact problem
  | lt | gt | le | ge | eq | ne => exact pure
  | sub | mul | div | rem => exact ite pure problem

theorem callee {e : Expr} {name : String} : Behaves (Check.callee outer e name) := by
  unfold Check.callee
  refine chain.bind fun c => ?_
  split
  · exact pure
  · split
    · split
      · exact pure
      · exact problem
    · exact problem

theorem signature {e : Expr} {name : String} {n : Nat} :
    Behaves (Check.signature outer e name n) := by
  unfold Check.signature
  refine callee.bind fun f => ⟨fun s => ?_, fun s h hs => ?_⟩
  · exact (ite pure problem).grows { s with supply := (s.supply.instantiateFn f.1 f.2).2 }
  · exact (ite pure problem).reports { s with supply := (s.supply.instantiateFn f.1 f.2).2 } h hs

theorem matchArgs {e : Expr} {name : String} {f : FnType} {i : Nat} {ts : List Ty} {b : Subst} :
    Behaves (Check.matchArgs e name f i ts b) := by
  induction ts generalizing i b with
  | nil => exact pure
  | cons a as ih =>
    rw [Check.matchArgs]
    split
    · exact ih
    · split
      · exact throw trivial
      · exact ih
      · exact problem

theorem condition {c : Expr} {t : Ty} : Behaves (infer.condition c t) := ite pure problem

end Behaves

/-! ## Expressions -/

/-- The check of the expression behaves, wherever it stands. -/
def InferBehaves (outer : ScopeChain) (e : Expr) : Prop := ∀ path, Behaves (infer outer path e)

theorem inferAll_behaves {es : List Expr} (hes : ∀ e ∈ es, InferBehaves outer e) (path : Path)
    (i : Nat) : Behaves (inferAll outer path i es) := by
  induction es generalizing i with
  | nil => exact .pure
  | cons e es ih =>
    have hrest := ih (fun x hx => hes x (by simp [hx])) (i + 1)
    rw [inferAll]
    exact (hes e (by simp) _).bind fun _ => hrest.bind fun _ => .pure

theorem inferElems_behaves {es : List Expr} (hes : ∀ e ∈ es, InferBehaves outer e) (path : Path)
    (whole : Expr) (first : Ty) (i : Nat) : Behaves (inferElems outer path whole first i es) := by
  induction es generalizing i with
  | nil => exact .pure
  | cons e es ih =>
    have hrest := ih (fun x hx => hes x (by simp [hx])) (i + 1)
    rw [inferElems]
    exact (hes e (by simp) _).bind fun _ => .ite hrest .problem

theorem inferEntries_behaves {es : List (Expr × Expr)}
    (hes : ∀ e ∈ es, InferBehaves outer e.1 ∧ InferBehaves outer e.2) (path : Path) (whole : Expr)
    (key value : Ty) (i : Nat) : Behaves (inferEntries outer path whole key value i es) := by
  induction es generalizing i with
  | nil => exact .pure
  | cons e es ih =>
    have hrest := ih (fun x hx => hes x (by simp [hx])) (i + 2)
    obtain ⟨hk, hv⟩ := hes e (by simp)
    rw [inferEntries]
    exact (hk _).bind fun _ => (hv _).bind fun _ => .ite .problem (.ite .problem hrest)

/-- Checking an expression only binds variables, whatever the verdict, and reports as it should. -/
theorem infer_behaves (e : Expr) : InferBehaves outer e := by
  have hnote (path : Path) (t : Ty) : Behaves (do note path t; pure t) :=
    (Behaves.note path t).bind fun _ => .pure
  induction e with
  | number x | text x | bool b =>
    intro path
    rw [infer]
    exact .bind .pure (hnote path)
  | ref name =>
    intro path
    rw [infer]
    refine Behaves.chain.bind fun c => ?_
    split
    · exact .bind .pure (hnote path)
    · exact .bind .problem (hnote path)
  | assign name value ih =>
    intro path
    rw [infer]
    exact (ih _).bind fun t => (Behaves.define name t).bind fun _ => .bind .pure (hnote path)
  | binary op l r ihl ihr =>
    intro path
    rw [infer]
    exact (ihl _).bind fun _ => (ihr _).bind fun _ => Behaves.operatorType.bind (hnote path)
  | call name args ih =>
    intro path
    rw [infer]
    refine Behaves.signature.bind fun _ => (inferAll_behaves ih path 0).bind fun _ => ?_
    exact Behaves.matchArgs.bind fun _ => .bind .pure (hnote path)
  | ite c t f ihc iht ihf =>
    intro path
    rw [infer]
    refine (ihc _).bind fun _ => Behaves.condition.bind fun _ => ?_
    refine (iht _).bind fun _ => (ihf _).bind fun _ => ?_
    exact .ite (.bind .pure (hnote path)) (.bind .problem (hnote path))
  | loop c b ihc ihb =>
    intro path
    rw [infer]
    refine (ihc _).bind fun _ => Behaves.condition.bind fun _ => ?_
    exact (ihb _).bind fun _ => .bind .pure (hnote path)
  | seq bodies ih =>
    intro path
    rw [infer]
    exact (inferAll_behaves ih path 0).bind fun _ => .bind .pure (hnote path)
  | list elems ih =>
    intro path
    cases elems with
    | nil =>
      rw [infer]
      exact (Behaves.fresh "T").bind fun _ => .bind .pure (hnote path)
    | cons e es =>
      have hes := inferElems_behaves (fun x hx => ih x (List.mem_cons_of_mem e hx)) path
      rw [infer]
      exact (ih e (by simp) _).bind fun t => (hes _ t 1).bind fun _ => .bind .pure (hnote path)
  | dict entries ih =>
    intro path
    cases entries with
    | nil =>
      rw [infer]
      exact (Behaves.fresh "K").bind fun _ => (Behaves.fresh "V").bind fun _ =>
        .bind .pure (hnote path)
    | cons e es =>
      have hes := inferEntries_behaves (fun x hx => ih x (List.mem_cons_of_mem e hx)) path
      obtain ⟨hk, hv⟩ := ih e (by simp)
      rw [infer]
      exact (hk _).bind fun kt => (hv _).bind fun vt => (hes _ kt vt 2).bind fun _ =>
        .bind .pure (hnote path)

end Check

/-! ## Functions -/

namespace Scope

/-- Every function is stored under its own name. -/
def Named (s : Scope) : Prop := ∀ n f, s.funcs.get? n = some f → f.name = n

theorem Named.setFunction {s : Scope} (h : s.Named) (f : FnSymbol) : (s.setFunction f).Named := by
  intro n g hg
  rw [Scope.setFunction, Table.get?_insert] at hg
  split at hg
  · next hname =>
    cases hg
    exact hname
  · exact h n g hg

theorem Named.extends {s s' : Scope} (h : s.Named) (hext : s.Extends s') : s'.Named := by
  rwa [Named, hext.funcs]

/-- A function that replaced another one of its name is taken back by setting the other one. -/
theorem setFunction_setFunction {s : Scope} {f g : FnSymbol} (hname : g.name = f.name)
    (h : s.funcs.get? f.name = some g) : (s.setFunction f).setFunction g = s := by
  simp only [setFunction, hname, Table.insert_insert_of_get? h]

/-- A function with a new name is taken back by removing it. -/
theorem removeFunction_setFunction {s : Scope} {f : FnSymbol} (h : s.funcs.get? f.name = none) :
    (s.setFunction f).removeFunction f.name = s := by
  simp only [setFunction, removeFunction, Table.erase_insert_of_get? h]

theorem restore_eq {s earlier : Scope} (h : s.kind = earlier.kind) :
    s.restore earlier = earlier := by
  rw [restore, h]

end Scope

/-! ## Verdicts -/

namespace Checker

variable {c c' : Checker} {α : Type}

/-- Nothing but the supply and the record may have changed. -/
structure Renewed (c c' : Checker) : Prop where
  scope : c'.scope = c.scope
  file : c'.file = c.file

theorem Renewed.trans {c'' : Checker} (h : c.Renewed c') (h' : c'.Renewed c'') : c.Renewed c'' :=
  ⟨h'.scope.trans h.scope, h'.file.trans h.file⟩

theorem checkExpr_extends {unit : Nat} {e : Expr} {r : Except Halt Ty}
    (h : c.checkExpr unit e = (r, c')) : c.scope.Extends c'.scope ∧ c'.file = c.file := by
  cases h
  exact ⟨(Check.infer_behaves e [unit]).grows ⟨c.scope, c.supply, c.record⟩, rfl⟩

theorem checkFunction_renewed {unit : Nat} {d : FunctionDef} {r : Except Halt Unit}
    (h : c.checkFunction unit d = (r, c')) : c.Renewed c' := by
  cases h
  exact ⟨rfl, rfl⟩

theorem checkFunctions_renewed {unit : Nat} {ds : List FunctionDef} {r : Except Halt Unit}
    (h : checkFunctions unit ds c = (r, c')) : c.Renewed c' := by
  induction ds generalizing c unit with
  | nil =>
    cases h
    exact ⟨rfl, rfl⟩
  | cons d ds ih =>
    rw [checkFunctions] at h
    rcases hd : c.checkFunction unit d with ⟨_ | _, c₁⟩
    · rw [hd] at h
      cases h
      exact checkFunction_renewed hd
    · rw [hd] at h
      exact (checkFunction_renewed hd).trans (ih h)

theorem checkExprs_extends {unit : Nat} {last : Ty} {es : List Expr} {r : Except Halt Ty}
    (h : checkExprs unit last es c = (r, c')) : c.scope.Extends c'.scope := by
  induction es generalizing c unit last with
  | nil =>
    cases h
    exact .refl _
  | cons e es ih =>
    rw [checkExprs] at h
    rcases he : c.checkExpr unit e with ⟨_ | t, c₁⟩
    · rw [he] at h
      cases h
      exact (checkExpr_extends he).1
    · rw [he] at h
      exact (checkExpr_extends he).1.trans (ih h)

/-- Declarations change functions only, and each goes under its own name. -/
theorem declareAll_kept {ds : List FunctionDef} {r : Except Halt Unit}
    (h : declareAll ds c = (r, c')) :
    c'.scope.kind = c.scope.kind ∧ (c.scope.Named → c'.scope.Named) := by
  induction ds generalizing c with
  | nil =>
    cases h
    exact ⟨rfl, id⟩
  | cons d ds ih =>
    rw [declareAll, declare] at h
    by_cases htyped : d.isTyped
    · rw [if_pos htyped] at h
      obtain ⟨hkind, hnamed⟩ := ih h
      exact ⟨hkind, fun hc => hnamed (hc.setFunction (.ofDef d))⟩
    · rw [if_neg htyped] at h
      cases h
      exact ⟨rfl, id⟩

/-- Whatever the verdict on a program, the kind of scope stays and functions keep their names. -/
theorem checkProgram_kept {p : Program} {r : Except Halt Ty} (h : c.checkProgram p = (r, c')) :
    c'.scope.kind = c.scope.kind ∧ (c.scope.Named → c'.scope.Named) := by
  unfold checkProgram at h
  extract_lets c₀ at h
  have hstart : c₀.scope = c.scope := by
    unfold c₀
    split <;> rfl
  rw [← hstart]
  rcases hdeclare : declareAll p.defs c₀ with ⟨_ | _, c₁⟩
  · rw [hdeclare] at h
    cases h
    exact declareAll_kept hdeclare
  · rw [hdeclare] at h
    dsimp only at h
    obtain ⟨hkind, hnamed⟩ := declareAll_kept hdeclare
    rcases hbodies : checkFunctions 0 p.defs c₁ with ⟨_ | _, c₂⟩
    · rw [hbodies] at h
      cases h
      rw [(checkFunctions_renewed hbodies).scope]
      exact ⟨hkind, hnamed⟩
    · rw [hbodies] at h
      have hexprs := checkExprs_extends h
      rw [(checkFunctions_renewed hbodies).scope] at hexprs
      exact ⟨hexprs.kind.trans hkind, fun hc => (hnamed hc).extends hexprs⟩

/-- A definition that is turned down leaves the scope as it was, down to the order of entries; one
that is accepted goes under its own name. -/
theorem define_cases {d : FunctionDef} {r : Except Halt Unit} (hnamed : c.scope.Named)
    (h : c.define d = (r, c')) :
    (∃ halt, r = .error halt) ∧ c.Renewed c' ∨ r = .ok () ∧ c'.scope.Named ∧ c'.file = c.file := by
  unfold define declare at h
  by_cases htyped : d.isTyped
  · rw [if_pos htyped] at h
    dsimp only at h
    rcases hcheck : checkFunction { c with scope := c.scope.defineFunction d } 0 d with
      ⟨halt | _, c₁⟩
    · rw [hcheck] at h
      cases h
      refine .inl ⟨⟨halt, rfl⟩, ?_, (checkFunction_renewed hcheck).file⟩
      dsimp only
      rw [(checkFunction_renewed hcheck).scope]
      split
      · next f hf => exact Scope.setFunction_setFunction (hnamed _ f hf) hf
      · next hnone => exact Scope.removeFunction_setFunction hnone
    · rw [hcheck] at h
      cases h
      refine .inr ⟨rfl, ?_, (checkFunction_renewed hcheck).file⟩
      rw [(checkFunction_renewed hcheck).scope]
      exact hnamed.setFunction (.ofDef d)
  · rw [if_neg htyped] at h
    cases h
    exact .inl ⟨⟨_, rfl⟩, rfl, rfl⟩

/-! ## Reports -/

theorem ofCheck_withFile {halt : Halt} : (c.withFile halt).OfCheck ↔ halt.OfCheck := by
  cases halt with
  | fault d => simp only [withFile, Halt.OfCheck, Diagnostic.phase_withFile]
  | endless => rfl

theorem ofCheck_mapError {r : Except Halt α} (hr : ∀ halt, r = .error halt → halt.OfCheck)
    {halt : Halt} (h : r.mapError c.withFile = .error halt) : halt.OfCheck := by
  cases r with
  | ok a => cases h
  | error halt' =>
    cases h
    exact ofCheck_withFile.mpr (hr halt' rfl)

theorem checkExpr_reports {unit : Nat} {e : Expr} {halt : Halt}
    (h : c.checkExpr unit e = (.error halt, c')) : halt.OfCheck :=
  ofCheck_mapError ((Check.infer_behaves e [unit]).reports _) (congrArg Prod.fst h)

theorem checkFunction_reports {unit : Nat} {d : FunctionDef} {halt : Halt}
    (h : c.checkFunction unit d = (.error halt, c')) : halt.OfCheck := by
  have hbody : Check.Behaves (Check.infer [c.scope, Scope.prelude] [unit] d.body) :=
    Check.infer_behaves d.body [unit]
  unfold checkFunction at h
  rcases hinfer : (Check.infer [c.scope, Scope.prelude] [unit] d.body).run
    ⟨bodyScope d, c.supply, c.record⟩ with ⟨r, s⟩
  rw [hinfer] at h
  refine ofCheck_mapError ?_ (congrArg Prod.fst h)
  intro halt' h'
  cases r with
  | error halt₀ =>
    cases h'
    exact hbody.reports _ _ (by rw [hinfer])
  | ok t =>
    change (if t.same d.result then _ else _) = _ at h'
    split at h'
    · cases h'
    · cases h'
      rfl

theorem declareAll_reports {ds : List FunctionDef} {halt : Halt}
    (h : declareAll ds c = (.error halt, c')) : halt.OfCheck := by
  induction ds generalizing c with
  | nil => cases h
  | cons d ds ih =>
    rw [declareAll, declare] at h
    by_cases htyped : d.isTyped
    · rw [if_pos htyped] at h
      exact ih h
    · rw [if_neg htyped] at h
      cases h
      exact ofCheck_withFile.mpr rfl

theorem checkFunctions_reports {unit : Nat} {ds : List FunctionDef} {halt : Halt}
    (h : checkFunctions unit ds c = (.error halt, c')) : halt.OfCheck := by
  induction ds generalizing c unit with
  | nil => cases h
  | cons d ds ih =>
    rw [checkFunctions] at h
    rcases hd : c.checkFunction unit d with ⟨_ | _, c₁⟩
    · rw [hd] at h
      cases h
      exact checkFunction_reports hd
    · rw [hd] at h
      exact ih h

theorem checkExprs_reports {unit : Nat} {last : Ty} {es : List Expr} {halt : Halt}
    (h : checkExprs unit last es c = (.error halt, c')) : halt.OfCheck := by
  induction es generalizing c unit last with
  | nil => cases h
  | cons e es ih =>
    rw [checkExprs] at h
    rcases he : c.checkExpr unit e with ⟨_ | t, c₁⟩
    · rw [he] at h
      cases h
      exact checkExpr_reports he
    · rw [he] at h
      exact ih h

/-- What the checker has against a program it reports as a problem of checking. -/
theorem checkProgram_reports {p : Program} {halt : Halt}
    (h : c.checkProgram p = (.error halt, c')) : halt.OfCheck := by
  unfold checkProgram at h
  extract_lets c₀ at h
  rcases hdeclare : declareAll p.defs c₀ with ⟨_ | _, c₁⟩
  · rw [hdeclare] at h
    cases h
    exact declareAll_reports hdeclare
  · rw [hdeclare] at h
    dsimp only at h
    rcases hbodies : checkFunctions 0 p.defs c₁ with ⟨_ | _, c₂⟩
    · rw [hbodies] at h
      cases h
      exact checkFunctions_reports hbodies
    · rw [hbodies] at h
      exact checkExprs_reports h

end Checker

end TreeLang
