import TreeLang.Proofs.Typing.Record
import TreeLang.Proofs.Typing.Resolution

/-!
# Function bodies and global variables

The check of a function body cannot tell two sessions apart that have the same functions. Variables
are looked for up to the scope of the body and functions everywhere, so in a function scope every
name, also as a callee, means the same whatever variables there are around it. `Parallel` says that
two steps run the same way from every setting in a function scope, also where they stop. Main
statements: `infer_parallel`, and `checkFunction_parallel` for the check of a whole function.
-/

namespace TreeLang

/-- Both chains have the same functions. -/
def SameFunctions (outer outer' : ScopeChain) : Prop :=
  ∀ name, outer.findFunction name = outer'.findFunction name

section

variable {outer outer' : ScopeChain} {s : Scope}

theorem findFunction_congr (h : SameFunctions outer outer') (s : Scope) (name : String) :
    ScopeChain.findFunction name (s :: outer) = ScopeChain.findFunction name (s :: outer') := by
  rw [ScopeChain.findFunction, ScopeChain.findFunction]
  cases s.funcs.get? name with
  | some f => rfl
  | none => exact h name

/-- No variable around a function scope is seen. -/
theorem findVariable_congr (hs : s.kind = .function) (outer outer' : ScopeChain) (name : String) :
    ScopeChain.findVariable name (s :: outer) = ScopeChain.findVariable name (s :: outer') := by
  rw [ScopeChain.findVariable, ScopeChain.findVariable, if_pos hs, if_pos hs]

theorem find?_congr (h : SameFunctions outer outer') (hs : s.kind = .function) (name : String) :
    ScopeChain.find? (s :: outer) name = ScopeChain.find? (s :: outer') name := by
  rw [ScopeChain.find?, ScopeChain.find?, findFunction_congr h s name,
    findVariable_congr hs outer outer' name]

end

namespace Check

variable {α β : Type} {outer outer' : ScopeChain}

/-! ## Looking up a callee -/

theorem run_chain_bind {f : ScopeChain → Check α} {s : CheckState} :
    (chain outer >>= f).run s = (f (s.scope :: outer)).run s := rfl

theorem run_bind_congr {x y : Check α} {f : α → Check β} {s : CheckState} (h : x.run s = y.run s) :
    (x >>= f).run s = (y >>= f).run s := by
  have hrun (z : Check α) : (z >>= f).run s = ExceptT.bindCont f (z.run s).1 (z.run s).2 := rfl
  rw [hrun, hrun, h]

theorem callee_run_congr (h : SameFunctions outer outer') {s : CheckState}
    (hs : s.scope.kind = .function) (e : Expr) (name : String) :
    (callee outer e name).run s = (callee outer' e name).run s := by
  unfold callee
  rw [run_chain_bind, run_chain_bind, findFunction_congr h s.scope name,
    findVariable_congr hs outer outer' name]

theorem signature_run_congr (h : SameFunctions outer outer') {s : CheckState}
    (hs : s.scope.kind = .function) (e : Expr) (name : String) (n : Nat) :
    (signature outer e name n).run s = (signature outer' e name n).run s := by
  unfold signature
  exact run_bind_congr (callee_run_congr h hs e name)

/-! ## Steps that run the same way -/

/-- From every setting in a function scope both steps have the same result, leave the same setting,
and record the same, whatever has been recorded before. -/
def Parallel (x y : Check α) : Prop :=
  ∀ σ : Setting, σ.scope.kind = .function → ∃ r σ' block, σ'.scope.kind = .function ∧
    Ends x σ r σ' block ∧ Ends y σ r σ' block

namespace Parallel

theorem of_run_eq {x y : Check α} (hx : Quiet x)
    (heq : ∀ s : CheckState, s.scope.kind = .function → x.run s = y.run s) : Parallel x y := by
  intro σ hσ
  obtain ⟨r, σ', hkind, hends⟩ := hx σ
  refine ⟨r, σ', [], hkind.trans hσ, hends, fun record => ?_⟩
  rw [← heq (σ.state record) hσ]
  exact hends record

theorem of_quiet {x : Check α} (hx : Quiet x) : Parallel x x := of_run_eq hx fun _ _ => rfl

theorem bind {x y : Check α} {f g : α → Check β} (hx : Parallel x y)
    (hf : ∀ a, Parallel (f a) (g a)) : Parallel (x >>= f) (y >>= g) := by
  intro σ hσ
  obtain ⟨_ | a, σ₁, block, hσ₁, hxends, hyends⟩ := hx σ hσ
  · exact ⟨_, σ₁, block, hσ₁, hxends.bind_error, hyends.bind_error⟩
  · obtain ⟨r, σ₂, block', hσ₂, hfends, hgends⟩ := hf a σ₁ hσ₁
    exact ⟨r, σ₂, block' ++ block, hσ₂, hxends.bind_ok hfends, hyends.bind_ok hgends⟩

theorem ite {c : Prop} [Decidable c] {x x' y y' : Check α} (hx : Parallel x x')
    (hy : Parallel y y') : Parallel (if c then x else y) (if c then x' else y') := by
  split
  · exact hx
  · exact hy

theorem chain {f : ScopeChain → Check α}
    (hf : ∀ s : Scope, s.kind = .function → Parallel (f (s :: outer)) (f (s :: outer'))) :
    Parallel (Check.chain outer >>= f) (Check.chain outer' >>= f) :=
  fun σ hσ => hf σ.scope hσ σ hσ

theorem note (path : Path) (t : Ty) :
    Parallel (do Check.note path t; Pure.pure t) (do Check.note path t; Pure.pure t) :=
  fun σ hσ => ⟨.ok t, σ, [(path, t)], hσ, fun _ => rfl, fun _ => rfl⟩

end Parallel

/-! ## Expressions -/

/-- The check of the expression, wherever it stands, runs the same way under both chains. -/
def InferParallel (outer outer' : ScopeChain) (e : Expr) : Prop :=
  ∀ path, Parallel (infer outer path e) (infer outer' path e)

theorem inferAll_parallel {es : List Expr} (hes : ∀ e ∈ es, InferParallel outer outer' e)
    (path : Path) (i : Nat) : Parallel (inferAll outer path i es) (inferAll outer' path i es) := by
  induction es generalizing i with
  | nil => exact .of_quiet .pure
  | cons e es ih =>
    have hrest := ih (fun x hx => hes x (by simp [hx])) (i + 1)
    rw [inferAll, inferAll]
    exact (hes e (by simp) _).bind fun _ => hrest.bind fun _ => .of_quiet .pure

theorem inferElems_parallel {es : List Expr} (hes : ∀ e ∈ es, InferParallel outer outer' e)
    (path : Path) (whole : Expr) (first : Ty) (i : Nat) :
    Parallel (inferElems outer path whole first i es)
      (inferElems outer' path whole first i es) := by
  induction es generalizing i with
  | nil => exact .of_quiet .pure
  | cons e es ih =>
    have hrest := ih (fun x hx => hes x (by simp [hx])) (i + 1)
    rw [inferElems, inferElems]
    exact (hes e (by simp) _).bind fun _ => .ite hrest (.of_quiet .problem)

theorem inferEntries_parallel {es : List (Expr × Expr)}
    (hes : ∀ e ∈ es, InferParallel outer outer' e.1 ∧ InferParallel outer outer' e.2) (path : Path)
    (whole : Expr) (key value : Ty) (i : Nat) :
    Parallel (inferEntries outer path whole key value i es)
      (inferEntries outer' path whole key value i es) := by
  induction es generalizing i with
  | nil => exact .of_quiet .pure
  | cons e es ih =>
    have hrest := ih (fun x hx => hes x (by simp [hx])) (i + 2)
    obtain ⟨hk, hv⟩ := hes e (by simp)
    rw [inferEntries, inferEntries]
    refine (hk _).bind fun _ => (hv _).bind fun _ => ?_
    exact .ite (.of_quiet .problem) (.ite (.of_quiet .problem) hrest)

/-- In a function scope an expression is checked in the same way under all chains that have the same
functions. -/
theorem infer_parallel (h : SameFunctions outer outer') (e : Expr) :
    InferParallel outer outer' e := by
  have hnote (t : Ty) (path : Path) : Parallel (pure t >>= fun t => do note path t; pure t)
      (pure t >>= fun t => do note path t; pure t) :=
    (Parallel.of_quiet .pure).bind fun t => .note path t
  induction e with
  | number x | text x | bool x =>
    intro path
    rw [infer, infer]
    exact hnote _ path
  | ref name =>
    intro path
    rw [infer, infer]
    refine .chain fun s hs => ?_
    rw [find?_congr h hs name]
    split
    · exact hnote _ path
    · exact (Parallel.of_quiet .problem).bind fun t => .note path t
  | assign name value ih =>
    intro path
    rw [infer, infer]
    exact (ih _).bind fun t => (Parallel.of_quiet (.define name t)).bind fun _ => hnote t path
  | binary op l r ihl ihr =>
    intro path
    rw [infer, infer]
    refine (ihl _).bind fun _ => (ihr _).bind fun _ => ?_
    exact (Parallel.of_quiet .operatorType).bind fun t => .note path t
  | call name args ih =>
    intro path
    have hcallee : Parallel (signature outer (.call name args) name args.length)
        (signature outer' (.call name args) name args.length) :=
      .of_run_eq .signature fun _ hs => signature_run_congr h hs _ _ _
    rw [infer, infer]
    refine hcallee.bind fun _ => (inferAll_parallel ih path 0).bind fun _ => ?_
    exact (Parallel.of_quiet .matchArgs).bind fun _ => hnote _ path
  | ite c t f ihc iht ihf =>
    intro path
    rw [infer, infer]
    refine (ihc _).bind fun _ => (Parallel.of_quiet .condition).bind fun _ => ?_
    refine (iht _).bind fun tt => (ihf _).bind fun _ => .ite (hnote tt path) ?_
    exact (Parallel.of_quiet .problem).bind fun t => .note path t
  | loop c b ihc ihb =>
    intro path
    rw [infer, infer]
    refine (ihc _).bind fun _ => (Parallel.of_quiet .condition).bind fun _ => ?_
    exact (ihb _).bind fun _ => hnote _ path
  | seq bodies ih =>
    intro path
    rw [infer, infer]
    exact (inferAll_parallel ih path 0).bind fun _ => hnote _ path
  | list elems ih =>
    intro path
    cases elems with
    | nil =>
      rw [infer, infer]
      exact (Parallel.of_quiet (.fresh "T")).bind fun _ => hnote _ path
    | cons e es =>
      have hes := inferElems_parallel (fun x hx => ih x (List.mem_cons_of_mem e hx)) path
      rw [infer, infer]
      exact (ih e (by simp) _).bind fun t => (hes _ t 1).bind fun _ => hnote _ path
  | dict entries ih =>
    intro path
    cases entries with
    | nil =>
      rw [infer, infer]
      refine (Parallel.of_quiet (.fresh "K")).bind fun _ => ?_
      exact (Parallel.of_quiet (.fresh "V")).bind fun _ => hnote _ path
    | cons e es =>
      have hes := inferEntries_parallel (fun x hx => ih x (List.mem_cons_of_mem e hx)) path
      obtain ⟨hk, hv⟩ := ih e (by simp)
      rw [infer, infer]
      exact (hk _).bind fun kt => (hv _).bind fun vt => (hes _ kt vt 2).bind fun _ => hnote _ path

end Check

/-! ## Functions -/

namespace Checker

/-- The verdict on a function depends on the outcome of its body only. -/
theorem exists_verdict (d : FunctionDef) : ∃ verdict : Except Halt Ty → Except Halt Unit,
    ∀ {c : Checker} {unit : Nat} {r : Except Halt Ty} {s : CheckState},
      (Check.infer [c.scope, Scope.prelude] [unit] d.body).run
        ⟨bodyScope d, c.supply, c.record⟩ = (r, s) →
      c.checkFunction unit d = ((verdict r).mapError c.withFile,
        { c with supply := s.supply, record := s.record }) := by
  constructor
  intro c unit r s h
  simp only [checkFunction, h]
  rfl

/-- The check of a function is the same in two sessions with the same functions and supply, whatever
their global variables are: the verdict, up to the file that a report names, the variables taken and
the types recorded. Neither session has other variables or functions afterwards. -/
theorem checkFunction_parallel {c₁ c₂ : Checker}
    (hfuncs : ∀ name, c₁.scope.funcs.get? name = c₂.scope.funcs.get? name)
    (hsupply : c₁.supply = c₂.supply) (unit : Nat) (d : FunctionDef) :
    (∃ (verdict : Except Halt Unit) (supply : Supply) (noted : List (Path × Ty)),
      c₁.checkFunction unit d = (verdict.mapError c₁.withFile,
        { c₁ with supply, record := noted ++ c₁.record }) ∧
      c₂.checkFunction unit d = (verdict.mapError c₂.withFile,
        { c₂ with supply, record := noted ++ c₂.record })) ∧
      (c₁.file = c₂.file → (c₁.checkFunction unit d).1 = (c₂.checkFunction unit d).1) := by
  have hsame : SameFunctions [c₁.scope, Scope.prelude] [c₂.scope, Scope.prelude] := by
    intro name
    simp only [ScopeChain.findFunction, hfuncs name]
  have hkind : (bodyScope d).kind = .function :=
    (bodyScope_kind_funcs d.params { kind := .function }).1
  obtain ⟨r, σ, noted, -, hends₁, hends₂⟩ :=
    Check.infer_parallel hsame d.body [unit] ⟨bodyScope d, c₁.supply⟩ hkind
  have hrun₁ := hends₁ c₁.record
  have hrun₂ := hends₂ c₂.record
  have hstart : Setting.state ⟨bodyScope d, c₁.supply⟩ c₂.record =
      ⟨bodyScope d, c₂.supply, c₂.record⟩ := by
    rw [Setting.state, hsupply]
  rw [hstart] at hrun₂
  obtain ⟨verdict, hverdict⟩ := exists_verdict d
  have hcheck₁ := hverdict hrun₁
  have hcheck₂ := hverdict hrun₂
  refine ⟨⟨verdict r, σ.supply, noted, hcheck₁, hcheck₂⟩, fun hfile => ?_⟩
  have hwith : c₁.withFile = c₂.withFile := by
    funext halt
    cases halt with
    | fault report => rw [withFile, withFile, hfile]
    | endless => rfl
  rw [hcheck₁, hcheck₂, hwith]

/-- A body that calls `g` is turned down in the same way where a global variable `g` has a function
type and where there is no `g` at all. -/
theorem unseen_variable_parallel :
    let c₁ : Checker := { scope := ({} : Scope).define "g" (.fn [.number] .number false) }
    let c₂ : Checker := { scope := ({} : Scope).define "x" .text }
    let d : FunctionDef :=
      { name := "f"
        params := [⟨"x", .number⟩]
        result := .number
        body := .seq [.assign "y" (.ref "x"), .call "g" [.ref "y"]] }
    (∀ name, c₁.scope.funcs.get? name = c₂.scope.funcs.get? name) ∧ c₁.supply = c₂.supply ∧
      (c₁.checkFunction 0 d).1 = (c₂.checkFunction 0 d).1 ∧
      (∃ report, (c₁.checkFunction 0 d).1 = .error (.fault report) ∧
        report.code = .undefinedFunction) ∧
      (c₁.checkFunction 0 d).2.record = (c₂.checkFunction 0 d).2.record ∧
      (c₁.checkFunction 0 d).2.record.length = 2 := by
  intro c₁ c₂ d
  have hfuncs : ∀ name, c₁.scope.funcs.get? name = c₂.scope.funcs.get? name := fun _ => rfl
  obtain ⟨⟨verdict, supply, noted, h₁, h₂⟩, hverdict⟩ := checkFunction_parallel hfuncs rfl 0 d
  have hrecord : (c₁.checkFunction 0 d).2.record = (c₂.checkFunction 0 d).2.record := by
    rw [h₁, h₂]
  have hfails : ∃ report, (c₁.checkFunction 0 d).1 = .error (.fault report) ∧
      report.code = .undefinedFunction := ⟨_, rfl, rfl⟩
  exact ⟨hfuncs, rfl, hverdict rfl, hfails, hrecord, by decide +kernel⟩

end Checker

end TreeLang
