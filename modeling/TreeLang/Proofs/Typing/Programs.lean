import TreeLang.Proofs.Typing.Judgement

/-!
# Programs under the rules

`TypedProgram` says by rules when a program has a type: all types are declared, every body has its
declared result, and the expressions are typed one after the other. Main statement:
`checkProgram_iff`, by which the checker accepts exactly these programs.
-/

namespace TreeLang

/-! ## One unit of a program -/

/-- The body of a function has the declared result; checking it moves the supply on. -/
def BodyTyped (globals : Scope) (supply : Supply) (d : FunctionDef) (supply' : Supply) : Prop :=
  ∃ t σ, Typed [globals, Scope.prelude] ⟨Checker.bodyScope d, supply⟩ d.body t σ ∧
    t.same d.result = true ∧ supply' = σ.supply

namespace Checker

/-- The setting of top-level expressions. -/
def setting (c : Checker) : Setting := ⟨c.scope, c.supply⟩

theorem checkExpr_typed {c c' : Checker} {unit : Nat} {e : Expr} {t : Ty}
    (h : c.checkExpr unit e = (.ok t, c')) :
    Typed [Scope.prelude] c.setting e t c'.setting := by
  unfold checkExpr at h
  rcases hrun : (Check.infer [Scope.prelude] [unit] e).run ⟨c.scope, c.supply, c.record⟩ with
    ⟨r, s⟩
  rw [hrun] at h
  cases r with
  | error halt => cases h
  | ok t =>
    cases h
    exact Check.infer_typed e hrun

theorem typed_checkExpr {c : Checker} {e : Expr} {t : Ty} {σ : Setting}
    (h : Typed [Scope.prelude] c.setting e t σ) (unit : Nat) :
    ∃ c', c.checkExpr unit e = (.ok t, c') ∧ c'.setting = σ := by
  rcases Check.infer_complete e h [unit] c.record with ⟨record, hrun⟩
  refine ⟨{ c with scope := σ.scope, supply := σ.supply, record := record }, ?_, rfl⟩
  have hrun' : (Check.infer [Scope.prelude] [unit] e).run ⟨c.scope, c.supply, c.record⟩ =
      (.ok t, σ.state record) := hrun
  simp only [checkExpr, hrun']
  rfl

/-- An expression is accepted exactly at the types that the rules give it. -/
theorem checkExpr_iff {c : Checker} {unit : Nat} {e : Expr} {t : Ty} :
    (c.checkExpr unit e).1 = .ok t ↔ ∃ σ, Typed [Scope.prelude] c.setting e t σ := by
  constructor
  · intro h
    rcases hc : c.checkExpr unit e with ⟨r, c'⟩
    rw [hc] at h
    cases h
    exact ⟨_, checkExpr_typed hc⟩
  · rintro ⟨σ, h⟩
    rcases typed_checkExpr h unit with ⟨c', hc, -⟩
    rw [hc]

theorem checkFunction_typed {c c' : Checker} {unit : Nat} {d : FunctionDef}
    (h : c.checkFunction unit d = (.ok (), c')) :
    BodyTyped c.scope c.supply d c'.supply ∧ c'.scope = c.scope := by
  unfold checkFunction at h
  rcases hrun : (Check.infer [c.scope, Scope.prelude] [unit] d.body).run
    ⟨bodyScope d, c.supply, c.record⟩ with ⟨r, s⟩
  simp only [hrun] at h
  cases r with
  | error halt => cases h
  | ok t =>
    simp only [Except.bind] at h
    split at h
    · next hsame =>
      cases h
      exact ⟨⟨t, s.setting, Check.infer_typed d.body hrun, hsame, rfl⟩, rfl⟩
    · cases h

theorem typed_checkFunction {c : Checker} {d : FunctionDef} {supply : Supply}
    (h : BodyTyped c.scope c.supply d supply) (unit : Nat) :
    ∃ c', c.checkFunction unit d = (.ok (), c') ∧ c'.scope = c.scope ∧ c'.supply = supply := by
  rcases h with ⟨t, σ, htyped, hsame, rfl⟩
  rcases Check.infer_complete d.body htyped [unit] c.record with ⟨record, hrun⟩
  have hrun' : (Check.infer [c.scope, Scope.prelude] [unit] d.body).run
      ⟨bodyScope d, c.supply, c.record⟩ = (.ok t, σ.state record) := hrun
  refine ⟨{ c with supply := σ.supply, record := record }, ?_, rfl, rfl⟩
  simp only [checkFunction, hrun', Except.bind, hsame]
  rfl

/-- A function is accepted exactly when its body has the declared result. -/
theorem checkFunction_iff {c : Checker} {unit : Nat} {d : FunctionDef} :
    (c.checkFunction unit d).1 = .ok () ↔ ∃ supply, BodyTyped c.scope c.supply d supply := by
  constructor
  · intro h
    rcases hc : c.checkFunction unit d with ⟨r, c'⟩
    rw [hc] at h
    cases h
    exact ⟨_, (checkFunction_typed hc).1⟩
  · rintro ⟨supply, h⟩
    rcases typed_checkFunction h unit with ⟨c', hc, -⟩
    rw [hc]

end Checker

/-! ## All units -/

/-- The functions of a program on top of a scope. -/
def Scope.defineAll (s : Scope) (defs : List FunctionDef) : Scope :=
  defs.foldl Scope.defineFunction s

/-- The bodies are typed one after the other. -/
inductive BodiesTyped (globals : Scope) : Supply → List FunctionDef → Supply → Prop
  | nil {supply : Supply} : BodiesTyped globals supply [] supply
  | cons {s₀ s₁ s₂ : Supply} {d : FunctionDef} {ds : List FunctionDef} :
      BodyTyped globals s₀ d s₁ → BodiesTyped globals s₁ ds s₂ →
      BodiesTyped globals s₀ (d :: ds) s₂

theorem BodiesTyped.bodyTyped {globals : Scope} {defs : List FunctionDef} {supply supply' : Supply}
    (h : BodiesTyped globals supply defs supply') :
    ∀ d ∈ defs, ∃ s s', BodyTyped globals s d s' := by
  induction h with
  | nil => exact List.forall_mem_nil _
  | cons hd _ ih => exact List.forall_mem_cons.mpr ⟨⟨_, _, hd⟩, ih⟩

/-- The program has a type in a setting. -/
structure TypedProgram (σ : Setting) (p : Program) (t : Ty) : Prop where
  declared : ∀ d ∈ p.defs, d.isTyped = true
  units : ∃ supply ts σ', BodiesTyped (σ.scope.defineAll p.defs) σ.supply p.defs supply ∧
    TypedAll [Scope.prelude] ⟨σ.scope.defineAll p.defs, supply⟩ p.exprs ts σ' ∧
    t = ts.getLast?.getD .void

namespace Checker

theorem declareAll_iff {defs : List FunctionDef} {c c' : Checker} :
    declareAll defs c = (.ok (), c') ↔
      (∀ d ∈ defs, d.isTyped = true) ∧ c' = { c with scope := c.scope.defineAll defs } := by
  induction defs generalizing c with
  | nil =>
    rw [declareAll]
    constructor
    · intro h
      cases h
      exact ⟨by simp, rfl⟩
    · rintro ⟨-, rfl⟩
      rfl
  | cons d ds ih =>
    rw [declareAll, declare]
    by_cases hd : d.isTyped = true
    · simp only [hd, if_true]
      rw [ih]
      simp [hd, Scope.defineAll]
    · simp [hd]

theorem checkFunctions_typed {defs : List FunctionDef} {c c' : Checker} {unit : Nat}
    (h : checkFunctions unit defs c = (.ok (), c')) :
    BodiesTyped c.scope c.supply defs c'.supply ∧ c'.scope = c.scope := by
  induction defs generalizing c unit with
  | nil =>
    cases h
    exact ⟨.nil, rfl⟩
  | cons d ds ih =>
    rw [checkFunctions] at h
    split at h
    · next c₁ hc =>
      rcases checkFunction_typed hc with ⟨hd, hscope⟩
      rcases ih h with ⟨hds, hscope'⟩
      rw [hscope] at hds hscope'
      exact ⟨.cons hd hds, hscope'⟩
    · next hne => exact absurd h (hne c')

theorem typed_checkFunctions {defs : List FunctionDef} {c : Checker} {supply : Supply}
    (h : BodiesTyped c.scope c.supply defs supply) (unit : Nat) :
    ∃ c', checkFunctions unit defs c = (.ok (), c') ∧ c'.scope = c.scope ∧
      c'.supply = supply := by
  induction defs generalizing c unit with
  | nil =>
    cases h
    exact ⟨c, rfl, rfl, rfl⟩
  | cons d ds ih =>
    cases h with
    | cons hd hds =>
      rcases typed_checkFunction hd unit with ⟨c₁, hc₁, hscope, hsupply⟩
      rw [← hscope, ← hsupply] at hds
      rcases ih hds (unit + 1) with ⟨c', hc', hscope', hsupply'⟩
      refine ⟨c', ?_, hscope'.trans hscope, hsupply'⟩
      rw [checkFunctions, hc₁]
      exact hc'

theorem getLast?_cons_getD {α : Type} (a d : α) (as : List α) :
    ((a :: as).getLast?).getD d = as.getLast?.getD a := by
  cases as <;> simp [List.getLast?_cons]

theorem checkExprs_typed {es : List Expr} {c c' : Checker} {unit : Nat} {last t : Ty}
    (h : checkExprs unit last es c = (.ok t, c')) :
    ∃ ts, TypedAll [Scope.prelude] c.setting es ts c'.setting ∧ t = ts.getLast?.getD last := by
  induction es generalizing c unit last with
  | nil =>
    cases h
    exact ⟨[], .nil, rfl⟩
  | cons e es ih =>
    rw [checkExprs] at h
    split at h
    · next t₁ c₁ hc =>
      rcases ih h with ⟨ts, hts, ht⟩
      refine ⟨t₁ :: ts, .cons (checkExpr_typed hc) hts, ?_⟩
      rw [getLast?_cons_getD, ht]
    · next hne => exact absurd h (hne t c')

theorem typed_checkExprs {es : List Expr} {c : Checker} {ts : List Ty} {σ : Setting}
    (h : TypedAll [Scope.prelude] c.setting es ts σ) (unit : Nat) (last : Ty) :
    ∃ c', checkExprs unit last es c = (.ok (ts.getLast?.getD last), c') := by
  induction es generalizing c unit last ts with
  | nil =>
    cases h
    exact ⟨c, rfl⟩
  | cons e es ih =>
    cases h with
    | @cons _ _ _ _ _ t ts he hes =>
      rcases typed_checkExpr he unit with ⟨c₁, hc₁, hsetting⟩
      rw [← hsetting] at hes
      rcases ih hes (unit + 1) t with ⟨c', hc'⟩
      refine ⟨c', ?_⟩
      rw [checkExprs, hc₁, getLast?_cons_getD]
      exact hc'

/-- A function that is added has been checked with its own type already known. -/
theorem define_typed {c c' : Checker} {d : FunctionDef} (h : c.define d = (.ok (), c')) :
    BodyTyped (c.scope.defineFunction d) c.supply d c'.supply ∧
      c'.scope = c.scope.defineFunction d := by
  unfold define declare at h
  by_cases htyped : d.isTyped = true
  · rw [if_pos htyped] at h
    dsimp only at h
    rcases hcheck : checkFunction { c with scope := c.scope.defineFunction d } 0 d with
      ⟨halt | _, c₁⟩
    · rw [hcheck] at h
      cases h
    · rw [hcheck] at h
      cases h
      exact checkFunction_typed hcheck
  · rw [if_neg htyped] at h
    cases h

/-- The functions of a program that is accepted have been checked with all their types known. -/
theorem checkProgram_typed {c c' : Checker} {p : Program} {t : Ty}
    (h : c.checkProgram p = (.ok t, c')) :
    ∃ supply ts, BodiesTyped (c.scope.defineAll p.defs) c.supply p.defs supply ∧
      TypedAll [Scope.prelude] ⟨c.scope.defineAll p.defs, supply⟩ p.exprs ts c'.setting := by
  unfold checkProgram at h
  extract_lets c₀ at h
  have hstart : c₀.scope = c.scope ∧ c₀.supply = c.supply := by
    unfold c₀
    split <;> exact ⟨rfl, rfl⟩
  split at h
  · cases h
  · next c₁ hdeclare =>
    obtain ⟨-, rfl⟩ := declareAll_iff.mp hdeclare
    split at h
    · cases h
    · next c₂ hbodies =>
      obtain ⟨hbodies, hscope⟩ := checkFunctions_typed hbodies
      obtain ⟨ts, hts, -⟩ := checkExprs_typed h
      rw [setting, hscope] at hts
      dsimp only at hbodies hts
      rw [hstart.1, hstart.2] at hbodies
      rw [hstart.1] at hts
      exact ⟨_, ts, hbodies, hts⟩

/-- The checker accepts a program at a type exactly when the rules give it that type. -/
theorem checkProgram_iff {c : Checker} {p : Program} {t : Ty} :
    (c.checkProgram p).1 = .ok t ↔ TypedProgram c.setting p t := by
  -- The name of the file has no part in the verdict.
  have hfile : ∃ file, (if p.file.isEmpty then c else { c with file := p.file }) =
      { c with file := file } := by
    split
    · exact ⟨c.file, rfl⟩
    · exact ⟨p.file, rfl⟩
  rcases hfile with ⟨file, hfile⟩
  simp only [checkProgram, hfile]
  constructor
  · intro h
    split at h
    · cases h
    · next c₁ hdeclare =>
      rcases declareAll_iff.mp hdeclare with ⟨hdeclared, rfl⟩
      split at h
      · cases h
      · next c₂ hbodies =>
        rcases checkFunctions_typed hbodies with ⟨hbodies, hscope⟩
        rcases hexprs : checkExprs p.defs.length .void p.exprs c₂ with ⟨r, c₃⟩
        rw [hexprs] at h
        cases h
        rcases checkExprs_typed hexprs with ⟨ts, hts, ht⟩
        rw [setting, hscope] at hts
        exact ⟨hdeclared, _, ts, _, hbodies, hts, ht⟩
  · rintro ⟨hdeclared, supply, ts, σ, hbodies, hts, rfl⟩
    have hdeclare : declareAll p.defs { c with file } =
        (.ok (), { c with file, scope := c.scope.defineAll p.defs }) :=
      declareAll_iff.mpr ⟨hdeclared, rfl⟩
    rcases typed_checkFunctions (c := { c with file, scope := c.scope.defineAll p.defs })
      hbodies 0 with ⟨c₂, hc₂, hscope, hsupply⟩
    -- The bodies have moved the supply on and left the scope as it was.
    have hsetting : c₂.setting = ⟨c.setting.scope.defineAll p.defs, supply⟩ := by
      rw [setting, hscope, hsupply]
      rfl
    rw [← hsetting] at hts
    rcases typed_checkExprs hts p.defs.length .void with ⟨c₃, hc₃⟩
    simp only [hdeclare, hc₂, hc₃]

/-- Decides whether the checker accepts a program at a type. -/
def acceptsAt (c : Checker) (p : Program) (t : Ty) : Bool :=
  match (c.checkProgram p).1 with
  | .ok u => u.same t
  | .error _ => false

theorem checkProgram_of_acceptsAt {c : Checker} {p : Program} {t : Ty}
    (h : c.acceptsAt p t = true) : (c.checkProgram p).1 = .ok t := by
  unfold acceptsAt at h
  split at h
  · next u hu => rw [hu, Ty.eq_of_same h]
  · cases h

end Checker

end TreeLang
