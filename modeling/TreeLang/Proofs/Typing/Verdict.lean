import TreeLang.Proofs.Document.Denotation
import TreeLang.Proofs.Typing.Ending
import TreeLang.Program.Writer

/-!
# When checking a program ends

A program is checked unit by unit, and a unit is only come to if those before it are accepted.
Main statement: `checkProgram_ends_iff`, by which the verdict on a program is a type or a report
exactly when every call that is come to ends; only calls whose argument types share a variable,
with each other or with the parameters, have to be looked at. `swapping` is a program in which
such a call does not end: two variables get bound to each other.
-/

namespace TreeLang

/-- Checking a program comes to one of its units: to a body when the bodies before it are accepted,
and to an expression when all bodies and the expressions before it are. -/
inductive Program.Begins (p : Program) (σ : Setting) : ScopeChain → Setting × Expr → Prop
  | body {ds ds' : List FunctionDef} {d : FunctionDef} {supply : Supply} :
      (∀ d ∈ p.defs, d.isTyped = true) → p.defs = ds ++ d :: ds' →
      BodiesTyped (σ.scope.defineAll p.defs) σ.supply ds supply →
      Begins p σ [σ.scope.defineAll p.defs, Scope.prelude] (⟨Checker.bodyScope d, supply⟩, d.body)
  | expr {es es' : List Expr} {e : Expr} {supply : Supply} {ts : List Ty} {σ' : Setting} :
      (∀ d ∈ p.defs, d.isTyped = true) → p.exprs = es ++ e :: es' →
      BodiesTyped (σ.scope.defineAll p.defs) σ.supply p.defs supply →
      TypedAll [Scope.prelude] ⟨σ.scope.defineAll p.defs, supply⟩ es ts σ' →
      Begins p σ [Scope.prelude] (σ', e)

/-- Checking a program comes to a call in which `f` is matched with argument types. -/
def Program.Calls (p : Program) (σ : Setting) (f : FnType) (ts : List Ty) : Prop :=
  ∃ outer x, p.Begins σ outer x ∧ Meets outer x f ts

namespace Checker

theorem mapError_endless {α : Type} {c : Checker} {r : Except Halt α} :
    r.mapError c.withFile = .error .endless ↔ r = .error .endless := by
  cases r with
  | ok a => simp [Except.mapError]
  | error h => cases h <;> simp [Except.mapError, withFile]

theorem checkExpr_endless (c : Checker) (unit : Nat) (e : Expr) :
    (c.checkExpr unit e).1 = .error .endless ↔ RunsOn [Scope.prelude] (c.setting, e) := by
  have hrun := Check.endless_iff_runsOn [Scope.prelude] [unit] e ⟨c.scope, c.supply, c.record⟩
  unfold checkExpr
  rcases hr : (Check.infer [Scope.prelude] [unit] e).run ⟨c.scope, c.supply, c.record⟩ with ⟨r, s⟩
  rw [hr] at hrun
  rw [mapError_endless]
  exact hrun

theorem checkFunction_endless (c : Checker) (unit : Nat) (d : FunctionDef) :
    (c.checkFunction unit d).1 = .error .endless ↔
      RunsOn [c.scope, Scope.prelude] (⟨bodyScope d, c.supply⟩, d.body) := by
  have hrun := Check.endless_iff_runsOn [c.scope, Scope.prelude] [unit] d.body
    ⟨bodyScope d, c.supply, c.record⟩
  unfold checkFunction
  rcases hr : (Check.infer [c.scope, Scope.prelude] [unit] d.body).run
    ⟨bodyScope d, c.supply, c.record⟩ with ⟨r, s⟩
  rw [hr] at hrun
  rw [mapError_endless]
  refine Iff.trans ?_ hrun
  -- The comparison with the declared result only adds a report.
  cases r with
  | error h => simp [Except.bind]
  | ok t =>
    simp only [Except.bind, reduceCtorEq, iff_false]
    split <;> simp

/-- Bodies run forever at one of them. -/
theorem checkFunctions_endless (defs : List FunctionDef) (c : Checker) (unit : Nat) :
    (checkFunctions unit defs c).1 = .error .endless ↔
      ∃ ds d ds' supply, defs = ds ++ d :: ds' ∧ BodiesTyped c.scope c.supply ds supply ∧
        RunsOn [c.scope, Scope.prelude] (⟨bodyScope d, supply⟩, d.body) := by
  induction defs generalizing c unit with
  | nil => simp [checkFunctions]
  | cons d ds ih =>
    rw [checkFunctions]
    constructor
    · intro h
      split at h
      · next c₁ hc =>
        obtain ⟨hd, hscope⟩ := checkFunction_typed hc
        obtain ⟨ds₁, d₁, ds₂, supply, rfl, hds, hruns⟩ := (ih c₁ _).mp h
        rw [hscope] at hds hruns
        exact ⟨d :: ds₁, d₁, ds₂, supply, rfl, .cons hd hds, hruns⟩
      · exact ⟨[], d, ds, c.supply, rfl, .nil, (checkFunction_endless c unit d).mp h⟩
    · rintro ⟨ds₁, d₁, ds₂, supply, heq, hds, hruns⟩
      cases ds₁ with
      | nil =>
        cases heq
        cases hds
        have hendless := (checkFunction_endless c unit d).mpr hruns
        split
        · next c₁ hc =>
          rw [hc] at hendless
          cases hendless
        · exact hendless
      | cons d' ds₁ =>
        cases heq
        cases hds with
        | cons hd hds =>
          obtain ⟨c₁, hc₁, hscope, hsupply⟩ := typed_checkFunction hd unit
          rw [hc₁]
          refine (ih c₁ _).mpr ⟨ds₁, d₁, ds₂, supply, rfl, ?_, ?_⟩
          · rw [hscope, hsupply]
            exact hds
          · rw [hscope]
            exact hruns

/-- Expressions run forever at one of them. -/
theorem checkExprs_endless {es : List Expr} {c : Checker} {unit : Nat} {last : Ty} :
    (checkExprs unit last es c).1 = .error .endless ↔
      ∃ as e bs ts σ, es = as ++ e :: bs ∧ TypedAll [Scope.prelude] c.setting as ts σ ∧
        RunsOn [Scope.prelude] (σ, e) := by
  induction es generalizing c unit last with
  | nil => simp [checkExprs]
  | cons e es ih =>
    rw [checkExprs]
    constructor
    · intro h
      split at h
      · next t c₁ hc =>
        obtain ⟨as, a, bs, ts, σ, rfl, has, hruns⟩ := ih.mp h
        exact ⟨e :: as, a, bs, t :: ts, σ, rfl, .cons (checkExpr_typed hc) has, hruns⟩
      · exact ⟨[], e, es, [], _, rfl, .nil, (checkExpr_endless c unit e).mp h⟩
    · rintro ⟨as, a, bs, ts, σ, heq, has, hruns⟩
      cases as with
      | nil =>
        cases heq
        cases has
        have hendless := (checkExpr_endless c unit e).mpr hruns
        split
        · next t c₁ hc =>
          rw [hc] at hendless
          cases hendless
        · exact hendless
      | cons e' as =>
        cases heq
        cases has with
        | cons he has =>
          obtain ⟨c₁, hc₁, hsetting⟩ := typed_checkExpr he unit
          rw [hc₁]
          rw [← hsetting] at has
          exact ih.mpr ⟨as, a, bs, _, σ, rfl, has, hruns⟩

/-- A type that is not declared is reported before any unit is looked at. -/
theorem declareAll_fault {defs : List FunctionDef} (h : ¬ ∀ d ∈ defs, d.isTyped = true)
    (c : Checker) : ∃ d c', declareAll defs c = (.error (.fault d), c') := by
  induction defs generalizing c with
  | nil => simp at h
  | cons d ds ih =>
    rw [declareAll, declare]
    by_cases hd : d.isTyped = true
    · simp only [hd, if_true]
      refine ih ?_ _
      intro hds
      exact h fun x hx => (List.mem_cons.mp hx).elim (fun hxd => hxd ▸ hd) (hds x)
    · simp [hd, withFile]

/-- Where all types are declared, the bodies are checked, and the expressions if all bodies are
accepted. -/
theorem checkProgram_declared (c : Checker) {p : Program}
    (hdeclared : ∀ d ∈ p.defs, d.isTyped = true) :
    ∃ c₁ : Checker, c₁.scope = c.scope.defineAll p.defs ∧ c₁.supply = c.supply ∧
      (∀ h c₂, checkFunctions 0 p.defs c₁ = (.error h, c₂) → (c.checkProgram p).1 = .error h) ∧
      ∀ c₂, checkFunctions 0 p.defs c₁ = (.ok (), c₂) →
        (c.checkProgram p).1 = (checkExprs p.defs.length .void p.exprs c₂).1 := by
  -- The name of the file has no part in the verdict.
  have hfile : ∃ file, (if p.file.isEmpty then c else { c with file := p.file }) =
      { c with file := file } := by
    split
    · exact ⟨c.file, rfl⟩
    · exact ⟨p.file, rfl⟩
  obtain ⟨file, hfile⟩ := hfile
  refine ⟨{ c with file, scope := c.scope.defineAll p.defs }, rfl, rfl, ?_, ?_⟩
  · intro h c₂ hbodies
    simp only [checkProgram, hfile, declareAll_iff.mpr ⟨hdeclared, rfl⟩, hbodies]
  · intro c₂ hbodies
    simp only [checkProgram, hfile, declareAll_iff.mpr ⟨hdeclared, rfl⟩, hbodies]

theorem checkProgram_undeclared (c : Checker) {p : Program}
    (h : ¬ ∀ d ∈ p.defs, d.isTyped = true) : ∃ d, (c.checkProgram p).1 = .error (.fault d) := by
  obtain ⟨d, c', hdeclare⟩ :=
    declareAll_fault h (if p.file.isEmpty then c else { c with file := p.file })
  refine ⟨d, ?_⟩
  simp only [checkProgram, hdeclare]

/-- Checking a program runs forever exactly when one of the units that it comes to does. -/
theorem checkProgram_endless {c : Checker} {p : Program} :
    (c.checkProgram p).1 = .error .endless ↔
      ∃ outer x, p.Begins c.setting outer x ∧ RunsOn outer x := by
  by_cases hdeclared : ∀ d ∈ p.defs, d.isTyped = true
  · obtain ⟨c₁, hscope, hsupply, herror, hok⟩ := checkProgram_declared c hdeclared
    have hbodies := checkFunctions_endless p.defs c₁ 0
    have hpass : ∀ supply, BodiesTyped (c.scope.defineAll p.defs) c.supply p.defs supply →
        ∃ c₂, checkFunctions 0 p.defs c₁ = (.ok (), c₂) ∧ c₂.supply = supply := by
      intro supply hall
      rw [← hscope, ← hsupply] at hall
      obtain ⟨c₂, hc₂, -, hsupply₂⟩ := typed_checkFunctions hall 0
      exact ⟨c₂, hc₂, hsupply₂⟩
    rcases hfns : checkFunctions 0 p.defs c₁ with ⟨r, c₂⟩
    rw [hfns, hscope, hsupply] at hbodies
    cases r with
    | error h =>
      rw [herror h c₂ hfns]
      constructor
      · intro heq
        cases heq
        obtain ⟨ds, d, ds', supply, heq, hds, hruns⟩ := hbodies.mp rfl
        exact ⟨_, _, .body hdeclared heq hds, hruns⟩
      · rintro ⟨outer, x, hbegins, hruns⟩
        cases hbegins with
        | body _ heq hds =>
          have hendless := hbodies.mpr ⟨_, _, _, _, heq, hds, hruns⟩
          cases hendless
          rfl
        | expr _ _ hall =>
          -- Expressions are only come to if no body has failed.
          obtain ⟨c₃, hc₃, -⟩ := hpass _ hall
          rw [hfns] at hc₃
          cases hc₃
    | ok u =>
      rw [hok c₂ hfns, checkExprs_endless]
      obtain ⟨hall, hscope₂⟩ := checkFunctions_typed hfns
      have hsetting : c₂.setting = ⟨c.scope.defineAll p.defs, c₂.supply⟩ := by
        rw [setting, hscope₂, hscope]
      rw [hscope, hsupply] at hall
      constructor
      · rintro ⟨as, e, bs, ts, σ, heq, has, hruns⟩
        rw [hsetting] at has
        exact ⟨_, _, .expr hdeclared heq hall has, hruns⟩
      · rintro ⟨outer, x, hbegins, hruns⟩
        cases hbegins with
        | body _ heq hds => cases hbodies.mpr ⟨_, _, _, _, heq, hds, hruns⟩
        | expr _ heq hall' has =>
          obtain ⟨c₃, hc₃, rfl⟩ := hpass _ hall'
          rw [hfns] at hc₃
          cases hc₃
          rw [hsetting]
          exact ⟨_, _, _, _, _, heq, has, hruns⟩
  · obtain ⟨d, hfault⟩ := checkProgram_undeclared c hdeclared
    rw [hfault]
    refine iff_of_false ?_ ?_
    · intro heq
      cases heq
    · rintro ⟨outer, x, hbegins, -⟩
      cases hbegins with
      | body h => exact hdeclared h
      | expr h => exact hdeclared h

end Checker

/-- Checking a program gives a type or a report exactly when every call that it comes to ends, of
those in which the argument types share a variable with each other or with the parameters. -/
theorem checkProgram_ends_iff (c : Checker) (p : Program) :
    ((∃ t, (c.checkProgram p).1 = .ok t) ∨ ∃ d, (c.checkProgram p).1 = .error (.fault d)) ↔
      ∀ f ts, p.Calls c.setting f ts → ¬ f.Independent ts → f.Ends ts := by
  have hverdict : ((∃ t, (c.checkProgram p).1 = .ok t) ∨
      ∃ d, (c.checkProgram p).1 = .error (.fault d)) ↔ (c.checkProgram p).1 ≠ .error .endless := by
    rcases (c.checkProgram p).1 with (d | _) | t <;> simp
  rw [hverdict, Ne, Checker.checkProgram_endless]
  constructor
  · rintro h f ts ⟨outer, x, hbegins, hmeets⟩ -
    by_contra hends
    exact h ⟨outer, x, hbegins, f, ts, hmeets, hends⟩
  · rintro h ⟨outer, x, hbegins, f, ts, hmeets, hends⟩
    have hdependent : ¬ f.Independent ts := fun hind => hends (FnType.ends_of_independent hind)
    exact hends (h f ts ⟨outer, x, hbegins, hmeets⟩ hdependent)

/-! ## A program that is checked forever -/

/-- A function that calls its parameter with two variables in the places of each other. -/
def swapping : Program where
  defs :=
    [{ name := "g"
       typeParams := ["X", "Y"]
       params :=
         [⟨"f", .fn [.var "Y", .var "X", .var "X"] .number false⟩, ⟨"x", .var "X"⟩, ⟨"y", .var "Y"⟩]
       result := .number
       body := .call "f" [.ref "x", .ref "y", .text "s"] }]
  exprs := [.text "s"]

/-- A document of the program, as nodes. -/
def swappingDocument : Document.Node :=
  record
    [("functions", row [record
        [("name", word "g"),
         ("typeParams", row [word "X", word "Y"]),
         ("params", row
           [record [("name", word "f"),
              ("type", row [word "Fun", row [word "Y", word "X", word "X"], word "Number"])],
            record [("name", word "x"), ("type", word "X")],
            record [("name", word "y"), ("type", word "Y")]]),
         ("returns", word "Number"),
         ("body", row [word "call", word "f", row [word "ref", word "x"],
           row [word "ref", word "y"], word "s"])]]),
     ("expressions", row [word "s"])]
where
  word (s : String) : Document.Node := .scalar ⟨1, 1⟩ none .quoted s
  row (items : List Document.Node) : Document.Node := .sequence ⟨1, 1⟩ none items
  record (fields : List (String × Document.Node)) : Document.Node :=
    .mapping ⟨1, 1⟩ none (fields.map fun f => (word f.1, f.2))

/-- The program can be written, is read as it stands, and is checked forever: the first two
arguments bind the variables to each other, and the third one is matched round and round. -/
theorem swapping_endless :
    swappingDocument.denotes swapping.item = true ∧
      Reader.programOf ⟨swappingDocument, []⟩ swappingDocument "" = .ok swapping ∧
      (({} : Checker).checkProgram swapping).1 = .error .endless ∧
      Nesting.Returns Ty.Leads (.var "X", .text, ⟨[("Y", .var "X"), ("X", .var "Y")]⟩) := by
  refine ⟨?_, ?_, rfl, (.var "X", .text, _), .refl, ?_⟩
  · decide
  · rfl
  · exact .head (.bound rfl) (.single (.bound rfl))

end TreeLang
