import TreeLang.Proofs.Typing.Renaming

/-!
# Function bodies

A body sees its parameters and all functions, and no variable around it. So the verdict on it
depends only on the types and type parameters under the names in it, and not on the supply, as long
as no type variable in sight ends in a digit. Main statements: `BodyTyped.transfer`, and
`BodyTyped.supply_eq`, by which a body takes as many new variables wherever it is checked.
-/

namespace TreeLang

/-- What the body of a function sees. -/
def bodySight (globals : Scope) (d : FunctionDef) : ScopeChain :=
  [Checker.bodyScope d, globals, Scope.prelude]

/-- No type variable of the declared types ends in a digit, and neither does one of a function that
the body names, or a type parameter of it. -/
structure FunctionDef.Unnumbered (d : FunctionDef) (globals : Scope) : Prop where
  body : ∀ n ∈ d.body.names, ∀ x ∈ (bodySight globals d).variables n, Supply.unnumbered x = true
  result : ∀ x ∈ d.result.occurrences, Supply.unnumbered x = true

/-- A body sees no variables but its own, and no functions but the global ones. -/
theorem bodySight_find (globals : Scope) (d : FunctionDef) (name : String) :
    (bodySight globals d).findVariable name = (Checker.bodyScope d).vars.get? name ∧
      (bodySight globals d).findFunction name =
        ScopeChain.findFunction name [globals, Scope.prelude] := by
  obtain ⟨hkind, hfuncs⟩ := bodyScope_kind_funcs d.params { kind := .function }
  have hkind' : (Checker.bodyScope d).kind = .function := hkind
  have hfuncs' : (Checker.bodyScope d).funcs = ∅ := hfuncs
  constructor
  · unfold bodySight ScopeChain.findVariable
    rw [if_pos hkind']
    cases (Checker.bodyScope d).vars.get? name <;> rfl
  · unfold bodySight
    rw [ScopeChain.findFunction, hfuncs']
    rfl

theorem bodySight_sameFor {globals globals' : Scope} {d : FunctionDef}
    (h : ∀ n ∈ d.body.names,
      (ScopeChain.findFunction n [globals', Scope.prelude]).map FnSymbol.scheme =
        (ScopeChain.findFunction n [globals, Scope.prelude]).map FnSymbol.scheme) :
    SameFor d.body (bodySight globals d) (bodySight globals' d) := by
  intro n hn
  obtain ⟨hvariable, hfunction⟩ := bodySight_find globals d n
  obtain ⟨hvariable', hfunction'⟩ := bodySight_find globals' d n
  rw [hvariable, hvariable', hfunction, hfunction']
  exact ⟨rfl, h n hn⟩

/-- A function that is accepted with one table of functions and supply is accepted with all others,
if the names in its body have the same types and type parameters there. -/
theorem BodyTyped.transfer {globals globals' : Scope} {supply supply₁ : Supply} {d : FunctionDef}
    (h : BodyTyped globals supply d supply₁) (hplain : d.Unnumbered globals)
    (hsame : SameFor d.body (bodySight globals d) (bodySight globals' d)) (supply' : Supply) :
    ∃ supply₂, BodyTyped globals' supply' d supply₂ := by
  obtain ⟨t, σ, htyped, hresult, -⟩ := h
  obtain ⟨ρ, hrest, hiff⟩ := exists_typed_iff (σ := ⟨Checker.bodyScope d, supply⟩)
    (τ := ⟨Checker.bodyScope d, supply'⟩) hsame (newFor_of_unnumbered hplain.body supply)
    (newFor_of_unnumbered hplain.body supply')
  obtain ⟨τ, htyped'⟩ := (hiff t).mp ⟨σ, htyped⟩
  refine ⟨τ.supply, t.rename ρ, τ, htyped', ?_, rfl⟩
  -- The renaming leaves the declared result as it is.
  have hdeclared : d.result.rename ρ = d.result := by
    refine Ty.rename_eq_self fun x hx => hrest x ?_ ?_
    · exact Supply.not_mem_handOut (hplain.result x hx) _ _
    · exact Supply.not_mem_handOut (hplain.result x hx) _ _
  rw [← hdeclared]
  exact Ty.same_rename hresult

/-! ## How far the supply gets -/

/-- A supply corresponds to itself. -/
theorem Supply.passes_id (stems : List String) (supply : Supply) :
    Passes id stems supply supply :=
  List.map_id _

/-- Checking an expression takes the variables for its stems, and no others. -/
theorem Typed.supply_eq {outer : ScopeChain} {σ σ' : Setting} {e : Expr} {t : Ty}
    (h : Typed outer σ e t σ') :
    σ'.supply = σ.supply.after (e.stems (ScopeChain.typeParams (σ.scope :: outer))) := by
  have halike : Alike id (ScopeChain.typeParams (σ.scope :: outer)) e.names (σ.scope :: outer)
      (σ.scope :: outer) := (SameFor.refl e _).alike (fun _ _ _ _ => rfl) fun _ _ => rfl
  obtain ⟨_, _, hadvance⟩ := Typed.rename Function.injective_id e h (List.Subset.refl _) halike
    (Supply.passes_id _ _)
  exact hadvance.left

/-- The stems of the variables that the check of a body asks for. -/
def bodyStems (globals : Scope) (d : FunctionDef) : List String :=
  d.body.stems (bodySight globals d).typeParams

theorem BodyTyped.supply_eq {globals : Scope} {supply supply' : Supply} {d : FunctionDef}
    (h : BodyTyped globals supply d supply') : supply' = supply.after (bodyStems globals d) := by
  obtain ⟨t, σ, htyped, -, rfl⟩ := h
  exact htyped.supply_eq

end TreeLang
