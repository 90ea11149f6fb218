import TreeLang.Proofs.Typing.Bodies

/-!
# The order of definitions

All declared types are known before the first body is checked, so the order of the definitions shows
only in the names of the new type variables: a body that is checked later gets others. The bodies
share one supply, and however they are ordered they take the same number of variables from it
(`bodiesTyped_iff`), so that the expressions behind them find the supply at the same place. Main
statement: `checkProgram_perm`, by which the verdict and the type of a program do not depend on the
order, as long as the functions have different names and no declared type variable ends in a digit.
-/

namespace TreeLang

/-! ## Tables of functions -/

/-- The scopes know the same functions. -/
def Scope.SameFuncs (s s' : Scope) : Prop := ∀ name, s'.funcs.get? name = s.funcs.get? name

namespace Scope.SameFuncs

variable {s s' : Scope}

theorem defineFunction (h : s.SameFuncs s') (d : FunctionDef) :
    (s.defineFunction d).SameFuncs (s'.defineFunction d) := by
  intro name
  simp only [Scope.defineFunction, Scope.setFunction, Table.get?_insert, h name]

theorem defineAll (h : s.SameFuncs s') (defs : List FunctionDef) :
    (s.defineAll defs).SameFuncs (s'.defineAll defs) := by
  induction defs generalizing s s' with
  | nil => exact h
  | cons d ds ih => exact ih (h.defineFunction d)

/-- Two functions of different names can be registered in either order. -/
theorem swap (s : Scope) {d e : FunctionDef} (hne : d.name ≠ e.name) :
    ((s.defineFunction d).defineFunction e).SameFuncs
      ((s.defineFunction e).defineFunction d) := by
  intro name
  simp only [Scope.defineFunction, Scope.setFunction, Table.get?_insert, FnSymbol.ofDef]
  by_cases hd : d.name = name
  · have he : e.name ≠ name := fun he => hne (hd.trans he.symm)
    rw [if_pos hd, if_neg he, if_pos hd]
  · rw [if_neg hd, if_neg hd]

/-- Functions of different names can be registered in any order. -/
theorem perm {defs defs' : List FunctionDef} (hperm : defs.Perm defs')
    (hnames : (defs.map (·.name)).Nodup) (s : Scope) :
    (s.defineAll defs).SameFuncs (s.defineAll defs') := by
  induction hperm generalizing s with
  | nil => exact fun _ => rfl
  | cons d _ ih => exact ih (List.nodup_cons.mp hnames).2 (s.defineFunction d)
  | swap d e ds =>
    have hne : e.name ≠ d.name := by
      intro heq
      simp [heq] at hnames
    exact (swap s hne).defineAll ds
  | trans hfirst _ ih₁ ih₂ =>
    have hnames' := (hfirst.map (·.name)).nodup_iff.mp hnames
    exact fun name => (ih₂ hnames' s name).trans (ih₁ hnames s name)

theorem findFunction (h : s.SameFuncs s') (outer : ScopeChain) (name : String) :
    ScopeChain.findFunction name (s' :: outer) = ScopeChain.findFunction name (s :: outer) := by
  simp only [ScopeChain.findFunction, h name]

theorem bodySight (h : s.SameFuncs s') (d : FunctionDef) :
    SameFor d.body (bodySight s d) (TreeLang.bodySight s' d) :=
  bodySight_sameFor fun name _ => by rw [h.findFunction]

theorem bodyStems (h : s.SameFuncs s') (d : FunctionDef) : bodyStems s' d = bodyStems s d := by
  have hparams : (TreeLang.bodySight s' d).typeParams = (TreeLang.bodySight s d).typeParams := by
    funext name
    unfold ScopeChain.typeParams
    rw [(bodySight_find s' d name).2, (bodySight_find s d name).2, h.findFunction]
  rw [TreeLang.bodyStems, TreeLang.bodyStems, hparams]

end Scope.SameFuncs

/-- Every function of a scope comes from one of the definitions, or was there before. -/
theorem Scope.mem_of_get?_defineAll {s : Scope} {defs : List FunctionDef} {name : String}
    {f : FnSymbol} (h : (s.defineAll defs).funcs.get? name = some f) :
    (∃ d ∈ defs, f = .ofDef d) ∨ s.funcs.get? name = some f := by
  induction defs generalizing s with
  | nil => exact Or.inr h
  | cons d ds ih =>
    rcases ih h with ⟨e, he, rfl⟩ | hfirst
    · exact Or.inl ⟨e, List.mem_cons_of_mem d he, rfl⟩
    · simp only [defineFunction, setFunction, Table.get?_insert] at hfirst
      split at hfirst
      · exact Or.inl ⟨d, List.mem_cons_self, (Option.some.inj hfirst).symm⟩
      · exact Or.inr hfirst

/-! ## Declared type variables -/

/-- No type variable of a declared type, and no type parameter, ends in a digit. -/
def Program.unnumbered (p : Program) : Bool :=
  p.defs.all fun d => (FnSymbol.ofDef d).variables.all Supply.unnumbered

theorem Program.unnumbered_iff {p : Program} :
    p.unnumbered = true ↔
      ∀ d ∈ p.defs, ∀ x ∈ (FnSymbol.ofDef d).variables, Supply.unnumbered x = true := by
  simp only [Program.unnumbered, List.all_eq_true]

theorem Program.unnumbered_perm {p : Program} {defs : List FunctionDef}
    (hperm : p.defs.Perm defs) (h : p.unnumbered = true) :
    ({ p with defs } : Program).unnumbered = true := by
  rw [Program.unnumbered_iff] at h ⊢
  exact fun d hd => h d (hperm.mem_iff.mpr hd)

theorem Primitive.unnumbered (p : Primitive) :
    ∀ x ∈ (FnSymbol.ofPrimitive p).variables, Supply.unnumbered x = true := by
  cases p <;> decide

theorem mem_variables_of_param {d : FunctionDef} {p : Param} (hp : p ∈ d.params) {x : String}
    (hx : x ∈ p.type.occurrences) : x ∈ (FnSymbol.ofDef d).variables := by
  refine List.mem_append_left _ (List.mem_append_left _ ?_)
  rw [Ty.occurrencesAll_eq_flatMap]
  exact List.mem_flatMap.mpr ⟨p.type, List.mem_map_of_mem hp, hx⟩

/-- In a program without numbered type variables no body has one in sight. -/
theorem Program.unnumbered_body {p : Program} (h : p.unnumbered = true) {d : FunctionDef}
    (hd : d ∈ p.defs) : d.Unnumbered (Scope.defineAll {} p.defs) := by
  rw [Program.unnumbered_iff] at h
  refine ⟨fun n _ x hx => ?_, fun x hx => h d hd x ?_⟩
  · rcases List.mem_append.mp hx with hx | hx
    · rw [(bodySight_find _ d n).1] at hx
      cases hvar : (Checker.bodyScope d).vars.get? n with
      | none =>
        rw [hvar] at hx
        cases hx
      | some t =>
        rw [hvar] at hx
        rcases bodyScope_vars hvar with ⟨q, hq, -, rfl⟩ | hnone
        · exact h d hd x (mem_variables_of_param hq hx)
        · cases hnone
    · have hsees := (Sees.bodyScope (Scope.defineAll {} p.defs) d).function n
      change (bodySight _ d).findFunction n = _ at hsees
      rw [hsees] at hx
      cases hfunc : (Scope.defineAll {} p.defs).funcs.get? n with
      | some f =>
        rw [hfunc] at hx
        rcases Scope.mem_of_get?_defineAll hfunc with ⟨e, he, rfl⟩ | hnone
        · exact h e he x hx
        · cases hnone
      | none =>
        rw [hfunc, Option.none_or] at hx
        cases hprim : Primitive.named? n with
        | none =>
          rw [hprim] at hx
          cases hx
        | some q =>
          rw [hprim] at hx
          exact q.unnumbered x hx
  · exact List.mem_append_left _ (List.mem_append_right _ hx)

/-! ## Bodies and expressions -/

/-- Bodies are typed one after the other if each of them is typed at all, and they move the supply
on by the variables that each of them takes. -/
theorem bodiesTyped_iff {globals : Scope} {defs : List FunctionDef}
    (hplain : ∀ d ∈ defs, d.Unnumbered globals) {supply supply' : Supply} :
    BodiesTyped globals supply defs supply' ↔
      (∀ d ∈ defs, ∃ s s', BodyTyped globals s d s') ∧
        supply' = supply.after (defs.flatMap (bodyStems globals)) := by
  induction defs generalizing supply supply' with
  | nil =>
    constructor
    · intro h
      cases h
      exact ⟨List.forall_mem_nil _, rfl⟩
    · rintro ⟨-, rfl⟩
      exact .nil
  | cons d ds ih =>
    have hplain' := fun e he => hplain e (List.mem_cons_of_mem d he)
    constructor
    · intro h
      cases h with
      | cons hd hds =>
        obtain ⟨hbodies, rfl⟩ := (ih hplain').mp hds
        refine ⟨List.forall_mem_cons.mpr ⟨⟨_, _, hd⟩, hbodies⟩, ?_⟩
        rw [hd.supply_eq, List.flatMap_cons, Supply.after_append]
    · rintro ⟨hbodies, rfl⟩
      obtain ⟨⟨s, s', hd⟩, hds⟩ := List.forall_mem_cons.mp hbodies
      -- The body is typed with some supply, and so it is with the one at hand.
      obtain ⟨supply₁, hd'⟩ := hd.transfer (hplain d List.mem_cons_self) (.refl _ _) supply
      rw [List.flatMap_cons, Supply.after_append, ← hd'.supply_eq]
      exact .cons hd' ((ih hplain').mpr ⟨hds, rfl⟩)

/-- Expressions have the same types where the same functions and variables are known. -/
theorem TypedAll.sameFuncs {s s' : Scope} (hfuncs : s.SameFuncs s') (hvars : s'.vars = s.vars)
    {supply : Supply} {es : List Expr} {ts : List Ty} {σ : Setting}
    (h : TypedAll [Scope.prelude] ⟨s, supply⟩ es ts σ) :
    ∃ τ, TypedAll [Scope.prelude] ⟨s', supply⟩ es ts τ := by
  have hid : ∀ t : Ty, t.rename id = t := fun t => Ty.rename_eq_self fun _ _ => rfl
  have halike : Alike id (ScopeChain.typeParams [s, Scope.prelude]) (Expr.namesAll es)
      [s, Scope.prelude] [s', Scope.prelude] := by
    refine ⟨fun n _ => ?_, fun n _ => ?_, fun _ _ _ _ _ _ => rfl, fun _ _ => rfl⟩
    · rw [(Sees.global s).findVariable_eq, (Sees.global s').findVariable_eq, hvars]
      cases s.vars.get? n with
      | none => rfl
      | some t => rw [Option.map_some, hid]
    · rw [hfuncs.findFunction]
  obtain ⟨τ, hτ, -⟩ := h.rename (τ := ⟨s', supply⟩)
    (fun e _ => Typed.rename Function.injective_id e) (List.Subset.refl _) halike
    (Supply.passes_id _ _)
  have hts : ts.map (Ty.rename id) = ts := by
    rw [funext hid]
    exact List.map_id ts
  rw [hts] at hτ
  exact ⟨τ, hτ⟩

/-! ## Programs -/

/-- A program keeps its type when its definitions are put in another order. -/
theorem TypedProgram.perm {p : Program} {defs : List FunctionDef} (hperm : p.defs.Perm defs)
    (hnames : (p.defs.map (·.name)).Nodup) (hplain : p.unnumbered = true) {t : Ty}
    (h : TypedProgram ⟨{}, {}⟩ p t) : TypedProgram ⟨{}, {}⟩ { p with defs } t := by
  obtain ⟨hdeclared, supply, ts, σ, hbodies, hexprs, rfl⟩ := h
  have hfuncs := Scope.SameFuncs.perm hperm hnames {}
  have hvars : (Scope.defineAll {} defs).vars = (Scope.defineAll {} p.defs).vars := by
    rw [Scope.vars_defineAll, Scope.vars_defineAll]
  have hplain' := Program.unnumbered_perm hperm hplain
  obtain ⟨haccepted, hsupply⟩ := (bodiesTyped_iff fun d hd => p.unnumbered_body hplain hd).mp hbodies
  refine ⟨fun d hd => hdeclared d (hperm.mem_iff.mpr hd), supply, ts, ?_⟩
  have hbodies' : BodiesTyped (Scope.defineAll {} defs) {} defs supply := by
    refine (bodiesTyped_iff fun d hd => Program.unnumbered_body hplain' hd).mpr ⟨fun d hd => ?_, ?_⟩
    · have hd' := hperm.mem_iff.mpr hd
      obtain ⟨s, s', hbody⟩ := haccepted d hd'
      exact ⟨{}, hbody.transfer (p.unnumbered_body hplain hd') (hfuncs.bodySight d) {}⟩
    · -- The bodies ask for the same variables in another order, so for as many of them.
      have hstems : bodyStems (Scope.defineAll {} defs) = bodyStems (Scope.defineAll {} p.defs) :=
        funext hfuncs.bodyStems
      have hlength := (hperm.flatMap_right (bodyStems (Scope.defineAll {} p.defs))).length_eq
      rw [hsupply, hstems, Supply.after, Supply.after, hlength]
  obtain ⟨τ, hexprs'⟩ := hexprs.sameFuncs hfuncs hvars
  exact ⟨τ, hbodies', hexprs', rfl⟩

/-- A new checker accepts a program at a type if and only if it accepts it at that type with its
definitions in another order. -/
theorem checkProgram_perm (file : String) {p : Program} {defs : List FunctionDef}
    (hperm : p.defs.Perm defs) (hnames : (p.defs.map (·.name)).Nodup)
    (hplain : p.unnumbered = true) (t : Ty) :
    (({ file } : Checker).checkProgram p).1 = .ok t ↔
      (({ file } : Checker).checkProgram { p with defs }).1 = .ok t := by
  rw [Checker.checkProgram_iff, Checker.checkProgram_iff]
  constructor
  · exact TypedProgram.perm hperm hnames hplain
  · intro h
    have hnames' : (defs.map (·.name)).Nodup := (hperm.map (·.name)).nodup_iff.mp hnames
    exact h.perm (p := { p with defs }) hperm.symm hnames' (Program.unnumbered_perm hperm hplain)

/-- A function that calls the other one on an empty list. -/
def serving : FunctionDef where
  name := "serve"
  params := [⟨"x", .var "A"⟩]
  result := .number
  body := .call "hitBack" [.list []]
  typeParams := ["A"]

/-- A function that calls the other one on a number. -/
def returning : FunctionDef where
  name := "hitBack"
  params := [⟨"xs", .list (.var "B")⟩]
  result := .number
  body := .call "serve" [.call "len" [.ref "xs"]]
  typeParams := ["B"]

/-- Two functions that call each other, and an expression whose type shows how many variables their
bodies took. -/
def volleying : Program where
  defs := [serving, returning]
  exprs := [.list []]

theorem volleying_perm :
    volleying.defs.Perm [returning, serving] ∧ (volleying.defs.map (·.name)).Nodup ∧
      volleying.unnumbered = true ∧
      (({} : Checker).checkProgram volleying).1 = .ok (.list (.var "T4")) ∧
      (({} : Checker).checkProgram { volleying with defs := [returning, serving] }).1 =
        .ok (.list (.var "T4")) := by
  have hperm : volleying.defs.Perm [returning, serving] := .swap returning serving []
  have hnames : (volleying.defs.map (·.name)).Nodup := by decide
  have hplain : volleying.unnumbered = true := by decide
  have haccepted : (({} : Checker).checkProgram volleying).1 = .ok (.list (.var "T4")) :=
    Checker.checkProgram_of_acceptsAt (by decide +kernel)
  exact ⟨hperm, hnames, hplain, haccepted,
    (checkProgram_perm "" hperm hnames hplain _).mp haccepted⟩

end TreeLang
