import TreeLang.Proofs.Ty.Renaming
import TreeLang.Proofs.Ty.Supply
import TreeLang.Proofs.Typing.Calls
import TreeLang.Proofs.Typing.Resolution

/-!
# Checks with different supplies

Which names the new type variables of a check get depends on what has been checked before. An
expression asks for as many of them and with the same stems (`Expr.stems`) in any two checks that
find the same things under the names in it, so that the new variables of the one check correspond
to those of the other. If both supplies keep their promise, that is, if the names they hand out are
different from each other and from all in sight (`NewFor`), then this is a renaming, and what holds
under the old names holds under the new ones. Main statements: `Typed.rename`, and from it
`exists_typed_iff`.
-/

namespace TreeLang

/-! ## What a check asks for -/

mutual

/-- The names that an expression refers to or calls. -/
def Expr.names : Expr → List String
  | .number _ | .text _ | .bool _ => []
  | .ref name => [name]
  | .assign _ value => value.names
  | .binary _ l r => l.names ++ r.names
  | .call name args => name :: Expr.namesAll args
  | .ite c t f => c.names ++ (t.names ++ f.names)
  | .loop c b => c.names ++ b.names
  | .seq bodies => Expr.namesAll bodies
  | .list elems => Expr.namesAll elems
  | .dict entries => Expr.namesEntries entries

/-- The names in expressions. -/
def Expr.namesAll : List Expr → List String
  | [] => []
  | e :: es => e.names ++ Expr.namesAll es

/-- The names in entries. -/
def Expr.namesEntries : List (Expr × Expr) → List String
  | [] => []
  | (k, v) :: es => k.names ++ (v.names ++ Expr.namesEntries es)

end

mutual

/-- The stems of the type variables that the check of an expression asks for, in order. A call asks
for one for each type parameter of its callee, an empty literal for those of its parts. -/
def Expr.stems (typeParams : String → List String) : Expr → List String
  | .number _ | .text _ | .bool _ | .ref _ => []
  | .assign _ value => value.stems typeParams
  | .binary _ l r => l.stems typeParams ++ r.stems typeParams
  | .call name args => typeParams name ++ Expr.stemsAll typeParams args
  | .ite c t f => c.stems typeParams ++ (t.stems typeParams ++ f.stems typeParams)
  | .loop c b => c.stems typeParams ++ b.stems typeParams
  | .seq bodies => Expr.stemsAll typeParams bodies
  | .list elems => if elems.isEmpty then ["T"] else Expr.stemsAll typeParams elems
  | .dict entries => if entries.isEmpty then ["K", "V"] else Expr.stemsEntries typeParams entries

/-- The stems that the checks of expressions ask for. -/
def Expr.stemsAll (typeParams : String → List String) : List Expr → List String
  | [] => []
  | e :: es => e.stems typeParams ++ Expr.stemsAll typeParams es

/-- The stems that the checks of entries ask for. -/
def Expr.stemsEntries (typeParams : String → List String) : List (Expr × Expr) → List String
  | [] => []
  | (k, v) :: es =>
    k.stems typeParams ++ (v.stems typeParams ++ Expr.stemsEntries typeParams es)

end

theorem Expr.namesAll_eq_flatMap (es : List Expr) : Expr.namesAll es = es.flatMap Expr.names := by
  induction es with
  | nil => rfl
  | cons e es ih => rw [Expr.namesAll, ih, List.flatMap_cons]

theorem Expr.namesEntries_eq_flatMap (es : List (Expr × Expr)) :
    Expr.namesEntries es = es.flatMap fun e => e.1.names ++ e.2.names := by
  induction es with
  | nil => rfl
  | cons e es ih => rw [Expr.namesEntries, ih, List.flatMap_cons, List.append_assoc]

theorem Expr.stemsAll_eq_flatMap (typeParams : String → List String) (es : List Expr) :
    Expr.stemsAll typeParams es = es.flatMap (Expr.stems typeParams) := by
  induction es with
  | nil => rfl
  | cons e es ih => rw [Expr.stemsAll, ih, List.flatMap_cons]

theorem Expr.stemsEntries_eq_flatMap (typeParams : String → List String)
    (es : List (Expr × Expr)) :
    Expr.stemsEntries typeParams es =
      es.flatMap fun e => e.1.stems typeParams ++ e.2.stems typeParams := by
  induction es with
  | nil => rfl
  | cons e es ih => rw [Expr.stemsEntries, ih, List.flatMap_cons, List.append_assoc]

/-- What holds of the stems of empty literals, and of the type parameters of all functions that are
called, holds of all stems. -/
theorem Expr.forall_stems {typeParams : String → List String} {P : String → Prop}
    (hliterals : ∀ x ∈ ["T", "K", "V"], P x) (e : Expr)
    (h : ∀ n ∈ e.names, ∀ x ∈ typeParams n, P x) : ∀ x ∈ e.stems typeParams, P x := by
  induction e with
  | number | text | bool | ref => exact List.forall_mem_nil _
  | assign name value ih => exact ih h
  | binary op l r ihl ihr | loop l r ihl ihr =>
    rw [Expr.names, List.forall_mem_append] at h
    rw [Expr.stems, List.forall_mem_append]
    exact ⟨ihl h.1, ihr h.2⟩
  | call name args ih =>
    rw [Expr.names, List.forall_mem_cons, Expr.namesAll_eq_flatMap, List.forall_mem_flatMap] at h
    rw [Expr.stems, List.forall_mem_append, Expr.stemsAll_eq_flatMap, List.forall_mem_flatMap]
    exact ⟨h.1, fun a ha => ih a ha (h.2 a ha)⟩
  | ite c t f ihc iht ihf =>
    rw [Expr.names, List.forall_mem_append, List.forall_mem_append] at h
    rw [Expr.stems, List.forall_mem_append, List.forall_mem_append]
    exact ⟨ihc h.1, iht h.2.1, ihf h.2.2⟩
  | seq bodies ih =>
    rw [Expr.names, Expr.namesAll_eq_flatMap, List.forall_mem_flatMap] at h
    rw [Expr.stems, Expr.stemsAll_eq_flatMap, List.forall_mem_flatMap]
    exact fun a ha => ih a ha (h a ha)
  | list elems ih =>
    rw [Expr.names, Expr.namesAll_eq_flatMap, List.forall_mem_flatMap] at h
    rw [Expr.stems]
    split
    · exact fun x hx => hliterals x (by simp_all)
    · rw [Expr.stemsAll_eq_flatMap, List.forall_mem_flatMap]
      exact fun a ha => ih a ha (h a ha)
  | dict entries ih =>
    rw [Expr.names, Expr.namesEntries_eq_flatMap, List.forall_mem_flatMap] at h
    rw [Expr.stems]
    split
    · exact fun x hx => hliterals x (List.mem_cons_of_mem _ hx)
    · rw [Expr.stemsEntries_eq_flatMap, List.forall_mem_flatMap]
      intro a ha
      have hnames := List.forall_mem_append.mp (h a ha)
      exact List.forall_mem_append.mpr ⟨(ih a ha).1 hnames.1, (ih a ha).2 hnames.2⟩

/-- The function type with its variables renamed. -/
def FnType.rename (ρ : String → String) (f : FnType) : FnType := f.bind fun x => .var (ρ x)

/-- The variables of a function: those in its type, and its type parameters. -/
def FnSymbol.variables (f : FnSymbol) : List String := f.type.toTy.occurrences ++ f.typeParams

/-- What a call depends on: the type of a function and its type parameters. -/
def FnSymbol.scheme (f : FnSymbol) : FnType × List String := (f.type, f.typeParams)

/-- The type parameters of the function with a name. -/
def ScopeChain.typeParams (c : ScopeChain) (name : String) : List String :=
  ((c.findFunction name).map (·.typeParams)).getD []

/-- The type variables in sight under a name. -/
def ScopeChain.variables (c : ScopeChain) (name : String) : List String :=
  ((c.findVariable name).map Ty.occurrences).getD [] ++
    ((c.findFunction name).map FnSymbol.variables).getD []

/-! ## Look-ups under new names -/

/-- Under each of the names, the second chain shows what the first one does, up to the renaming. The
types of functions have only variables that keep their names. -/
structure Alike (ρ : String → String) (typeParams : String → List String) (names : List String)
    (c c' : ScopeChain) : Prop where
  vars : ∀ n ∈ names, c'.findVariable n = (c.findVariable n).map (Ty.rename ρ)
  funcs : ∀ n ∈ names,
    (c'.findFunction n).map FnSymbol.scheme = (c.findFunction n).map FnSymbol.scheme
  fixed : ∀ n ∈ names, ∀ f, c.findFunction n = some f → ∀ x ∈ f.variables, ρ x = x
  typeParams : ∀ n ∈ names, typeParams n = c.typeParams n

section

variable {ρ : String → String} {typeParams : String → List String} {names : List String}
  {outer outer' : ScopeChain}

theorem ScopeChain.findVariable_define (s : Scope) (name other : String) (t : Ty) :
    findVariable other (s.define name t :: outer) =
      if name = other then some t else findVariable other (s :: outer) := by
  simp only [findVariable, Scope.define, Table.get?_insert]
  by_cases h : name = other
  · simp [h]
  · rw [if_neg h, if_neg h]
    cases s.vars.get? other <;> rfl

namespace FnType

theorem toTy_rename (f : FnType) : (f.rename ρ).toTy = f.toTy.rename ρ := by
  rw [toTy, toTy, Ty.rename_fn]
  rfl

theorem toTy_injective {f g : FnType} (h : f.toTy = g.toTy) : f = g := by
  rcases f with ⟨params, result, variadic⟩
  rcases g with ⟨params', result', variadic'⟩
  obtain ⟨rfl, rfl, rfl⟩ := Ty.fn.inj h
  rfl

theorem rename_eq_self {f : FnType} (h : ∀ x ∈ f.toTy.occurrences, ρ x = x) : f.rename ρ = f := by
  apply toTy_injective
  rw [toTy_rename, Ty.rename_eq_self h]

theorem toTy_apply (s : Subst) (f : FnType) : (f.apply s).toTy = f.toTy.apply s := rfl

theorem apply_rename (hρ : ρ.Injective) (s : Subst) (f : FnType) :
    (f.rename ρ).apply (s.rename ρ) = (f.apply s).rename ρ := by
  apply toTy_injective
  rw [toTy_apply, toTy_rename, toTy_rename, toTy_apply, Ty.apply_rename hρ]

theorem ofTy?_rename (t : Ty) : ofTy? (t.rename ρ) = (ofTy? t).map (rename ρ) := by
  cases t with
  | fn params result variadic =>
    rw [Ty.rename_fn]
    rfl
  | _ => rfl

end FnType

theorem Supply.freshen_rename (hρ : ρ.Injective) {params : List String} {s s' : Supply}
    (hparams : ∀ p ∈ params, ρ p = p) (hpass : Passes ρ params s s') (b : Subst) :
    freshen params (b.rename ρ) s' = ((freshen params b s).1.rename ρ, s'.after params) ∧
      (freshen params b s).2 = s.after params := by
  induction params generalizing b s s' with
  | nil => exact ⟨rfl, rfl⟩
  | cons p ps ih =>
    obtain ⟨hp, hps⟩ := passes_cons.mp hpass
    have hinsert : (b.rename ρ).insert p (.var (s'.fresh p).1) =
        Subst.rename ρ (b.insert p (.var (s.fresh p).1)) := by
      rw [Subst.rename_insert hρ, Ty.rename_var, hp, hparams p (by simp)]
    obtain ⟨hfst, hsnd⟩ := ih (fun q hq => hparams q (by simp [hq])) hps
      (b.insert p (.var (s.fresh p).1))
    have hafter : ∀ s : Supply, (s.fresh p).2.after ps = s.after (p :: ps) := by
      intro s
      rw [fresh_after, ← after_append, List.singleton_append]
    simp only [freshen, hinsert]
    rw [hfst, hsnd, hafter, hafter]
    exact ⟨rfl, rfl⟩

/-- The type of a callee for a call is the same in both checks, up to the renaming. -/
theorem Supply.instantiateFn_rename (hρ : ρ.Injective) {f : FnType} {params : List String}
    {s s' : Supply} (hparams : ∀ p ∈ params, ρ p = p) (hpass : Passes ρ params s s') :
    s'.instantiateFn (f.rename ρ) params =
        ((s.instantiateFn f params).1.rename ρ, s'.after params) ∧
      (s.instantiateFn f params).2 = s.after params := by
  cases params with
  | nil => exact ⟨rfl, rfl⟩
  | cons p ps =>
    obtain ⟨hfst, hsnd⟩ := freshen_rename hρ hparams hpass ∅
    rw [Subst.rename_empty] at hfst
    unfold instantiateFn
    rw [if_neg (by simp), if_neg (by simp)]
    dsimp only
    rw [hfst, hsnd, FnType.apply_rename hρ]
    exact ⟨rfl, rfl⟩

namespace Alike

theorem define {s s' : Scope} (h : Alike ρ typeParams names (s :: outer) (s' :: outer'))
    (name : String) (t : Ty) :
    Alike ρ typeParams names (s.define name t :: outer)
      (s'.define name (t.rename ρ) :: outer') := by
  obtain ⟨hvariable, hfunction, hfixed, hparams⟩ := h
  refine ⟨fun n hn => ?_, hfunction, hfixed, hparams⟩
  rw [ScopeChain.findVariable_define, ScopeChain.findVariable_define, hvariable n hn]
  split <;> rfl

theorem find? {c c' : ScopeChain} (h : Alike ρ typeParams names c c') {n : String}
    (hn : n ∈ names) {sym : Symbol} (hfind : c.find? n = some sym) :
    ∃ sym', c'.find? n = some sym' ∧ sym'.type = sym.type.rename ρ := by
  have hvariable := h.vars n hn
  have hfunction := h.funcs n hn
  unfold ScopeChain.find? at hfind ⊢
  cases hvar : c.findVariable n with
  | some t =>
    rw [hvar] at hfind hvariable
    cases hfind
    rw [hvariable]
    exact ⟨_, rfl, rfl⟩
  | none =>
    rw [hvar] at hfind hvariable
    rw [hvariable]
    obtain ⟨f, hf, rfl⟩ := Option.map_eq_some_iff.mp hfind
    rw [hf] at hfunction
    obtain ⟨f', hf', hscheme⟩ := Option.map_eq_some_iff.mp hfunction
    refine ⟨.function f', by rw [hf']; rfl, ?_⟩
    have htype : f'.type = f.type := congrArg Prod.fst hscheme
    have hself : f.type.toTy.rename ρ = f.type.toTy :=
      Ty.rename_eq_self fun x hx => h.fixed n hn f hf x (List.mem_append_left _ hx)
    rw [Symbol.type, Symbol.type, hself, htype]

/-- A callee is found with its type and type parameters, which keep their names; one that is a
variable has no type parameters. -/
theorem callee? {c c' : ScopeChain} (h : Alike ρ typeParams names c c') {n : String}
    (hn : n ∈ names) {g : FnType} {params : List String}
    (hcallee : c.callee? n = some (g, params)) :
    c'.callee? n = some (g.rename ρ, params) ∧ params = typeParams n ∧ ∀ p ∈ params, ρ p = p := by
  have hvariable := h.vars n hn
  have hfunction := h.funcs n hn
  have hparams := h.typeParams n hn
  unfold ScopeChain.callee? at hcallee ⊢
  unfold ScopeChain.typeParams at hparams
  cases hf : c.findFunction n with
  | some f =>
    rw [hf] at hcallee hfunction hparams
    cases hcallee
    obtain ⟨f', hf', hscheme⟩ := Option.map_eq_some_iff.mp hfunction
    have hfixed := h.fixed n hn f hf
    have hself : f.type.rename ρ = f.type :=
      FnType.rename_eq_self fun x hx => hfixed x (List.mem_append_left _ hx)
    refine ⟨?_, hparams.symm, fun p hp => hfixed p (List.mem_append_right _ hp)⟩
    rw [hf', hself]
    exact congrArg some hscheme
  | none =>
    rw [hf] at hcallee hfunction hparams
    obtain ⟨t, ht, hg⟩ := Option.bind_eq_some_iff.mp hcallee
    obtain ⟨g', hg', heq⟩ := Option.map_eq_some_iff.mp hg
    cases heq
    rw [Option.map_eq_none_iff.mp hfunction, hvariable, ht]
    refine ⟨?_, hparams.symm, by simp⟩
    simp only [Option.map_some, Option.bind_some, FnType.ofTy?_rename, hg']

end Alike

/-! ## Derivations under new names -/

theorem Operator.Types.rename {op : Operator} {l r t : Ty} (h : op.Types l r t) :
    op.Types (l.rename ρ) (r.rename ρ) (t.rename ρ) := by
  cases h with
  | numeric hop => exact .numeric hop
  | text => exact .text
  | list hsame => exact .list (Ty.same_rename hsame)
  | comparison hop => exact .comparison hop

theorem ArgsMatch.rename (hρ : ρ.Injective) {f : FnType} {i : Nat} {as : List Ty} {s b : Subst}
    (h : ArgsMatch f i as s b) :
    ArgsMatch (f.rename ρ) i (as.map (Ty.rename ρ)) (s.rename ρ) (b.rename ρ) := by
  have hparam : ∀ i, (f.rename ρ).paramAt? i = (f.paramAt? i).map (Ty.rename ρ) :=
    fun i => FnType.paramAt?_bind f _ i
  induction h with
  | nil => exact .nil
  | extra hp _ ih =>
    refine .extra ?_ ih
    rw [hparam, hp]
    rfl
  | @arg i p a _ s _ _ hp hmatch _ ih =>
    have hmatch' := Ty.matchTypes?_rename hρ p a s
    rw [hmatch] at hmatch'
    refine .arg ?_ hmatch' ih
    rw [hparam, hp]
    rfl

/-- Two checks have got on from `σ` and `τ` to `σ'` and `τ'`, and have asked for the stems. -/
structure Advance (ρ : String → String) (typeParams : String → List String) (names : List String)
    (outer outer' : ScopeChain) (stems : List String) (σ σ' τ τ' : Setting) : Prop where
  alike : Alike ρ typeParams names (σ'.scope :: outer) (τ'.scope :: outer')
  left : σ'.supply = σ.supply.after stems
  right : τ'.supply = τ.supply.after stems

theorem Advance.refl {σ τ : Setting}
    (h : Alike ρ typeParams names (σ.scope :: outer) (τ.scope :: outer')) :
    Advance ρ typeParams names outer outer' [] σ σ τ τ := ⟨h, rfl, rfl⟩

theorem Advance.trans {stems stems' : List String} {σ σ₁ σ₂ τ τ₁ τ₂ : Setting}
    (h : Advance ρ typeParams names outer outer' stems σ σ₁ τ τ₁)
    (h' : Advance ρ typeParams names outer outer' stems' σ₁ σ₂ τ₁ τ₂) :
    Advance ρ typeParams names outer outer' (stems ++ stems') σ σ₂ τ τ₂ := by
  obtain ⟨-, hleft, hright⟩ := h
  obtain ⟨halike, hleft', hright'⟩ := h'
  refine ⟨halike, ?_, ?_⟩
  · rw [hleft', hleft, Supply.after_append]
  · rw [hright', hright, Supply.after_append]

/-- Two checks that have got on as far as this still correspond in what they are handed out. -/
theorem Advance.passes {stems stems' : List String} {σ σ₁ τ τ₁ : Setting}
    (h : Advance ρ typeParams names outer outer' stems σ σ₁ τ τ₁)
    (hpass : Supply.Passes ρ (stems ++ stems') σ.supply τ.supply) :
    Supply.Passes ρ stems' σ₁.supply τ₁.supply := by
  rw [h.left, h.right]
  exact (Supply.passes_append.mp hpass).2

/-- A derivation for the expression is one under new names, wherever the two settings are alike and
their supplies correspond. -/
def Expr.Renames (ρ : String → String) (typeParams : String → List String) (names : List String)
    (outer outer' : ScopeChain) (e : Expr) : Prop :=
  ∀ {σ σ' τ : Setting} {t : Ty}, Typed outer σ e t σ' → e.names ⊆ names →
    Alike ρ typeParams names (σ.scope :: outer) (τ.scope :: outer') →
    Supply.Passes ρ (e.stems typeParams) σ.supply τ.supply →
    ∃ τ', Typed outer' τ e (t.rename ρ) τ' ∧
      Advance ρ typeParams names outer outer' (e.stems typeParams) σ σ' τ τ'

theorem TypedAll.rename {es : List Expr}
    (hes : ∀ e ∈ es, e.Renames ρ typeParams names outer outer') {σ σ' τ : Setting} {ts : List Ty}
    (h : TypedAll outer σ es ts σ') (hnames : Expr.namesAll es ⊆ names)
    (halike : Alike ρ typeParams names (σ.scope :: outer) (τ.scope :: outer'))
    (hpass : Supply.Passes ρ (Expr.stemsAll typeParams es) σ.supply τ.supply) :
    ∃ τ', TypedAll outer' τ es (ts.map (Ty.rename ρ)) τ' ∧
      Advance ρ typeParams names outer outer' (Expr.stemsAll typeParams es) σ σ' τ τ' := by
  induction es generalizing σ τ ts with
  | nil =>
    cases h
    exact ⟨τ, .nil, .refl halike⟩
  | cons e es ih =>
    cases h with
    | cons he hrest =>
      rw [Expr.namesAll, List.append_subset] at hnames
      obtain ⟨τ₁, he', hadv⟩ :=
        hes e (by simp) he hnames.1 halike (Supply.passes_append.mp hpass).1
      obtain ⟨τ₂, hrest', hadv'⟩ := ih (fun x hx => hes x (by simp [hx])) hrest hnames.2
        hadv.alike (hadv.passes hpass)
      exact ⟨τ₂, .cons he' hrest', hadv.trans hadv'⟩

theorem TypedElems.rename {es : List Expr}
    (hes : ∀ e ∈ es, e.Renames ρ typeParams names outer outer') {first : Ty} {σ σ' τ : Setting}
    (h : TypedElems outer first σ es σ') (hnames : Expr.namesAll es ⊆ names)
    (halike : Alike ρ typeParams names (σ.scope :: outer) (τ.scope :: outer'))
    (hpass : Supply.Passes ρ (Expr.stemsAll typeParams es) σ.supply τ.supply) :
    ∃ τ', TypedElems outer' (first.rename ρ) τ es τ' ∧
      Advance ρ typeParams names outer outer' (Expr.stemsAll typeParams es) σ σ' τ τ' := by
  induction es generalizing σ τ with
  | nil =>
    cases h
    exact ⟨τ, .nil, .refl halike⟩
  | cons e es ih =>
    cases h with
    | cons he hsame hrest =>
      rw [Expr.namesAll, List.append_subset] at hnames
      obtain ⟨τ₁, he', hadv⟩ :=
        hes e (by simp) he hnames.1 halike (Supply.passes_append.mp hpass).1
      obtain ⟨τ₂, hrest', hadv'⟩ := ih (fun x hx => hes x (by simp [hx])) hrest hnames.2
        hadv.alike (hadv.passes hpass)
      exact ⟨τ₂, .cons he' (Ty.same_rename hsame) hrest', hadv.trans hadv'⟩

theorem TypedEntries.rename {es : List (Expr × Expr)}
    (hes : ∀ e ∈ es, e.1.Renames ρ typeParams names outer outer' ∧
      e.2.Renames ρ typeParams names outer outer') {kt vt : Ty} {σ σ' τ : Setting}
    (h : TypedEntries outer kt vt σ es σ') (hnames : Expr.namesEntries es ⊆ names)
    (halike : Alike ρ typeParams names (σ.scope :: outer) (τ.scope :: outer'))
    (hpass : Supply.Passes ρ (Expr.stemsEntries typeParams es) σ.supply τ.supply) :
    ∃ τ', TypedEntries outer' (kt.rename ρ) (vt.rename ρ) τ es τ' ∧
      Advance ρ typeParams names outer outer' (Expr.stemsEntries typeParams es) σ σ' τ τ' := by
  induction es generalizing σ τ with
  | nil =>
    cases h
    exact ⟨τ, .nil, .refl halike⟩
  | cons e es ih =>
    cases h with
    | cons hk hv hsamek hsamev hrest =>
      rw [Expr.namesEntries, List.append_subset, List.append_subset] at hnames
      obtain ⟨hnamesk, hnamesv, hnamesr⟩ := hnames
      have hhead := hes _ (List.mem_cons_self ..)
      obtain ⟨τ₁, hk', hadv₁⟩ :=
        hhead.1 hk hnamesk halike (Supply.passes_append.mp hpass).1
      have hpass₁ := hadv₁.passes hpass
      obtain ⟨τ₂, hv', hadv₂⟩ :=
        hhead.2 hv hnamesv hadv₁.alike (Supply.passes_append.mp hpass₁).1
      obtain ⟨τ₃, hrest', hadv₃⟩ := ih (fun x hx => hes x (by simp [hx])) hrest hnamesr
        hadv₂.alike (hadv₂.passes hpass₁)
      exact ⟨τ₃, .cons hk' hv' (Ty.same_rename hsamek) (Ty.same_rename hsamev) hrest',
        hadv₁.trans (hadv₂.trans hadv₃)⟩

theorem Signed.rename (hρ : ρ.Injective) {σ σ' τ : Setting} {name : String} {n : Nat} {f : FnType}
    (h : Signed outer σ name n f σ') (hname : name ∈ names)
    (halike : Alike ρ typeParams names (σ.scope :: outer) (τ.scope :: outer'))
    (hpass : Supply.Passes ρ (typeParams name) σ.supply τ.supply) :
    ∃ τ', Signed outer' τ name n (f.rename ρ) τ' ∧
      Advance ρ typeParams names outer outer' (typeParams name) σ σ' τ τ' := by
  obtain ⟨g, params, hcallee, hinst, hscope, hacc⟩ := h
  obtain ⟨hcallee', rfl, hfixed⟩ := halike.callee? hname hcallee
  obtain ⟨hinst', hafter⟩ := Supply.instantiateFn_rename (f := g) hρ hfixed hpass
  rw [hinst] at hinst' hafter
  refine ⟨⟨τ.scope, τ.supply.after (typeParams name)⟩,
    ⟨g.rename ρ, typeParams name, hcallee', hinst', rfl, ?_⟩, ?_, hafter, rfl⟩
  · rw [FnType.rename, FnType.accepts_bind]
    exact hacc
  · rw [hscope]
    exact halike

theorem rename_last (ts : List Ty) :
    (ts.getLast?.getD .void).rename ρ = (ts.map (Ty.rename ρ)).getLast?.getD .void := by
  rw [List.getLast?_map]
  cases ts.getLast? <;> rfl

/-- What is typed in one check is typed in the other under the new names. -/
theorem Typed.rename (hρ : ρ.Injective) (e : Expr) :
    e.Renames ρ typeParams names outer outer' := by
  induction e with
  | number x =>
    intro σ σ' τ t h _ halike _
    cases h
    exact ⟨τ, .number, .refl halike⟩
  | text x =>
    intro σ σ' τ t h _ halike _
    cases h
    exact ⟨τ, .text, .refl halike⟩
  | bool b =>
    intro σ σ' τ t h _ halike _
    cases h
    exact ⟨τ, .bool, .refl halike⟩
  | ref name =>
    intro σ σ' τ t h hnames halike _
    cases h with
    | ref hfind =>
      obtain ⟨sym', hfind', htype⟩ := halike.find? (hnames (by simp [Expr.names])) hfind
      rw [← htype]
      exact ⟨τ, .ref hfind', .refl halike⟩
  | assign name value ih =>
    intro σ σ' τ t h hnames halike hpass
    cases h with
    | @assign _ σ₁ _ _ _ hv =>
      obtain ⟨τ₁, hv', halike₁, hleft, hright⟩ := ih hv hnames halike hpass
      exact ⟨τ₁.define name (t.rename ρ), .assign hv', halike₁.define name t, hleft, hright⟩
  | binary op l r ihl ihr =>
    intro σ σ' τ t h hnames halike hpass
    cases h with
    | binary hl hr hop =>
      rw [Expr.names, List.append_subset] at hnames
      obtain ⟨τ₁, hl', hadv₁⟩ := ihl hl hnames.1 halike (Supply.passes_append.mp hpass).1
      obtain ⟨τ₂, hr', hadv₂⟩ := ihr hr hnames.2 hadv₁.alike (hadv₁.passes hpass)
      exact ⟨τ₂, .binary hl' hr' hop.rename, hadv₁.trans hadv₂⟩
  | call name args ih =>
    intro σ σ' τ t h hnames halike hpass
    cases h with
    | call hf hts hmatch =>
      rw [Expr.names, List.cons_subset] at hnames
      obtain ⟨τ₁, hf', hadv₁⟩ := hf.rename hρ hnames.1 halike (Supply.passes_append.mp hpass).1
      obtain ⟨τ₂, hts', hadv₂⟩ := hts.rename ih hnames.2 hadv₁.alike (hadv₁.passes hpass)
      have hmatch' := hmatch.rename hρ
      rw [Subst.rename_empty] at hmatch'
      refine ⟨τ₂, ?_, hadv₁.trans hadv₂⟩
      rw [← Ty.apply_rename hρ]
      exact .call hf' hts' hmatch'
  | ite c t f ihc iht ihf =>
    intro σ σ' τ u h hnames halike hpass
    cases h with
    | ite hc ht hf hsame =>
      rw [Expr.names, List.append_subset, List.append_subset] at hnames
      obtain ⟨hnamesc, hnamest, hnamesf⟩ := hnames
      obtain ⟨τ₁, hc', hadv₁⟩ := ihc hc hnamesc halike (Supply.passes_append.mp hpass).1
      have hpass₁ := hadv₁.passes hpass
      obtain ⟨τ₂, ht', hadv₂⟩ := iht ht hnamest hadv₁.alike (Supply.passes_append.mp hpass₁).1
      obtain ⟨τ₃, hf', hadv₃⟩ := ihf hf hnamesf hadv₂.alike (hadv₂.passes hpass₁)
      exact ⟨τ₃, .ite hc' ht' hf' (Ty.same_rename hsame), hadv₁.trans (hadv₂.trans hadv₃)⟩
  | loop c b ihc ihb =>
    intro σ σ' τ u h hnames halike hpass
    cases h with
    | loop hc hb =>
      rw [Expr.names, List.append_subset] at hnames
      obtain ⟨τ₁, hc', hadv₁⟩ := ihc hc hnames.1 halike (Supply.passes_append.mp hpass).1
      obtain ⟨τ₂, hb', hadv₂⟩ := ihb hb hnames.2 hadv₁.alike (hadv₁.passes hpass)
      exact ⟨τ₂, .loop hc' hb', hadv₁.trans hadv₂⟩
  | seq bodies ih =>
    intro σ σ' τ u h hnames halike hpass
    cases h with
    | seq hts =>
      obtain ⟨τ₁, hts', hadv⟩ := hts.rename ih hnames halike hpass
      refine ⟨τ₁, ?_, hadv⟩
      rw [rename_last]
      exact .seq hts'
  | list elems ih =>
    intro σ σ' τ u h hnames halike hpass
    cases h with
    | emptyList =>
      have hfresh : ρ (σ.supply.fresh "T").1 = (τ.supply.fresh "T").1 :=
        (Supply.passes_cons.mp hpass).1
      refine ⟨(τ.fresh "T").2, ?_, halike, rfl, rfl⟩
      simp only [Setting.fresh, Ty.rename_list, Ty.rename_var, hfresh]
      exact .emptyList
    | @list _ σ₁ _ e es t he hes =>
      rw [Expr.names, Expr.namesAll, List.append_subset] at hnames
      obtain ⟨τ₁, he', hadv₁⟩ :=
        ih e (by simp) he hnames.1 halike (Supply.passes_append.mp hpass).1
      obtain ⟨τ₂, hes', hadv₂⟩ := hes.rename (fun x hx => ih x (by simp [hx])) hnames.2
        hadv₁.alike (hadv₁.passes hpass)
      exact ⟨τ₂, .list he' hes', hadv₁.trans hadv₂⟩
  | dict entries ih =>
    intro σ σ' τ u h hnames halike hpass
    cases h with
    | emptyDict =>
      obtain ⟨hkey, hrest⟩ := Supply.passes_cons.mp hpass
      have hvalue := (Supply.passes_cons.mp hrest).1
      refine ⟨((τ.fresh "K").2.fresh "V").2, ?_, halike, rfl, rfl⟩
      simp only [Setting.fresh, Ty.rename_dict, Ty.rename_var, hkey, hvalue]
      exact .emptyDict
    | @dict _ _ _ _ k v es kt vt hk hv hes =>
      rw [Expr.names, Expr.namesEntries, List.append_subset, List.append_subset] at hnames
      obtain ⟨hnamesk, hnamesv, hnamesr⟩ := hnames
      have hhead := ih _ (List.mem_cons_self ..)
      obtain ⟨τ₁, hk', hadv₁⟩ := hhead.1 hk hnamesk halike (Supply.passes_append.mp hpass).1
      have hpass₁ := hadv₁.passes hpass
      obtain ⟨τ₂, hv', hadv₂⟩ :=
        hhead.2 hv hnamesv hadv₁.alike (Supply.passes_append.mp hpass₁).1
      obtain ⟨τ₃, hes', hadv₃⟩ := hes.rename (fun x hx => ih x (by simp [hx])) hnamesr
        hadv₂.alike (hadv₂.passes hpass₁)
      exact ⟨τ₃, .dict hk' hv' hes', hadv₁.trans (hadv₂.trans hadv₃)⟩

end

/-! ## New variables -/

/-- The variables that a supply hands out for an expression are new: no two of them are the same,
and none is in sight under a name in the expression. -/
structure NewFor (c : ScopeChain) (supply : Supply) (e : Expr) : Prop where
  distinct : (supply.handOut (e.stems c.typeParams)).Nodup
  unseen : ∀ n ∈ e.names, ∀ x ∈ c.variables n, x ∉ supply.handOut (e.stems c.typeParams)

instance (c : ScopeChain) (supply : Supply) (e : Expr) : Decidable (NewFor c supply e) :=
  decidable_of_iff
    ((supply.handOut (e.stems c.typeParams)).Nodup ∧
      ∀ n ∈ e.names, ∀ x ∈ c.variables n, x ∉ supply.handOut (e.stems c.typeParams))
    ⟨fun h => ⟨h.1, h.2⟩, fun h => ⟨h.distinct, h.unseen⟩⟩

/-- Where no variable in sight ends in a digit, every supply hands out new ones. -/
theorem newFor_of_unnumbered {c : ScopeChain} {e : Expr}
    (h : ∀ n ∈ e.names, ∀ x ∈ c.variables n, Supply.unnumbered x = true) (supply : Supply) :
    NewFor c supply e := by
  have hstems : ∀ x ∈ e.stems c.typeParams, Supply.unnumbered x = true := by
    refine e.forall_stems (by decide) fun n hn x hx => h n hn x (List.mem_append_right _ ?_)
    unfold ScopeChain.typeParams at hx
    cases hf : c.findFunction n with
    | none =>
      rw [hf] at hx
      cases hx
    | some f =>
      rw [hf] at hx
      exact List.mem_append_right _ hx
  exact ⟨Supply.handOut_nodup hstems supply,
    fun n hn x hx => Supply.not_mem_handOut (h n hn x hx) supply _⟩

/-- The names in an expression show the same in both chains. -/
def SameFor (e : Expr) (c c' : ScopeChain) : Prop :=
  ∀ n ∈ e.names, c'.findVariable n = c.findVariable n ∧
    (c'.findFunction n).map FnSymbol.scheme = (c.findFunction n).map FnSymbol.scheme

namespace SameFor

variable {e : Expr} {c c' : ScopeChain}

theorem refl (e : Expr) (c : ScopeChain) : SameFor e c c := fun _ _ => ⟨rfl, rfl⟩

theorem symm (h : SameFor e c c') : SameFor e c' c := fun n hn => ⟨(h n hn).1.symm, (h n hn).2.symm⟩

theorem typeParams_eq (h : SameFor e c c') {n : String} (hn : n ∈ e.names) :
    c'.typeParams n = c.typeParams n := by
  have hscheme := congrArg (Option.map Prod.snd) (h n hn).2
  simp only [Option.map_map] at hscheme
  unfold ScopeChain.typeParams
  exact congrArg (Option.getD · []) hscheme

theorem variables_eq (h : SameFor e c c') {n : String} (hn : n ∈ e.names) :
    c'.variables n = c.variables n := by
  have hscheme := congrArg (Option.map fun g : FnType × List String => g.1.toTy.occurrences ++ g.2)
    (h n hn).2
  simp only [Option.map_map] at hscheme
  unfold ScopeChain.variables
  rw [(h n hn).1]
  exact congrArg (_ ++ Option.getD · []) hscheme

/-- Chains that show the same are alike under a renaming that keeps the variables in sight. -/
theorem alike (h : SameFor e c c') {ρ : String → String} {typeParams : String → List String}
    (hρ : ∀ n ∈ e.names, ∀ x ∈ c.variables n, ρ x = x)
    (hparams : ∀ n ∈ e.names, typeParams n = c.typeParams n) :
    Alike ρ typeParams e.names c c' := by
  refine ⟨fun n hn => ?_, fun n hn => (h n hn).2, fun n hn f hf x hx => ?_, hparams⟩
  · rw [(h n hn).1]
    have hfixed := hρ n hn
    unfold ScopeChain.variables at hfixed
    cases ht : c.findVariable n with
    | none => rfl
    | some t =>
      rw [ht] at hfixed
      rw [Option.map_some, Ty.rename_eq_self fun x hx => hfixed x (List.mem_append_left _ hx)]
  · refine hρ n hn x (List.mem_append_right _ ?_)
    rw [hf]
    exact hx

end SameFor

/-- Two checks that find the same under the names in an expression give it the same types, up to a
renaming of the variables that the supplies hand out for it, provided that these are new. -/
theorem exists_typed_iff {outer outer' : ScopeChain} {σ τ : Setting} {e : Expr}
    (hsame : SameFor e (σ.scope :: outer) (τ.scope :: outer'))
    (hσ : NewFor (σ.scope :: outer) σ.supply e) (hτ : NewFor (σ.scope :: outer) τ.supply e) :
    ∃ ρ : Equiv.Perm String,
      (∀ x, x ∉ σ.supply.handOut (e.stems (ScopeChain.typeParams (σ.scope :: outer))) →
        x ∉ τ.supply.handOut (e.stems (ScopeChain.typeParams (σ.scope :: outer))) → ρ x = x) ∧
      ∀ t, (∃ σ', Typed outer σ e t σ') ↔ ∃ τ', Typed outer' τ e (t.rename ρ) τ' := by
  obtain ⟨ρ, hmap, hrest⟩ := exists_renaming hσ.distinct hτ.distinct
    (by rw [Supply.length_handOut, Supply.length_handOut])
  have hsight : ∀ n ∈ e.names, ∀ x ∈ ScopeChain.variables (σ.scope :: outer) n, ρ x = x :=
    fun n hn x hx => hrest x (hσ.unseen n hn x hx) (hτ.unseen n hn x hx)
  refine ⟨ρ, hrest, fun t => ⟨?_, ?_⟩⟩
  · rintro ⟨σ', ht⟩
    obtain ⟨τ', ht', -⟩ := Typed.rename ρ.injective e ht (List.Subset.refl _)
      (hsame.alike hsight fun _ _ => rfl) hmap
    exact ⟨τ', ht'⟩
  · rintro ⟨τ', ht⟩
    -- The way back is the same way under the inverse renaming.
    have hsight' : ∀ n ∈ e.names, ∀ x ∈ ScopeChain.variables (τ.scope :: outer') n,
        ρ.symm x = x := by
      intro n hn x hx
      rw [hsame.variables_eq hn] at hx
      rw [Equiv.symm_apply_eq, hsight n hn x hx]
    have hmap' : Supply.Passes ρ.symm (e.stems (ScopeChain.typeParams (σ.scope :: outer)))
        τ.supply σ.supply := by
      unfold Supply.Passes
      rw [← hmap, List.map_map, Equiv.symm_comp_self, List.map_id]
    obtain ⟨σ', ht', -⟩ := Typed.rename ρ.symm.injective e ht (List.Subset.refl _)
      (hsame.symm.alike hsight' fun _ hn => (hsame.typeParams_eq hn).symm) hmap'
    rw [Ty.rename_rename, Equiv.symm_comp_self] at ht'
    have hback : t.rename id = t := Ty.rename_eq_self fun _ _ => rfl
    rw [hback] at ht'
    exact ⟨σ', ht'⟩

end TreeLang
