import Mathlib.Data.Fintype.EquivFin
import TreeLang.Proofs.Ty.Constants
import TreeLang.Proofs.Ty.Matching
import TreeLang.Proofs.Typing.Programs
import TreeLang.Proofs.Typing.Resolution
import TreeLang.Proofs.Names.Flow

/-!
# Instances of generic functions

A body is checked with its type parameters as plain variables, which a call in it may bind, so that
an accepted function need not be accepted at every instance. One instance tells: the one in which
new constants stand for the type parameters. Replacing constants by types turns its derivation into
that of any other instance. Main statements: `Typed.replace` and `Rigid.bodyTyped`.
-/

namespace TreeLang

/-! ## Replacing constants in a setting -/

/-- The function type with its constants replaced. -/
def FnType.replace (κ : String → Ty) (f : FnType) : FnType :=
  ⟨f.params.map (Ty.replace κ), f.result.replace κ, f.variadic⟩

/-- The scope with the constants in the types of its variables replaced. -/
def Scope.replace (κ : String → Ty) (s : Scope) : Scope :=
  { s with vars := s.vars.map (Ty.replace κ) }

/-- The setting with the constants in the types of its variables replaced. -/
def Setting.replace (κ : String → Ty) (σ : Setting) : Setting := ⟨σ.scope.replace κ, σ.supply⟩

/-- The constants that the checker itself gives. -/
def Ty.basic : List String := ["Number", "String", "Boolean", "Void"]

/-- A function body in which the replacement leaves the types of functions alone. -/
structure Fixes (κ : String → Ty) (outer : ScopeChain) (s : Scope) : Prop where
  kind : s.kind = .function
  function : ∀ name f, ScopeChain.findFunction name (s :: outer) = some f →
    f.type.replace κ = f.type

section Replace

variable {κ : String → Ty} {outer : ScopeChain}

theorem FnType.accepts_replace (f : FnType) (n : Int) : (f.replace κ).accepts n = f.accepts n := by
  simp [accepts, replace]

theorem FnType.paramAt?_replace (f : FnType) (i : Nat) :
    (f.replace κ).paramAt? i = (f.paramAt? i).map (Ty.replace κ) := by
  simp only [paramAt?, replace, List.length_map]
  split
  · rw [List.getLast?_map]
  · rw [List.getElem?_map]

theorem FnType.toTy_replace (f : FnType) : (f.replace κ).toTy = f.toTy.replace κ := by
  simp only [toTy, replace, Ty.replace, Ty.replaceAll_eq_map]

theorem FnType.apply_replace (hκ : ∀ c, (κ c).Concrete) (s : Subst) (f : FnType) :
    (f.apply s).replace κ = (f.replace κ).apply (s.map (Ty.replace κ)) := by
  have hparams : (f.apply s).params = f.params.map (Ty.apply s) := Ty.bindAll_eq_map ..
  have hparams' : ((f.replace κ).apply (s.map (Ty.replace κ))).params =
      (f.replace κ).params.map (Ty.apply (s.map (Ty.replace κ))) := Ty.bindAll_eq_map ..
  have hmap : (f.params.map (Ty.apply s)).map (Ty.replace κ) =
      (f.params.map (Ty.replace κ)).map (Ty.apply (s.map (Ty.replace κ))) := by
    rw [List.map_map, List.map_map]
    exact List.map_congr_left fun p _ => Ty.apply_replace hκ s p
  rw [replace, hparams, hmap]
  change _ = FnType.mk _ _ _
  rw [FnType.mk.injEq]
  exact ⟨hparams'.symm, Ty.apply_replace hκ s f.result, rfl⟩

/-- New variables stay as they are. -/
theorem Supply.freshen_replace (params : List String) (b : Subst) (s : Supply) :
    Supply.freshen params (b.map (Ty.replace κ)) s =
      ((Supply.freshen params b s).1.map (Ty.replace κ), (Supply.freshen params b s).2) := by
  induction params generalizing b s with
  | nil => rfl
  | cons p ps ih =>
    simp only [freshen]
    rw [← ih, Table.map_insert]
    rfl

theorem Supply.instantiateFn_replace (hκ : ∀ c, (κ c).Concrete) (f : FnType)
    (params : List String) (s : Supply) :
    s.instantiateFn (f.replace κ) params =
      ((s.instantiateFn f params).1.replace κ, (s.instantiateFn f params).2) := by
  unfold instantiateFn
  split
  · rfl
  · have hfresh := freshen_replace (κ := κ) params ∅ s
    have hempty : Table.map (Ty.replace κ) ∅ = ∅ := rfl
    rw [hempty] at hfresh
    have hvars := congrArg Prod.fst hfresh
    dsimp only at hvars ⊢
    rw [FnType.apply_replace hκ, ← hvars]

namespace Fixes

variable {s : Scope}

theorem of_grown (h : Fixes κ outer s) {s' : Scope} {names : List String}
    (hgrown : Grown names s s') : Fixes κ outer s' := by
  refine ⟨hgrown.kind.trans h.kind, fun name f hf => h.function name f ?_⟩
  rw [ScopeChain.findFunction, hgrown.funcs] at hf
  exact hf

theorem typed {σ σ' : Setting} (h : Fixes κ outer σ.scope) {e : Expr} {t : Ty}
    (he : Typed outer σ e t σ') : Fixes κ outer σ'.scope :=
  h.of_grown (Typed.grown e he)

theorem findVariable_replace (h : Fixes κ outer s) (name : String) :
    ScopeChain.findVariable name (s.replace κ :: outer) =
      (ScopeChain.findVariable name (s :: outer)).map (Ty.replace κ) := by
  have hkind : (s.replace κ).kind = .function := h.kind
  simp only [ScopeChain.findVariable, hkind, h.kind, if_true]
  rw [Scope.replace, Table.get?_map]
  cases s.vars.get? name <;> rfl

theorem findFunction_replace (name : String) :
    ScopeChain.findFunction name (s.replace κ :: outer) =
      ScopeChain.findFunction name (s :: outer) := rfl

theorem find?_replace (h : Fixes κ outer s) {name : String} {sym : Symbol}
    (hfind : ScopeChain.find? (s :: outer) name = some sym) :
    ∃ sym', ScopeChain.find? (s.replace κ :: outer) name = some sym' ∧
      sym'.type = sym.type.replace κ := by
  rw [ScopeChain.find?, h.findVariable_replace, findFunction_replace]
  rw [ScopeChain.find?] at hfind
  cases hvar : ScopeChain.findVariable name (s :: outer) with
  | some t =>
    rw [hvar] at hfind
    cases hfind
    exact ⟨_, rfl, rfl⟩
  | none =>
    rw [hvar] at hfind
    rcases Option.map_eq_some_iff.mp hfind with ⟨f, hf, rfl⟩
    refine ⟨.function f, by rw [hf]; rfl, ?_⟩
    rw [Symbol.type, ← FnType.toTy_replace, h.function name f hf]

/-- A function keeps its type, and a variable of a function type stays one. -/
theorem callee?_replace (h : Fixes κ outer s) {name : String} {g : FnType} {params : List String}
    (hcallee : ScopeChain.callee? (s :: outer) name = some (g, params)) :
    ScopeChain.callee? (s.replace κ :: outer) name = some (g.replace κ, params) := by
  rw [ScopeChain.callee?, findFunction_replace, h.findVariable_replace]
  rw [ScopeChain.callee?] at hcallee
  cases hf : ScopeChain.findFunction name (s :: outer) with
  | some f =>
    rw [hf] at hcallee
    cases hcallee
    dsimp only
    rw [h.function name f hf]
  | none =>
    rw [hf] at hcallee
    rcases Option.bind_eq_some_iff.mp hcallee with ⟨t, ht, hg⟩
    rcases Option.map_eq_some_iff.mp hg with ⟨g', hg', heq⟩
    cases heq
    rw [ht]
    cases t <;> cases hg'
    simp [FnType.ofTy?, Ty.replace, Ty.replaceAll_eq_map, FnType.replace]

theorem signed (hκ : ∀ c, (κ c).Concrete) {σ σ' : Setting} (h : Fixes κ outer σ.scope)
    {name : String} {n : Nat} {f : FnType} (hf : Signed outer σ name n f σ') :
    Signed outer (σ.replace κ) name n (f.replace κ) (σ'.replace κ) := by
  rcases hf with ⟨g, params, hcallee, hinst, hscope, hacc⟩
  refine ⟨g.replace κ, params, h.callee?_replace hcallee, ?_, ?_, ?_⟩
  · change σ.supply.instantiateFn (g.replace κ) params = _
    rw [Supply.instantiateFn_replace hκ, hinst]
    rfl
  · rw [Setting.replace, Setting.replace, hscope]
  · rw [FnType.accepts_replace, hacc]

end Fixes

/-! ## Replacing constants in a derivation -/

theorem ArgsMatch.replace (hκ : ∀ c, (κ c).Concrete) {f : FnType} {i : Nat} {as : List Ty}
    {s b : Subst} (h : ArgsMatch f i as s b) :
    ArgsMatch (f.replace κ) i (as.map (Ty.replace κ)) (s.map (Ty.replace κ))
      (b.map (Ty.replace κ)) := by
  induction h with
  | nil => exact .nil
  | extra hparam _ ih =>
    refine .extra ?_ ih
    rw [FnType.paramAt?_replace, hparam]
    rfl
  | arg hparam hmatch _ ih =>
    refine .arg ?_ (Ty.matchTypes?_replace hκ hmatch) ih
    rw [FnType.paramAt?_replace, hparam]
    rfl

/-- The replacement gives types that may stand for constants, and keeps the basic ones. -/
structure Admissible (κ : String → Ty) : Prop where
  concrete : ∀ c, (κ c).Concrete
  basic : ∀ c ∈ Ty.basic, κ c = .con c

namespace Admissible

variable (hκ : Admissible κ)
include hκ

theorem replace_number : Ty.number.replace κ = .number := hκ.basic _ (by simp [Ty.basic])

theorem replace_text : Ty.text.replace κ = .text := hκ.basic _ (by simp [Ty.basic])

theorem replace_boolean : Ty.boolean.replace κ = .boolean := hκ.basic _ (by simp [Ty.basic])

theorem replace_void : Ty.void.replace κ = .void := hκ.basic _ (by simp [Ty.basic])

theorem operator {op : Operator} {l r t : Ty} (h : op.Types l r t) :
    op.Types (l.replace κ) (r.replace κ) (t.replace κ) := by
  cases h with
  | numeric hop =>
    rw [hκ.replace_number]
    exact .numeric hop
  | text =>
    rw [hκ.replace_text]
    exact .text
  | list hsame => exact .list (Ty.same_replace hκ.concrete hsame)
  | comparison hop =>
    rw [hκ.replace_boolean]
    exact .comparison hop

theorem last (ts : List Ty) :
    (ts.getLast?.getD .void).replace κ = (ts.map (Ty.replace κ)).getLast?.getD .void := by
  rw [List.getLast?_map]
  cases ts.getLast? with
  | none => exact hκ.replace_void
  | some t => rfl

end Admissible

/-- Derivations for the expression stay derivations when constants are replaced. -/
def Replaceable (κ : String → Ty) (outer : ScopeChain) (e : Expr) : Prop :=
  ∀ {σ σ' : Setting} {t : Ty}, Fixes κ outer σ.scope → Typed outer σ e t σ' →
    Typed outer (σ.replace κ) e (t.replace κ) (σ'.replace κ)

theorem TypedAll.replace {es : List Expr} (hes : ∀ e ∈ es, Replaceable κ outer e) {σ σ' : Setting}
    {ts : List Ty} (hσ : Fixes κ outer σ.scope) (h : TypedAll outer σ es ts σ') :
    TypedAll outer (σ.replace κ) es (ts.map (Ty.replace κ)) (σ'.replace κ) := by
  induction es generalizing σ ts with
  | nil =>
    cases h
    exact .nil
  | cons e es ih =>
    cases h with
    | cons he hrest =>
      exact .cons (hes e (by simp) hσ he)
        (ih (fun x hx => hes x (by simp [hx])) (hσ.typed he) hrest)

theorem TypedElems.replace (hκ : Admissible κ) {es : List Expr}
    (hes : ∀ e ∈ es, Replaceable κ outer e) {first : Ty} {σ σ' : Setting}
    (hσ : Fixes κ outer σ.scope) (h : TypedElems outer first σ es σ') :
    TypedElems outer (first.replace κ) (σ.replace κ) es (σ'.replace κ) := by
  induction es generalizing σ with
  | nil =>
    cases h
    exact .nil
  | cons e es ih =>
    cases h with
    | cons he hsame hrest =>
      exact .cons (hes e (by simp) hσ he) (Ty.same_replace hκ.concrete hsame)
        (ih (fun x hx => hes x (by simp [hx])) (hσ.typed he) hrest)

theorem TypedEntries.replace (hκ : Admissible κ) {es : List (Expr × Expr)}
    (hes : ∀ e ∈ es, Replaceable κ outer e.1 ∧ Replaceable κ outer e.2) {kt vt : Ty}
    {σ σ' : Setting} (hσ : Fixes κ outer σ.scope) (h : TypedEntries outer kt vt σ es σ') :
    TypedEntries outer (kt.replace κ) (vt.replace κ) (σ.replace κ) es (σ'.replace κ) := by
  induction es generalizing σ with
  | nil =>
    cases h
    exact .nil
  | cons e es ih =>
    cases h with
    | cons hk hv hsamek hsamev hrest =>
      have hhead := hes _ (List.mem_cons_self ..)
      have hσ₁ := hσ.typed hk
      exact .cons (hhead.1 hσ hk) (hhead.2 hσ₁ hv) (Ty.same_replace hκ.concrete hsamek)
        (Ty.same_replace hκ.concrete hsamev)
        (ih (fun x hx => hes x (by simp [hx])) (hσ₁.typed hv) hrest)

/-- Replacing constants turns a derivation in a function body into a derivation. -/
theorem Typed.replace (hκ : Admissible κ) (e : Expr) : Replaceable κ outer e := by
  induction e with
  | number x =>
    intro σ σ' t hσ h
    cases h
    rw [hκ.replace_number]
    exact .number
  | text x =>
    intro σ σ' t hσ h
    cases h
    rw [hκ.replace_text]
    exact .text
  | bool b =>
    intro σ σ' t hσ h
    cases h
    rw [hκ.replace_boolean]
    exact .bool
  | ref name =>
    intro σ σ' t hσ h
    cases h with
    | ref hfind =>
      rcases hσ.find?_replace hfind with ⟨sym', hfind', htype⟩
      rw [← htype]
      exact .ref hfind'
  | assign name value ih =>
    intro σ σ' t hσ h
    cases h with
    | @assign _ s₁ _ _ _ hv =>
      have hdefine : (s₁.define name t).replace κ = (s₁.replace κ).define name (t.replace κ) := by
        simp only [Setting.define, Setting.replace, Scope.define, Scope.replace, Table.map_insert]
      rw [hdefine]
      exact .assign (ih hσ hv)
  | binary op l r ihl ihr =>
    intro σ σ' t hσ h
    cases h with
    | binary hl hr hop =>
      exact .binary (ihl hσ hl) (ihr (hσ.typed hl) hr) (hκ.operator hop)
  | call name args ih =>
    intro σ σ' t hσ h
    cases h with
    | @call _ s₁ _ _ _ f ts b hf hts hmatch =>
      -- Looking up the callee leaves the scope as it is.
      have hσ₁ : Fixes κ outer s₁.scope := by
        rcases hf with ⟨_, _, -, -, hscope, -⟩
        rw [hscope]
        exact hσ
      rw [Ty.apply_replace hκ.concrete]
      exact .call (hσ.signed hκ.concrete hf) (hts.replace ih hσ₁) (hmatch.replace hκ.concrete)
  | ite c t f ihc iht ihf =>
    intro σ σ' u hσ h
    cases h with
    | ite hc ht hf hsame =>
      have hcond := ihc hσ hc
      have hσ₁ := hσ.typed hc
      rw [hκ.replace_boolean] at hcond
      exact .ite hcond (iht hσ₁ ht) (ihf (hσ₁.typed ht) hf) (Ty.same_replace hκ.concrete hsame)
  | loop c b ihc ihb =>
    intro σ σ' u hσ h
    cases h with
    | loop hc hb =>
      have hcond := ihc hσ hc
      rw [hκ.replace_boolean] at hcond
      rw [hκ.replace_void]
      exact .loop hcond (ihb (hσ.typed hc) hb)
  | seq bodies ih =>
    intro σ σ' u hσ h
    cases h with
    | seq hts =>
      rw [hκ.last]
      exact .seq (hts.replace ih hσ)
  | list elems ih =>
    intro σ σ' u hσ h
    cases h with
    | emptyList => exact .emptyList
    | list he hes =>
      exact .list (ih _ (by simp) hσ he)
        (hes.replace hκ (fun x hx => ih x (by simp [hx])) (hσ.typed he))
  | dict entries ih =>
    intro σ σ' u hσ h
    cases h with
    | emptyDict => exact .emptyDict
    | dict hk hv hes =>
      have hhead := ih _ (List.mem_cons_self ..)
      have hσ₁ := hσ.typed hk
      exact .dict (hhead.1 hσ hk) (hhead.2 hσ₁ hv)
        (hes.replace hκ (fun x hx => ih x (by simp [hx])) (hσ₁.typed hv))

end Replace

/-! ## Instances -/

/-- The bindings give a ground type to each type parameter, and to nothing else. -/
structure Grounds (s : Subst) (typeParams : List String) : Prop where
  binds : ∀ x, (s.get? x).isSome = true ↔ x ∈ typeParams
  concrete : ∀ x t, s.get? x = some t → t.Concrete

namespace FunctionDef

/-- The definition with bindings applied to its declared types, and no type parameters left. -/
def specialize (s : Subst) (d : FunctionDef) : FunctionDef :=
  { d with
    params := d.params.map fun p => { p with type := p.type.apply s }
    result := d.result.apply s
    typeParams := [] }

/-- The constants in the declared types. -/
def constants (d : FunctionDef) : List String :=
  d.params.flatMap (·.type.constants) ++ d.result.constants

end FunctionDef

/-- The constants in the types of functions. -/
def Scope.constants (s : Scope) : List String :=
  s.funcs.entries.flatMap fun e => e.2.type.toTy.constants

/-- New constants stand for the type parameters, a different one for each. -/
structure Rigid (globals : Scope) (d : FunctionDef) (o : Subst) : Prop where
  binds : ∀ x, (o.get? x).isSome = true ↔ x ∈ d.typeParams
  new : ∀ x t, o.get? x = some t →
    ∃ c, t = .con c ∧ c ∉ Ty.basic ++ d.constants ++ globals.constants
  distinct : ∀ x y t, o.get? x = some t → o.get? y = some t → x = y

theorem Rigid.grounds {globals : Scope} {d : FunctionDef} {o : Subst} (h : Rigid globals d o) :
    Grounds o d.typeParams := by
  refine ⟨h.binds, fun x t hx => ?_⟩
  rcases h.new x t hx with ⟨c, rfl, -⟩
  exact Ty.concrete_con c

/-- There are always enough new constants. -/
theorem exists_rigid (globals : Scope) (d : FunctionDef) : ∃ o, Rigid globals d o := by
  suffices h : ∀ used params : List String, ∃ o : Subst,
      (∀ x, (o.get? x).isSome = true ↔ x ∈ params) ∧
      (∀ x t, o.get? x = some t → ∃ c, t = .con c ∧ c ∉ used) ∧
      ∀ x y t, o.get? x = some t → o.get? y = some t → x = y by
    rcases h (Ty.basic ++ d.constants ++ globals.constants) d.typeParams with
      ⟨o, hbinds, hnew, hdistinct⟩
    exact ⟨o, hbinds, hnew, hdistinct⟩
  intro used params
  induction params generalizing used with
  | nil =>
    have hnone : ∀ x, (∅ : Subst).get? x = none := fun x => rfl
    exact ⟨∅, by simp [hnone], by simp [hnone], by simp [hnone]⟩
  | cons p params ih =>
    rcases Infinite.exists_notMem_finset used.toFinset with ⟨c, hc⟩
    rw [List.mem_toFinset] at hc
    -- The constants of the other parameters avoid this one as well.
    rcases ih (c :: used) with ⟨o, hbinds, hnew, hdistinct⟩
    have hother : ∀ x, o.get? x ≠ some (.con c) := by
      intro x hx
      rcases hnew x _ hx with ⟨c', heq, hfresh⟩
      cases heq
      exact hfresh (by simp)
    refine ⟨o.insert p (.con c), fun x => ?_, fun x t hx => ?_, fun x y t hx hy => ?_⟩
    · by_cases hp : p = x
      · simp [hp]
      · simp [hp, hbinds, Ne.symm hp]
    · rw [Table.get?_insert] at hx
      split at hx
      · cases hx
        exact ⟨c, rfl, hc⟩
      · rcases hnew x t hx with ⟨c', rfl, hfresh⟩
        exact ⟨c', rfl, fun hmem => hfresh (by simp [hmem])⟩
    · rw [Table.get?_insert] at hx hy
      split at hx <;> split at hy
      · next hpx hpy => exact hpx.symm.trans hpy
      · cases hx
        exact absurd hy (hother y)
      · cases hy
        exact absurd hx (hother x)
      · exact hdistinct x y t hx hy

/-! ## From new constants to any instance -/

/-- Types put in the place of the new constants. -/
theorem Rigid.exists_replacement {globals : Scope} {d : FunctionDef} {o s : Subst}
    (ho : Rigid globals d o) (hs : Grounds s d.typeParams) :
    ∃ κ, Admissible κ ∧ (∀ c ∈ d.constants ++ globals.constants, κ c = .con c) ∧
      ∀ x, (o.get? x).map (Ty.replace κ) = s.get? x := by
  classical
  -- A new constant stands for one type parameter only.
  let κ : String → Ty := fun c =>
    if h : ∃ x, o.get? x = some (.con c) then (s.get? h.choose).getD (.con c) else .con c
  have hnew : ∀ x c, o.get? x = some (.con c) → s.get? x = some (κ c) := by
    intro x c hx
    have hex : ∃ x, o.get? x = some (.con c) := ⟨x, hx⟩
    have hchoose : hex.choose = x := ho.distinct _ _ _ hex.choose_spec hx
    -- Both bind the type parameters, so that `s` has a type for this one.
    have hmem : (s.get? x).isSome = true := (hs.binds x).mpr ((ho.binds x).mp (by simp [hx]))
    rcases Option.isSome_iff_exists.mp hmem with ⟨t, ht⟩
    simp only [κ, dif_pos hex, hchoose, ht, Option.getD_some]
  have hold : ∀ c ∈ Ty.basic ++ d.constants ++ globals.constants, κ c = .con c := by
    intro c hc
    refine dif_neg ?_
    rintro ⟨x, hx⟩
    rcases ho.new x _ hx with ⟨c', heq, hfresh⟩
    cases heq
    exact hfresh hc
  refine ⟨κ, ⟨fun c => ?_, fun c hc => hold c (by simp [hc])⟩, fun c hc => hold c ?_, fun x => ?_⟩
  · by_cases hex : ∃ x, o.get? x = some (.con c)
    · rcases hex with ⟨x, hx⟩
      exact hs.concrete x _ (hnew x c hx)
    · simp only [κ, dif_neg hex]
      exact Ty.concrete_con c
  · rw [List.append_assoc]
    exact List.mem_append_right _ hc
  · cases hx : o.get? x with
    | some t =>
      rcases ho.new x t hx with ⟨c, rfl, -⟩
      exact (hnew x c hx).symm
    | none =>
      have hmem : ¬ (s.get? x).isSome = true := by
        rw [hs.binds, ← ho.binds, hx]
        simp
      simpa using (Option.not_isSome_iff_eq_none.mp hmem).symm

section Instances

variable {globals : Scope} {d : FunctionDef} {o s : Subst} {κ : String → Ty}

/-- The declared types of one instance become those of the other. -/
theorem apply_replace_of_grounds (hs : Grounds s d.typeParams)
    (hκ : Admissible κ) (hmap : ∀ x, (o.get? x).map (Ty.replace κ) = s.get? x) {t : Ty}
    (ht : ∀ c ∈ t.constants, κ c = .con c) : (t.apply o).replace κ = t.apply s := by
  have hground : Subst.Ground s := fun x u hx => (hs.concrete x u hx).ground
  have hground' : Subst.Ground (o.map (Ty.replace κ)) := by
    intro x u hx
    rw [Table.get?_map, hmap] at hx
    exact hground x u hx
  rw [Ty.apply_replace hκ.concrete, Ty.replace_eq_self ht, Ty.apply_of_ground hground,
    Ty.apply_of_ground hground']
  congr 1
  funext x
  rw [Subst.binding, Subst.binding, Table.get?_map, hmap]

theorem bodyScope_replace (params : List Param) (s : Scope) :
    (params.foldl (fun s p => s.define p.name p.type) s).replace κ =
      (params.map fun p => { p with type := p.type.replace κ }).foldl
        (fun s p => s.define p.name p.type) (s.replace κ) := by
  induction params generalizing s with
  | nil => rfl
  | cons p params ih =>
    rw [List.foldl_cons, ih, List.map_cons, List.foldl_cons]
    congr 1
    simp only [Scope.define, Scope.replace, Table.map_insert]

theorem Primitive.constants_basic (p : Primitive) :
    ∀ c ∈ p.type.toTy.constants, c ∈ Ty.basic := by
  cases p <;> decide

/-- The functions that a body sees keep their types. -/
theorem fixes_bodyScope (hκ : Admissible κ) (hglobals : ∀ c ∈ globals.constants, κ c = .con c)
    (d : FunctionDef) :
    Fixes κ [globals, Scope.prelude] (Checker.bodyScope d) := by
  refine ⟨(bodyScope_kind_funcs d.params { kind := .function }).1, fun name f hf => ?_⟩
  have hself : ∀ c ∈ f.type.toTy.constants, κ c = .con c := by
    intro c hc
    rw [(Sees.bodyScope globals d).function name, Option.or_eq_some_iff] at hf
    rcases hf with hf | ⟨-, hf⟩
    · exact hglobals c (List.mem_flatMap.mpr ⟨_, Table.mem_of_get? hf, hc⟩)
    · rcases Option.map_eq_some_iff.mp hf with ⟨p, -, rfl⟩
      exact hκ.basic c (p.constants_basic c hc)
  -- The type has none of the constants that are replaced.
  have heq := Ty.replace_eq_self hself
  rw [← FnType.toTy_replace] at heq
  rcases f with ⟨_, ⟨params, result, variadic⟩, _, _, _⟩
  simpa [FnType.toTy, FnType.replace] using heq

/-- A body that is typed with new constants for the type parameters is typed at every instance. -/
theorem Rigid.bodyTyped (ho : Rigid globals d o) (hs : Grounds s d.typeParams)
    {supply supply' : Supply} (h : BodyTyped globals supply (d.specialize o) supply') :
    BodyTyped globals supply (d.specialize s) supply' := by
  rcases ho.exists_replacement hs with ⟨κ, hκ, hold, hmap⟩
  have hdeclared : ∀ {t : Ty}, (∀ c ∈ t.constants, c ∈ d.constants) →
      (t.apply o).replace κ = t.apply s := fun ht =>
    apply_replace_of_grounds hs hκ hmap fun c hc => hold c (by simp [ht c hc])
  have hresult : (d.specialize o).result.replace κ = (d.specialize s).result :=
    hdeclared fun c hc => by simp [FunctionDef.constants, hc]
  have hscope : (Checker.bodyScope (d.specialize o)).replace κ =
      Checker.bodyScope (d.specialize s) := by
    rw [Checker.bodyScope, bodyScope_replace]
    congr 1
    simp only [FunctionDef.specialize, List.map_map]
    refine List.map_congr_left fun p hp => ?_
    have htype : (p.type.apply o).replace κ = p.type.apply s := hdeclared fun c hc =>
      List.mem_append_left _ (List.mem_flatMap.mpr ⟨p, hp, hc⟩)
    simp only [Function.comp_apply, htype]
  rcases h with ⟨t, σ, htyped, hsame, rfl⟩
  refine ⟨t.replace κ, σ.replace κ, ?_, ?_, rfl⟩
  · rw [← hscope]
    have hglobals : ∀ c ∈ globals.constants, κ c = .con c := fun c hc => hold c (by simp [hc])
    exact Typed.replace hκ d.body (fixes_bodyScope hκ hglobals (d.specialize o)) htyped
  · rw [← hresult]
    exact Ty.same_replace hκ.concrete hsame

end Instances

/-- Puts a value twice into a list, whatever its type. -/
def pairing : FunctionDef where
  name := "pair"
  params := [⟨"x", .var "T"⟩]
  result := .list (.var "T")
  body := .list [.ref "x", .ref "x"]
  typeParams := ["T"]

theorem Grounds.single {x : String} {t : Ty} (ht : t.Concrete) : Grounds ⟨[(x, t)]⟩ [x] := by
  refine ⟨fun y => ?_, fun y u hy => ?_⟩
  · by_cases hxy : x = y
    · simp [Table.get?, Table.lookup, hxy]
    · simp [Table.get?, Table.lookup, hxy, Ne.symm hxy]
  · simp only [Table.get?, Table.lookup] at hy
    split at hy
    · cases hy
      exact ht
    · cases hy

theorem pairing_rigid : Rigid {} pairing ⟨[("T", .con "rigid")]⟩ := by
  have hbinds := (Grounds.single (x := "T") (Ty.concrete_con "rigid")).binds
  refine ⟨hbinds, fun x t hx => ?_, fun x y t hx hy => ?_⟩
  · simp only [Table.get?, Table.lookup] at hx
    split at hx
    · cases hx
      exact ⟨"rigid", rfl, by decide⟩
    · cases hx
  · simp only [Table.get?, Table.lookup] at hx hy
    split at hx <;> split at hy
    · next hpx hpy => exact hpx.symm.trans hpy
    · cases hy
    · cases hx
    · cases hx

/-- Adds up one value, which makes a number of its type parameter. -/
def coercing : FunctionDef where
  name := "coerce"
  params := [⟨"x", .var "T"⟩]
  result := .number
  body := .call "add" [.ref "x"]
  typeParams := ["T"]

end TreeLang
