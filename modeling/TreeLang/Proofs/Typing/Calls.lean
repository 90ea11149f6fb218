import Mathlib.Data.List.Forall2
import TreeLang.Proofs.Typing.Judgement
import TreeLang.Proofs.Ty.Matching

/-!
# Calls on ground arguments

A call replaces the type parameters of its callee by new variables and matches the parameters with
the types of the arguments. When these types are ground, the callee is used at one instance of its
type: `call_instance` says so of every call that is accepted, and by `TypedIn.call` a call is
accepted if there is an instance in which all variables stand for the same type.
-/

namespace TreeLang

/-! ## Instances of function types -/

/-- The function type takes arguments of these types when its variables stand for types. -/
structure FnType.Takes (g : FnType) (τ : String → Ty) (ts : List Ty) : Prop where
  accepts : g.accepts ts.length = true
  args : ∀ i a p, ts[i]? = some a → g.paramAt? i = some p → p.bind τ = a

/-- Every variable of the result occurs in a parameter that always has its argument. -/
def FnType.Determined (g : FnType) : Prop :=
  g.result.Ground ∨ (g.variadic = false ∧ ∀ x ∈ g.result.occurrences, ∃ p ∈ g.params,
    x ∈ p.occurrences)

/-- The function type with its variables replaced. -/
def FnType.bind (g : FnType) (ρ : String → Ty) : FnType :=
  ⟨g.params.map (·.bind ρ), g.result.bind ρ, g.variadic⟩

theorem FnType.paramAt?_bind (g : FnType) (ρ : String → Ty) (i : Nat) :
    (g.bind ρ).paramAt? i = (g.paramAt? i).map (·.bind ρ) := by
  simp only [FnType.paramAt?, FnType.bind, List.length_map]
  split
  · rw [List.getLast?_map]
  · rw [List.getElem?_map]

theorem FnType.accepts_bind (g : FnType) (ρ : String → Ty) (n : Int) :
    (g.bind ρ).accepts n = g.accepts n := by
  simp [FnType.accepts, FnType.bind]

namespace FnType

theorem Takes.length_eq {g : FnType} {τ : String → Ty} {ts : List Ty} (h : g.Takes τ ts)
    (hvariadic : g.variadic = false) : ts.length = g.params.length := by
  have hacc := h.accepts
  simp only [FnType.accepts, hvariadic, Bool.false_eq_true, if_false, beq_iff_eq] at hacc
  exact Int.ofNat.inj hacc

/-- Without a repeated parameter the argument types are the parameters at the instance. -/
theorem Takes.eq_map {g : FnType} {τ : String → Ty} {ts : List Ty} (h : g.Takes τ ts)
    (hvariadic : g.variadic = false) : ts = g.params.map (·.bind τ) := by
  apply List.ext_getElem?
  intro i
  rw [List.getElem?_map]
  have hlen := h.length_eq hvariadic
  cases hts : ts[i]? with
  | none =>
    rw [List.getElem?_eq_none_iff] at hts
    rw [List.getElem?_eq_none_iff.mpr (by omega)]
    rfl
  | some a =>
    have hlt : i < g.params.length := by
      rw [← hlen]
      exact (List.getElem?_eq_some_iff.mp hts).1
    have hparam : g.paramAt? i = some g.params[i] := by
      simp [FnType.paramAt?, hvariadic, hlt]
    rw [List.getElem?_eq_getElem hlt, Option.map_some, h.args i a _ hts hparam]

/-- Without a repeated parameter a function type takes its parameters at every instance. -/
theorem takes_instance {g : FnType} (hvariadic : g.variadic = false) (τ : String → Ty) :
    g.Takes τ (g.params.map (·.bind τ)) := by
  refine ⟨by simp [FnType.accepts, hvariadic], fun i a p hi hp => ?_⟩
  have hp' : g.params[i]? = some p := by simpa [FnType.paramAt?, hvariadic] using hp
  rw [List.getElem?_map, hp', Option.map_some] at hi
  exact Option.some.inj hi

/-- It takes its own parameters. -/
theorem takes_params {ps : List Ty} {r : Ty} : Takes ⟨ps, r, false⟩ .var ps := by
  have h := takes_instance (g := ⟨ps, r, false⟩) rfl .var
  simpa only [Ty.bind_var, List.map_id'] using h

/-- Two instances that take the same arguments have the same result. -/
theorem Takes.result_eq {g : FnType} {τ τ' : String → Ty} {ts : List Ty} (hg : g.Determined)
    (h : g.Takes τ ts) (h' : g.Takes τ' ts) : g.result.bind τ = g.result.bind τ' := by
  rcases hg with hground | ⟨hvariadic, hoccurs⟩
  · rw [hground.bind_eq, hground.bind_eq]
  · apply Ty.bind_congr
    intro x hx
    -- The variable occurs in a parameter, which both instances turn into the same argument.
    rcases hoccurs x hx with ⟨p, hp, hxp⟩
    have hmap := (h.eq_map hvariadic).symm.trans (h'.eq_map hvariadic)
    exact Ty.eq_of_bind_eq (List.map_inj_left.mp hmap p hp) x hxp

end FnType

/-! ## The callee of a call -/

/-- All bound types are variables. -/
def Subst.Renames (s : Subst) : Prop := ∀ x t, s.get? x = some t → ∃ y, t = .var y

theorem Supply.freshen_renames (params : List String) {b : Subst} (hb : b.Renames)
    (s : Supply) : (freshen params b s).1.Renames := by
  induction params generalizing b s with
  | nil => exact hb
  | cons p ps ih =>
    refine ih (fun x t hx => ?_) _
    rw [Table.get?_insert] at hx
    split at hx
    · exact ⟨_, (Option.some.inj hx).symm⟩
    · exact hb x t hx

theorem Subst.Renames.resolve {s : Subst} (hs : s.Renames) (depth : Nat) (x : String) :
    ∃ y, Ty.resolve depth s x = .var y := by
  induction depth generalizing s x with
  | zero => exact ⟨x, rfl⟩
  | succ depth ih =>
    cases hx : s.get? x with
    | none => exact ⟨x, by rw [Ty.resolve, hx]⟩
    | some t =>
      rcases hs x t hx with ⟨y, rfl⟩
      -- The binding is set aside, and what is left still binds variables to variables.
      have herase : Subst.Renames (s.erase x) := by
        intro z t hz
        rw [Table.get?_erase] at hz
        split at hz
        · cases hz
        · exact hs z t hz
      rw [Ty.resolve, hx]
      dsimp only
      split
      · exact ⟨x, rfl⟩
      · exact ih herase y

/-- A call renames the variables of the callee's type. -/
theorem Supply.instantiateFn_bind (g : FnType) (typeParams : List String) (s : Supply) :
    ∃ ρ : String → String, (instantiateFn g typeParams s).1 = g.bind fun x => .var (ρ x) := by
  rw [instantiateFn]
  split
  · refine ⟨id, ?_⟩
    change g = g.bind .var
    simp only [FnType.bind, Ty.bind_var, List.map_id']
  · have hempty : Subst.Renames ∅ :=
      fun x t hx => absurd hx (by simp [EmptyCollection.emptyCollection])
    have hrenames := freshen_renames typeParams hempty s
    rcases Classical.skolem.mp (hrenames.resolve (freshen typeParams ∅ s).1.size) with ⟨ρ, hρ⟩
    refine ⟨ρ, ?_⟩
    have hfun : Ty.resolve (freshen typeParams ∅ s).1.size (freshen typeParams ∅ s).1 =
        fun x => .var (ρ x) := funext hρ
    change FnType.apply (freshen typeParams ∅ s).1 g = _
    rw [FnType.apply, FnType.bind, Ty.bindAll_eq_map, Ty.apply, hfun]

theorem Signed.bind {outer : ScopeChain} {σ σ' : Setting} {name : String} {n : Nat} {f : FnType}
    (h : Signed outer σ name n f σ') :
    ∃ g typeParams ρ, ScopeChain.callee? (σ.scope :: outer) name = some (g, typeParams) ∧
      f = g.bind ρ ∧ σ'.scope = σ.scope ∧ g.accepts n = true := by
  rcases h with ⟨g, typeParams, hcallee, hinst, hscope, hacc⟩
  rcases Supply.instantiateFn_bind g typeParams σ.supply with ⟨ρ, hρ⟩
  rw [hinst] at hρ
  dsimp only at hρ
  subst hρ
  rw [FnType.accepts_bind] at hacc
  exact ⟨g, typeParams, _, hcallee, rfl, hscope, hacc⟩

/-! ## Matching the arguments -/

/-- Ground arguments leave ground bindings, which turn each parameter into its argument's type. -/
theorem ArgsMatch.ground {f : FnType} {i : Nat} {ts : List Ty} {s b : Subst}
    (h : ArgsMatch f i ts s b) (hs : s.Ground) (hts : ∀ a ∈ ts, a.Ground) :
    b.Ground ∧ s.Extends b ∧ ∀ j a p, ts[j]? = some a → f.paramAt? (i + j) = some p →
      b.Covers p ∧ p.bind b.binding = a := by
  induction h with
  | nil => exact ⟨hs, Subst.Extends.refl _, by simp⟩
  | @extra i a as s b hp hrest ih =>
    rcases ih hs (fun x hx => hts x (by simp [hx])) with ⟨hb, hext, hargs⟩
    refine ⟨hb, hext, fun j c p hj hpj => ?_⟩
    cases j with
    | zero => simp [hp] at hpj
    | succ j => exact hargs j c p (by simpa using hj) (by rw [← hpj]; congr 1; omega)
  | @arg i p a as s s' b hp hmatch hrest ih =>
    -- The match of this argument settles its parameter; later ones only add bindings.
    have hfit := Ty.matchTypes?_ground (hts a (by simp)) hs hmatch
    rcases ih hfit.ground (fun x hx => hts x (by simp [hx])) with ⟨hb, hext, hargs⟩
    refine ⟨hb, hfit.extends_.trans hext, fun j c q hj hqj => ?_⟩
    cases j with
    | zero =>
      rw [Nat.add_zero, hp] at hqj
      cases hqj
      cases hj
      exact ⟨hfit.covers.mono hext, by rw [hfit.covers.bind_eq hext, hfit.bind_eq]⟩
    | succ j => exact hargs j c q (by simpa using hj) (by rw [← hqj]; congr 1; omega)

/-- A call on ground arguments has the result of the callee's type at some instance, and that type
is ground. -/
theorem call_instance {g : FnType} {ρ : String → Ty} {ts : List Ty} {b : Subst}
    (hacc : g.accepts ts.length = true) (hts : ∀ a ∈ ts, a.Ground) (hdet : g.Determined)
    (hmatch : ArgsMatch (g.bind ρ) 0 ts ∅ b) :
    ∃ τ, g.Takes τ ts ∧ (g.bind ρ).result.apply b = g.result.bind τ ∧
      (g.result.bind τ).Ground := by
  rcases hmatch.ground Subst.ground_empty hts with ⟨hb, -, hargs⟩
  have hbind : ∀ t : Ty, (t.bind ρ).bind (Subst.binding b) =
      t.bind fun x => (ρ x).bind (Subst.binding b) := fun t => Ty.bind_bind ρ _ t
  have happly : (g.bind ρ).result.apply b =
      g.result.bind fun x => (ρ x).bind (Subst.binding b) := by
    rw [Ty.apply_of_ground hb, FnType.bind, hbind]
  refine ⟨fun x => (ρ x).bind (Subst.binding b), ⟨hacc, fun i a p hi hp => ?_⟩, happly, ?_⟩
  · have hp' : (g.bind ρ).paramAt? (0 + i) = some (p.bind ρ) := by
      rw [Nat.zero_add, FnType.paramAt?_bind, hp]
      rfl
    rw [← hbind]
    exact (hargs i a _ hi hp').2
  · rcases hdet with hground | ⟨hvariadic, hoccurs⟩
    · rw [hground.bind_eq]
      exact hground
    · -- Each variable of the result occurs in a parameter, and matching its argument binds it.
      apply Ty.ground_bind
      intro x hx
      rcases hoccurs x hx with ⟨p, hp, hxp⟩
      rcases List.mem_iff_getElem?.mp hp with ⟨i, hi⟩
      have hparam : g.paramAt? i = some p := by simp [FnType.paramAt?, hvariadic, hi]
      have hlen : ts.length = g.params.length := by
        have h := hacc
        simp only [FnType.accepts, hvariadic, Bool.false_eq_true, if_false, beq_iff_eq] at h
        exact Int.ofNat.inj h
      have hlt : i < ts.length := by
        rw [hlen]
        exact (List.getElem?_eq_some_iff.mp hi).1
      have hp' : (g.bind ρ).paramAt? (0 + i) = some (p.bind ρ) := by
        rw [Nat.zero_add, FnType.paramAt?_bind, hparam]
        rfl
      have hcov := (hargs i _ _ (List.getElem?_eq_getElem hlt) hp').1
      apply hb.bind_ground
      intro y hy
      exact hcov y (Ty.mem_occurrences_bind.mpr ⟨x, hxp, hy⟩)

/-- Parameters match arguments that are ground instances of them. -/
theorem ArgsMatch.of_instances {f : FnType} {θ : String → Ty} {ts : List Ty} {i : Nat}
    (hargs : ∀ j a p, ts[j]? = some a → f.paramAt? (i + j) = some p → p.bind θ = a)
    (hts : ∀ t ∈ ts, t.Concrete) {s : Subst} (hs : Ty.Follows s θ) : ∃ b, ArgsMatch f i ts s b := by
  induction ts generalizing i s with
  | nil => exact ⟨s, .nil⟩
  | cons t ts ih =>
    have hrest : ∀ j a p, ts[j]? = some a → f.paramAt? (i + 1 + j) = some p → p.bind θ = a := by
      intro j a p hj hp
      exact hargs (j + 1) a p (by simpa using hj) (by rw [← hp]; congr 1; omega)
    have hts' : ∀ u ∈ ts, u.Concrete := fun u hu => hts u (by simp [hu])
    cases hp : f.paramAt? i with
    | none =>
      rcases ih hrest hts' hs with ⟨b, hb⟩
      exact ⟨b, .extra hp hb⟩
    | some p =>
      have hbind : p.bind θ = t := hargs 0 t p rfl hp
      have hconcrete : (p.bind θ).Concrete := hbind ▸ hts t (by simp)
      rcases Ty.matchTypes?_succeeds hconcrete s hs with ⟨s', hmatch, hs'⟩
      rw [hbind] at hmatch
      rcases ih hrest hts' hs' with ⟨b, hb⟩
      exact ⟨b, .arg hp hmatch hb⟩

/-- The types of builtin functions determine their results. -/
theorem Primitive.determined (p : Primitive) : p.type.Determined := by
  cases p
  case input | add | mul | len | toUpperCase | split | join | hasKey | and | or | not =>
    exact Or.inl rfl
  all_goals
    refine Or.inr ⟨rfl, ?_⟩
    simp [Primitive.type, Ty.occurrences, Ty.occurrencesAll]

/-! ## Expressions without assignments -/

/-- The expression has the type in a scope and leaves the scope as it is, whatever the supply. -/
def TypedIn (outer : ScopeChain) (s : Scope) (e : Expr) (t : Ty) : Prop :=
  ∀ supply, ∃ supply', Typed outer ⟨s, supply⟩ e t ⟨s, supply'⟩

namespace TypedIn

variable {outer : ScopeChain} {s : Scope}

theorem ref {name : String} {sym : Symbol} (h : ScopeChain.find? (s :: outer) name = some sym) :
    TypedIn outer s (.ref name) sym.type := fun supply => ⟨supply, .ref h⟩

theorem binary {op : Operator} {l r : Expr} {lt rt t : Ty} (hl : TypedIn outer s l lt)
    (hr : TypedIn outer s r rt) (hop : op.Types lt rt t) : TypedIn outer s (.binary op l r) t := by
  intro supply
  rcases hl supply with ⟨supply₁, hl⟩
  rcases hr supply₁ with ⟨supply₂, hr⟩
  exact ⟨supply₂, .binary hl hr hop⟩

theorem ite {c t f : Expr} {u : Ty} (hc : TypedIn outer s c .boolean) (ht : TypedIn outer s t u)
    (hf : TypedIn outer s f u) (hu : u.Whole) : TypedIn outer s (.ite c t f) u := by
  intro supply
  rcases hc supply with ⟨supply₁, hc⟩
  rcases ht supply₁ with ⟨supply₂, ht⟩
  rcases hf supply₂ with ⟨supply₃, hf⟩
  exact ⟨supply₃, .ite hc ht hf hu⟩

theorem elems {es : List Expr} {t : Ty} (hes : ∀ e ∈ es, TypedIn outer s e t) (ht : t.Whole)
    (supply : Supply) : ∃ supply', TypedElems outer t ⟨s, supply⟩ es ⟨s, supply'⟩ := by
  induction es generalizing supply with
  | nil => exact ⟨supply, .nil⟩
  | cons e es ih =>
    rcases hes e (by simp) supply with ⟨supply₁, he⟩
    rcases ih (fun x hx => hes x (by simp [hx])) supply₁ with ⟨supply₂, hrest⟩
    exact ⟨supply₂, .cons he ht hrest⟩

theorem list {e : Expr} {es : List Expr} {t : Ty} (h : ∀ x ∈ e :: es, TypedIn outer s x t)
    (ht : t.Whole) : TypedIn outer s (.list (e :: es)) (.list t) := by
  intro supply
  rcases h e (by simp) supply with ⟨supply₁, he⟩
  have hrest : ∀ x ∈ es, TypedIn outer s x t := fun x hx => h x (by simp [hx])
  rcases elems hrest ht supply₁ with ⟨supply₂, hes⟩
  exact ⟨supply₂, .list he hes⟩

theorem all {es : List Expr} {ts : List Ty} (h : List.Forall₂ (TypedIn outer s) es ts)
    (supply : Supply) : ∃ supply', TypedAll outer ⟨s, supply⟩ es ts ⟨s, supply'⟩ := by
  induction h generalizing supply with
  | nil => exact ⟨supply, .nil⟩
  | cons he _ ih =>
    rcases he supply with ⟨supply₁, he⟩
    rcases ih supply₁ with ⟨supply₂, hrest⟩
    exact ⟨supply₂, .cons he hrest⟩

/-- A call is accepted if its callee takes the arguments when all its variables stand for `u`. -/
theorem call {name : String} {args : List Expr} {g : FnType} {typeParams : List String}
    {ts : List Ty} {u : Ty}
    (hcallee : ScopeChain.callee? (s :: outer) name = some (g, typeParams))
    (hargs : List.Forall₂ (TypedIn outer s) args ts) (htakes : g.Takes (fun _ => u) ts)
    (hts : ∀ t ∈ ts, t.Concrete) (hdet : g.Determined) :
    TypedIn outer s (.call name args) (g.result.bind fun _ => u) := by
  intro supply
  rcases hinst : supply.instantiateFn g typeParams with ⟨f, supply₁⟩
  rcases Supply.instantiateFn_bind g typeParams supply with ⟨ρ, hρ⟩
  rw [hinst] at hρ
  dsimp only at hρ
  subst hρ
  have hsigned : Signed outer ⟨s, supply⟩ name args.length (g.bind fun x => .var (ρ x))
      ⟨s, supply₁⟩ := by
    refine ⟨g, typeParams, hcallee, hinst, rfl, ?_⟩
    rw [FnType.accepts_bind, hargs.length_eq]
    exact htakes.accepts
  -- New names for the variables do not matter, for all of them stand for the same type.
  have hparams : ∀ j a p, ts[j]? = some a →
      (g.bind fun x => .var (ρ x)).paramAt? (0 + j) = some p → p.bind (fun _ => u) = a := by
    intro j a p hj hp
    rw [Nat.zero_add, FnType.paramAt?_bind] at hp
    rcases Option.map_eq_some_iff.mp hp with ⟨q, hq, rfl⟩
    rw [Ty.bind_bind]
    exact htakes.args j a q hj hq
  have hempty : Ty.Follows ∅ fun _ => u :=
    fun x t hx => absurd hx (by simp [EmptyCollection.emptyCollection])
  rcases ArgsMatch.of_instances hparams hts hempty with ⟨b, hmatch⟩
  rcases all hargs supply₁ with ⟨supply₂, htyped⟩
  rcases call_instance htakes.accepts (fun t ht => (hts t ht).ground) hdet hmatch with
    ⟨τ, htakes', happly, -⟩
  refine ⟨supply₂, ?_⟩
  rw [← FnType.Takes.result_eq hdet htakes' htakes, ← happly]
  exact .call hsigned htyped hmatch

end TypedIn

end TreeLang
