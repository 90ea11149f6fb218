import TreeLang.Typing
import TreeLang.Proofs.Ty.Structure
import TreeLang.Proofs.Program.Structure

/-!
# The typing judgement

`Typed outer s e t s'` says by rules that `e` has type `t` in setting `s`, and that checking it
leaves setting `s'`. A setting is the innermost scope and the supply of variables; the record of
types and the wording of reports have no part in it. Main statements: `infer_typed` and
`infer_complete`, by which the checker accepts exactly what the rules derive.
-/

namespace TreeLang

namespace Check

variable {α β : Type}

/-! ## Steps that succeed -/

/-- The step succeeds from `s` with `a`, and leaves `s'`. -/
def Gives (x : Check α) (s : CheckState) (a : α) (s' : CheckState) : Prop :=
  x.run s = (.ok a, s')

@[simp] theorem gives_pure {a b : α} {s s' : CheckState} :
    Gives (pure a) s b s' ↔ b = a ∧ s' = s := by
  constructor
  · intro h
    cases h
    exact ⟨rfl, rfl⟩
  · rintro ⟨rfl, rfl⟩
    rfl

theorem gives_bind {x : Check α} {f : α → Check β} {s s'' : CheckState} {b : β} :
    Gives (x >>= f) s b s'' ↔ ∃ a s', Gives x s a s' ∧ Gives (f a) s' b s'' := by
  have hrun : (x >>= f).run s = ExceptT.bindCont f (x.run s).1 (x.run s).2 := rfl
  unfold Gives
  rw [hrun]
  rcases x.run s with ⟨r, s'⟩
  cases r with
  | error h =>
    constructor
    · intro h
      cases h
    · rintro ⟨a, s₁, h₁, h₂⟩
      cases h₁
  | ok a =>
    constructor
    · intro h
      exact ⟨a, s', rfl, h⟩
    · rintro ⟨a, s₁, h₁, h₂⟩
      cases h₁
      exact h₂

theorem gives_ite {c : Prop} [Decidable c] {x y : Check α} {s s' : CheckState} {a : α} :
    Gives (if c then x else y) s a s' ↔ (c ∧ Gives x s a s') ∨ (¬ c ∧ Gives y s a s') := by
  by_cases h : c <;> simp [h]

@[simp] theorem not_gives_problem {e : Expr} {code : Code} {text : String} {s s' : CheckState}
    {a : α} : ¬ Gives (problem e code text) s a s' := by
  intro h
  cases h

@[simp] theorem not_gives_throw {h : Halt} {s s' : CheckState} {a : α} :
    ¬ Gives (throw h) s a s' := by
  intro h
  cases h

@[simp] theorem gives_get {s a s' : CheckState} : Gives get s a s' ↔ a = s ∧ s' = s := by
  constructor
  · intro h
    cases h
    exact ⟨rfl, rfl⟩
  · rintro ⟨rfl, rfl⟩
    rfl

@[simp] theorem gives_set {s s₀ s' : CheckState} {u : PUnit} :
    Gives (set s₀) s u s' ↔ s' = s₀ := by
  constructor
  · intro h
    cases h
    rfl
  · rintro rfl
    rfl

@[simp] theorem gives_modify {f : CheckState → CheckState} {s s' : CheckState} {u : PUnit} :
    Gives (modify f) s u s' ↔ s' = f s := by
  constructor
  · intro h
    cases h
    rfl
  · rintro rfl
    rfl

end Check

/-! ## The rules -/

/-- The type of an operator on operands of given types. -/
inductive Operator.Types : Operator → Ty → Ty → Ty → Prop
  | numeric {op : Operator} : op ∈ [.add, .sub, .mul, .div, .rem] →
      Types op .number .number .number
  | text : Types .add .text .text .text
  | list {a b : Ty} : a.same b = true → Types .add (.list a) (.list b) (.list a)
  | comparison {op : Operator} {l r : Ty} : op ∈ [.lt, .gt, .le, .ge, .eq, .ne] →
      Types op l r .boolean

/-- What a call refers to: a function with its type parameters, else a variable of a function
type. -/
def ScopeChain.callee? (c : ScopeChain) (name : String) : Option (FnType × List String) :=
  match c.findFunction name with
  | some f => some (f.type, f.typeParams)
  | none => (c.findVariable name).bind fun t => (FnType.ofTy? t).map (·, [])

/-- Parameters match argument types from argument `i` on; the bindings grow from `s` to `b`. -/
inductive ArgsMatch (f : FnType) : Nat → List Ty → Subst → Subst → Prop
  | nil {i : Nat} {s : Subst} : ArgsMatch f i [] s s
  | extra {i : Nat} {a : Ty} {as : List Ty} {s b : Subst} : f.paramAt? i = none →
      ArgsMatch f (i + 1) as s b → ArgsMatch f i (a :: as) s b
  | arg {i : Nat} {p a : Ty} {as : List Ty} {s s' b : Subst} : f.paramAt? i = some p →
      Ty.matchTypes? p a s = some (true, s') → ArgsMatch f (i + 1) as s' b →
      ArgsMatch f i (a :: as) s b

/-- What checking an expression reads and changes. -/
structure Setting where
  scope : Scope
  supply : Supply

namespace Setting

/-- Binds a variable. -/
def define (s : Setting) (name : String) (t : Ty) : Setting := ⟨s.scope.define name t, s.supply⟩

/-- Takes a new variable. -/
def fresh (s : Setting) (stem : String) : Ty × Setting :=
  (.var (s.supply.fresh stem).1, ⟨s.scope, (s.supply.fresh stem).2⟩)

end Setting

/-- The callee of a call with `n` arguments has type `f` for this call. -/
def Signed (outer : ScopeChain) (s : Setting) (name : String) (n : Nat) (f : FnType)
    (s' : Setting) : Prop :=
  ∃ g typeParams, ScopeChain.callee? (s.scope :: outer) name = some (g, typeParams) ∧
    s.supply.instantiateFn g typeParams = (f, s'.supply) ∧ s'.scope = s.scope ∧
    f.accepts n = true

mutual

/-- The expression has the type in the first setting, and checking it leaves the second one. -/
inductive Typed (outer : ScopeChain) : Setting → Expr → Ty → Setting → Prop
  | number {s : Setting} {x : Float} : Typed outer s (.number x) .number s
  | text {s : Setting} {x : String} : Typed outer s (.text x) .text s
  | bool {s : Setting} {b : Bool} : Typed outer s (.bool b) .boolean s
  | ref {s : Setting} {name : String} {sym : Symbol} :
      ScopeChain.find? (s.scope :: outer) name = some sym → Typed outer s (.ref name) sym.type s
  | assign {s s' : Setting} {name : String} {value : Expr} {t : Ty} : Typed outer s value t s' →
      Typed outer s (.assign name value) t (s'.define name t)
  | binary {s s₁ s₂ : Setting} {op : Operator} {l r : Expr} {lt rt t : Ty} :
      Typed outer s l lt s₁ → Typed outer s₁ r rt s₂ → op.Types lt rt t →
      Typed outer s (.binary op l r) t s₂
  | call {s s₁ s₂ : Setting} {name : String} {args : List Expr} {f : FnType} {ts : List Ty}
      {b : Subst} : Signed outer s name args.length f s₁ → TypedAll outer s₁ args ts s₂ →
      ArgsMatch f 0 ts ∅ b → Typed outer s (.call name args) (f.result.apply b) s₂
  | ite {s s₁ s₂ s₃ : Setting} {c t f : Expr} {tt ft : Ty} : Typed outer s c .boolean s₁ →
      Typed outer s₁ t tt s₂ → Typed outer s₂ f ft s₃ → tt.same ft = true →
      Typed outer s (.ite c t f) tt s₃
  | loop {s s₁ s₂ : Setting} {c b : Expr} {bt : Ty} : Typed outer s c .boolean s₁ →
      Typed outer s₁ b bt s₂ → Typed outer s (.loop c b) .void s₂
  | seq {s s' : Setting} {bodies : List Expr} {ts : List Ty} : TypedAll outer s bodies ts s' →
      Typed outer s (.seq bodies) (ts.getLast?.getD .void) s'
  | emptyList {s : Setting} : Typed outer s (.list []) (.list (s.fresh "T").1) (s.fresh "T").2
  | list {s s₁ s₂ : Setting} {e : Expr} {es : List Expr} {t : Ty} : Typed outer s e t s₁ →
      TypedElems outer t s₁ es s₂ → Typed outer s (.list (e :: es)) (.list t) s₂
  | emptyDict {s : Setting} :
      Typed outer s (.dict []) (.dict (s.fresh "K").1 ((s.fresh "K").2.fresh "V").1)
        ((s.fresh "K").2.fresh "V").2
  | dict {s s₁ s₂ s₃ : Setting} {k v : Expr} {es : List (Expr × Expr)} {kt vt : Ty} :
      Typed outer s k kt s₁ → Typed outer s₁ v vt s₂ → TypedEntries outer kt vt s₂ es s₃ →
      Typed outer s (.dict ((k, v) :: es)) (.dict kt vt) s₃

/-- The expressions have the types one after the other. -/
inductive TypedAll (outer : ScopeChain) : Setting → List Expr → List Ty → Setting → Prop
  | nil {s : Setting} : TypedAll outer s [] [] s
  | cons {s s₁ s₂ : Setting} {e : Expr} {es : List Expr} {t : Ty} {ts : List Ty} :
      Typed outer s e t s₁ → TypedAll outer s₁ es ts s₂ → TypedAll outer s (e :: es) (t :: ts) s₂

/-- The elements have the type of the first one. -/
inductive TypedElems (outer : ScopeChain) : Ty → Setting → List Expr → Setting → Prop
  | nil {first : Ty} {s : Setting} : TypedElems outer first s [] s
  | cons {first t : Ty} {s s₁ s₂ : Setting} {e : Expr} {es : List Expr} : Typed outer s e t s₁ →
      t.same first = true → TypedElems outer first s₁ es s₂ →
      TypedElems outer first s (e :: es) s₂

/-- The entries have the types of the first one. -/
inductive TypedEntries (outer : ScopeChain) :
    Ty → Ty → Setting → List (Expr × Expr) → Setting → Prop
  | nil {key value : Ty} {s : Setting} : TypedEntries outer key value s [] s
  | cons {key value kt vt : Ty} {s s₁ s₂ s₃ : Setting} {k v : Expr} {es : List (Expr × Expr)} :
      Typed outer s k kt s₁ → Typed outer s₁ v vt s₂ → kt.same key = true →
      vt.same value = true → TypedEntries outer key value s₂ es s₃ →
      TypedEntries outer key value s ((k, v) :: es) s₃

end

theorem TypedAll.length_eq {outer : ScopeChain} {σ σ' : Setting} {es : List Expr} {ts : List Ty}
    (h : TypedAll outer σ es ts σ') : es.length = ts.length := by
  induction es generalizing σ ts with
  | nil =>
    cases h
    rfl
  | cons e es ih =>
    cases h with
    | cons _ hrest => rw [List.length_cons, List.length_cons, ih hrest]

theorem TypedAll.append {outer : ScopeChain} {σ σ' σ'' : Setting} {es es' : List Expr}
    {ts ts' : List Ty} (h : TypedAll outer σ es ts σ') (h' : TypedAll outer σ' es' ts' σ'') :
    TypedAll outer σ (es ++ es') (ts ++ ts') σ'' := by
  induction es generalizing σ ts with
  | nil =>
    cases h
    exact h'
  | cons e es ih =>
    cases h with
    | cons he hrest => exact .cons he (ih hrest)

/-- Elements of one type are elements of types that are all this one. -/
theorem TypedElems.typedAll {outer : ScopeChain} {σ σ' : Setting} {es : List Expr} {first : Ty}
    (h : TypedElems outer first σ es σ') :
    ∃ ts, TypedAll outer σ es ts σ' ∧ ∀ t ∈ ts, t = first := by
  induction es generalizing σ with
  | nil =>
    cases h
    exact ⟨[], .nil, by simp⟩
  | cons e es ih =>
    cases h with
    | @cons _ t _ _ _ _ _ he hsame hrest =>
      rcases ih hrest with ⟨ts, hts, hall⟩
      refine ⟨t :: ts, .cons he hts, fun u hu => ?_⟩
      rcases List.mem_cons.mp hu with rfl | hu
      · exact Ty.eq_of_same hsame
      · exact hall u hu

/-! ## Helper steps of the checker -/

theorem Ty.same_con_iff {t : Ty} {name : String} : t.same (.con name) = true ↔ t = .con name := by
  constructor
  · exact Ty.eq_of_same
  · rintro rfl
    simp [Ty.same]

theorem Ty.same_number_iff {t : Ty} : t.same .number = true ↔ t = .number := same_con_iff

theorem Ty.same_text_iff {t : Ty} : t.same .text = true ↔ t = .text := same_con_iff

theorem Ty.same_boolean_iff {t : Ty} : t.same .boolean = true ↔ t = .boolean := same_con_iff

/-- The setting of a state of the checker. -/
def CheckState.setting (s : CheckState) : Setting := ⟨s.scope, s.supply⟩

/-- A state of the checker with a setting and a record. -/
def Setting.state (σ : Setting) (record : List (Path × Ty)) : CheckState :=
  ⟨σ.scope, σ.supply, record⟩

namespace Check

theorem operatorType_gives {e : Expr} {op : Operator} {l r t : Ty} {s s' : CheckState} :
    Gives (operatorType e op l r) s t s' ↔ op.Types l r t ∧ s' = s := by
  constructor
  · intro h
    unfold operatorType at h
    cases op with
    | add =>
      simp only [gives_ite, Bool.and_eq_true, Ty.same_number_iff, Ty.same_text_iff] at h
      rcases h with ⟨⟨rfl, rfl⟩, h⟩ | ⟨-, ⟨⟨rfl, rfl⟩, h⟩ | ⟨-, h⟩⟩
      · rcases gives_pure.mp h with ⟨rfl, rfl⟩
        exact ⟨.numeric (by simp), rfl⟩
      · rcases gives_pure.mp h with ⟨rfl, rfl⟩
        exact ⟨.text, rfl⟩
      · split at h
        · rcases gives_ite.mp h with ⟨hsame, h⟩ | ⟨-, h⟩
          · rcases gives_pure.mp h with ⟨rfl, rfl⟩
            exact ⟨.list hsame, rfl⟩
          · exact absurd h not_gives_problem
        · exact absurd h not_gives_problem
    | sub | mul | div | rem =>
      simp only [gives_ite, Bool.and_eq_true, Ty.same_number_iff] at h
      rcases h with ⟨⟨rfl, rfl⟩, h⟩ | ⟨-, h⟩
      · rcases gives_pure.mp h with ⟨rfl, rfl⟩
        exact ⟨.numeric (by simp), rfl⟩
      · exact absurd h not_gives_problem
    | lt | gt | le | ge | eq | ne =>
      rcases gives_pure.mp h with ⟨rfl, rfl⟩
      exact ⟨.comparison (by simp), rfl⟩
    | other symbol => exact absurd h not_gives_problem
  · rintro ⟨h, rfl⟩
    cases h with
    | numeric hop =>
      simp only [List.mem_cons, List.not_mem_nil, or_false] at hop
      rcases hop with rfl | rfl | rfl | rfl | rfl <;> exact rfl
    | text => exact rfl
    | list hsame =>
      simp only [operatorType, gives_ite]
      refine Or.inr ⟨by simp [Ty.same, Ty.number], Or.inr ⟨by simp [Ty.same, Ty.text], ?_⟩⟩
      exact Or.inl ⟨hsame, gives_pure.mpr ⟨rfl, rfl⟩⟩
    | comparison hop =>
      simp only [List.mem_cons, List.not_mem_nil, or_false] at hop
      rcases hop with rfl | rfl | rfl | rfl | rfl | rfl <;> exact rfl

theorem callee_gives {outer : ScopeChain} {e : Expr} {name : String} {s s' : CheckState}
    {r : FnType × List String} :
    Gives (callee outer e name) s r s' ↔
      ScopeChain.callee? (s.scope :: outer) name = some r ∧ s' = s := by
  simp only [callee, chain, gives_bind, gives_get, gives_pure, ScopeChain.callee?]
  constructor
  · rintro ⟨c, s₁, ⟨s₂, s₃, ⟨rfl, rfl⟩, rfl, rfl⟩, h⟩
    split at h
    · next f hf =>
      -- A function hides a variable of the same name in a call.
      rw [gives_pure] at h
      simp [hf, h]
    · next hnone =>
      split at h
      · next t ht =>
        split at h
        · next f hf =>
          rw [gives_pure] at h
          simp [hnone, ht, hf, h]
        · exact absurd h not_gives_problem
      · exact absurd h not_gives_problem
  · rintro ⟨h, rfl⟩
    refine ⟨_, _, ⟨_, _, ⟨rfl, rfl⟩, rfl, rfl⟩, ?_⟩
    split at h
    · next f hf =>
      cases h
      simp [hf]
    · next hnone =>
      rcases Option.bind_eq_some_iff.mp h with ⟨t, ht, hr⟩
      rcases Option.map_eq_some_iff.mp hr with ⟨f, hf, rfl⟩
      simp [hnone, ht, hf]

theorem signature_gives {outer : ScopeChain} {e : Expr} {name : String} {n : Nat} {f : FnType}
    {s s' : CheckState} :
    Gives (signature outer e name n) s f s' ↔
      Signed outer s.setting name n f s'.setting ∧ s'.record = s.record := by
  simp only [signature, gives_bind, callee_gives, gives_get, gives_set]
  constructor
  · rintro ⟨⟨g, typeParams⟩, s₁, ⟨hcallee, rfl⟩, s₂, s₃, ⟨rfl, rfl⟩, _, s₄, rfl, h⟩
    rcases gives_ite.mp h with ⟨hacc, h⟩ | ⟨-, h⟩
    · rcases gives_pure.mp h with ⟨rfl, rfl⟩
      exact ⟨⟨g, typeParams, hcallee, rfl, rfl, hacc⟩, rfl⟩
    · exact absurd h not_gives_problem
  · rintro ⟨⟨g, typeParams, hcallee, hinst, hscope, hacc⟩, hrecord⟩
    have hinst' : s.supply.instantiateFn g typeParams = (f, s'.supply) := hinst
    have hs' : s' = { s with supply := s'.supply } := by
      rcases s' with ⟨scope', supply', record'⟩
      cases hscope
      cases hrecord
      rfl
    refine ⟨(g, typeParams), s, ⟨hcallee, rfl⟩, s, s, ⟨rfl, rfl⟩, ⟨⟩, _, rfl, ?_⟩
    simp only [hinst', gives_ite]
    exact Or.inl ⟨hacc, gives_pure.mpr ⟨rfl, hs'⟩⟩

theorem fresh_gives {stem : String} {t : Ty} {s s' : CheckState} :
    Gives (fresh stem) s t s' ↔
      t = (s.setting.fresh stem).1 ∧ s' = { s with supply := (s.supply.fresh stem).2 } := by
  simp only [fresh, gives_bind, gives_get, gives_set, gives_pure]
  constructor
  · rintro ⟨s₁, s₂, ⟨rfl, rfl⟩, _, s₃, rfl, rfl, rfl⟩
    exact ⟨rfl, rfl⟩
  · rintro ⟨rfl, rfl⟩
    exact ⟨s, s, ⟨rfl, rfl⟩, ⟨⟩, _, rfl, rfl, rfl⟩

theorem matchArgs_gives {e : Expr} {name : String} {f : FnType} {i : Nat} {ts : List Ty}
    {b₀ b : Subst} {s s' : CheckState} :
    Gives (matchArgs e name f i ts b₀) s b s' ↔ ArgsMatch f i ts b₀ b ∧ s' = s := by
  induction ts generalizing i b₀ with
  | nil =>
    rw [matchArgs, gives_pure]
    constructor
    · rintro ⟨rfl, rfl⟩
      exact ⟨.nil, rfl⟩
    · rintro ⟨h, rfl⟩
      cases h
      exact ⟨rfl, rfl⟩
  | cons t ts ih =>
    rw [matchArgs]
    constructor
    · intro h
      split at h
      · next hp =>
        rcases ih.mp h with ⟨hrest, rfl⟩
        exact ⟨.extra hp hrest, rfl⟩
      · next p hp =>
        split at h
        · exact absurd h not_gives_throw
        · next b₁ hmatch =>
          rcases ih.mp h with ⟨hrest, rfl⟩
          exact ⟨.arg hp hmatch hrest, rfl⟩
        · exact absurd h not_gives_problem
    · rintro ⟨h, rfl⟩
      cases h with
      | extra hp hrest =>
        simp only [hp]
        exact ih.mpr ⟨hrest, rfl⟩
      | arg hp hmatch hrest =>
        simp only [hp, hmatch]
        exact ih.mpr ⟨hrest, rfl⟩

/-! ## The checker follows the rules -/

section Sound

variable {outer : ScopeChain}

/-- Checking the expression follows the rules, wherever it stands. -/
def FollowsRules (outer : ScopeChain) (e : Expr) : Prop :=
  ∀ {path : Path} {s s' : CheckState} {t : Ty}, Gives (infer outer path e) s t s' →
    Typed outer s.setting e t s'.setting

theorem condition_gives {c : Expr} {t : Ty} {s s' : CheckState} {u : PUnit} :
    Gives (infer.condition c t) s u s' ↔ t = .boolean ∧ s' = s := by
  simp only [infer.condition, gives_ite, Ty.same_boolean_iff, gives_pure, not_gives_problem,
    and_false, or_false, true_and]

theorem inferAll_typed {es : List Expr} (hes : ∀ e ∈ es, FollowsRules outer e) {path : Path}
    {i : Nat} {s s' : CheckState} {ts : List Ty} (h : Gives (inferAll outer path i es) s ts s') :
    TypedAll outer s.setting es ts s'.setting := by
  induction es generalizing i s ts with
  | nil =>
    rw [inferAll, gives_pure] at h
    rcases h with ⟨rfl, rfl⟩
    exact .nil
  | cons e es ih =>
    simp only [inferAll, gives_bind, gives_pure] at h
    rcases h with ⟨t, s₁, he, ts, s₂, hrest, rfl, rfl⟩
    exact .cons (hes e (by simp) he) (ih (fun x hx => hes x (by simp [hx])) hrest)

theorem inferElems_typed {es : List Expr} (hes : ∀ e ∈ es, FollowsRules outer e) {path : Path}
    {whole : Expr} {first : Ty} {i : Nat} {s s' : CheckState} {u : PUnit}
    (h : Gives (inferElems outer path whole first i es) s u s') :
    TypedElems outer first s.setting es s'.setting := by
  induction es generalizing i s with
  | nil =>
    rw [inferElems, gives_pure] at h
    rcases h with ⟨-, rfl⟩
    exact .nil
  | cons e es ih =>
    simp only [inferElems, gives_bind, gives_ite, not_gives_problem, and_false, or_false] at h
    rcases h with ⟨t, s₁, he, hsame, hrest⟩
    exact .cons (hes e (by simp) he) hsame (ih (fun x hx => hes x (by simp [hx])) hrest)

theorem inferEntries_typed {es : List (Expr × Expr)}
    (hes : ∀ e ∈ es, FollowsRules outer e.1 ∧ FollowsRules outer e.2) {path : Path}
    {whole : Expr} {key value : Ty} {i : Nat} {s s' : CheckState} {u : PUnit}
    (h : Gives (inferEntries outer path whole key value i es) s u s') :
    TypedEntries outer key value s.setting es s'.setting := by
  induction es generalizing i s with
  | nil =>
    rw [inferEntries, gives_pure] at h
    rcases h with ⟨-, rfl⟩
    exact .nil
  | cons e es ih =>
    rcases e with ⟨k, v⟩
    simp only [inferEntries, gives_bind, gives_ite, not_gives_problem, and_false, false_or,
      Bool.not_eq_true', Bool.not_eq_false] at h
    rcases h with ⟨kt, s₁, hk, vt, s₂, hv, hkey, hvalue, hrest⟩
    have hhead := hes (k, v) (by simp)
    exact .cons (hhead.1 hk) (hhead.2 hv) hkey hvalue
      (ih (fun x hx => hes x (by simp [hx])) hrest)

/-- What the checker accepts has a derivation. -/
theorem infer_typed (e : Expr) : FollowsRules outer e := by
  induction e with
  | number x =>
    intro path s s' t h
    simp only [infer, gives_bind, note, gives_modify, gives_pure] at h
    rcases h with ⟨_, s₁, ⟨rfl, rfl⟩, _, s₂, rfl, rfl, rfl⟩
    exact .number
  | text x =>
    intro path s s' t h
    simp only [infer, gives_bind, note, gives_modify, gives_pure] at h
    rcases h with ⟨_, s₁, ⟨rfl, rfl⟩, _, s₂, rfl, rfl, rfl⟩
    exact .text
  | bool b =>
    intro path s s' t h
    simp only [infer, gives_bind, note, gives_modify, gives_pure] at h
    rcases h with ⟨_, s₁, ⟨rfl, rfl⟩, _, s₂, rfl, rfl, rfl⟩
    exact .bool
  | ref name =>
    intro path s s' t h
    simp only [infer, chain, gives_bind, note, gives_get, gives_pure] at h
    rcases h with ⟨c, s₁, ⟨s₂, s₃, ⟨rfl, rfl⟩, rfl, rfl⟩, h⟩
    split at h
    · next sym hsym =>
      simp only [gives_bind, gives_modify, gives_pure] at h
      rcases h with ⟨_, s₁, ⟨rfl, rfl⟩, _, s₂, rfl, rfl, rfl⟩
      exact .ref hsym
    · simp [gives_bind] at h
  | assign name value ih =>
    intro path s s' t h
    simp only [infer, gives_bind, note, gives_modify, gives_pure] at h
    rcases h with ⟨t', s₁, hv, _, s₂, rfl, _, s₃, ⟨rfl, rfl⟩, _, s₄, rfl, rfl, rfl⟩
    exact .assign (ih hv)
  | binary op l r ihl ihr =>
    intro path s s' t h
    simp only [infer, gives_bind, note, gives_modify, gives_pure, operatorType_gives] at h
    rcases h with ⟨lt, s₁, hl, rt, s₂, hr, t', s₃, ⟨hop, rfl⟩, _, s₄, rfl, rfl, rfl⟩
    have hright := ihr hr
    exact .binary (ihl hl) hright hop
  | call name args ih =>
    intro path s s' t h
    -- The callee is looked up before its arguments are checked.
    simp only [infer, gives_bind, note, gives_modify, gives_pure, signature_gives,
      matchArgs_gives] at h
    rcases h with ⟨f, s₁, ⟨hf, -⟩, ts, s₂, hts, b, s₃, ⟨hb, rfl⟩, _, s₄, ⟨rfl, rfl⟩, _, s₅, rfl,
      rfl, rfl⟩
    have hargs := inferAll_typed ih hts
    exact .call hf hargs hb
  | ite c t f ihc iht ihf =>
    intro path s s' t h
    simp only [infer, gives_bind, note, gives_modify, gives_pure, condition_gives, gives_ite] at h
    -- The branches are checked one after the other in one scope.
    rcases h with ⟨ct, s₁, hc, _, s₂, ⟨rfl, rfl⟩, tt, s₃, ht, ft, s₄, hf, h⟩
    rcases h with ⟨hsame, _, s₅, ⟨rfl, rfl⟩, _, s₆, rfl, rfl, rfl⟩ | ⟨-, _, s₅, h, -⟩
    · have helse := ihf hf
      exact .ite (ihc hc) (iht ht) helse hsame
    · exact absurd h not_gives_problem
  | loop c b ihc ihb =>
    intro path s s' t h
    simp only [infer, gives_bind, note, gives_modify, gives_pure, condition_gives] at h
    rcases h with ⟨ct, s₁, hc, _, s₂, ⟨rfl, rfl⟩, bt, s₃, hb, _, s₄, ⟨rfl, rfl⟩, _, s₅, rfl, rfl,
      rfl⟩
    have hbody := ihb hb
    exact .loop (ihc hc) hbody
  | seq bodies ih =>
    intro path s s' t h
    simp only [infer, gives_bind, note, gives_modify, gives_pure] at h
    rcases h with ⟨ts, s₁, hts, _, s₂, ⟨rfl, rfl⟩, _, s₃, rfl, rfl, rfl⟩
    have hbodies := inferAll_typed ih hts
    exact .seq hbodies
  | list elems ih =>
    intro path s s' t h
    cases elems with
    | nil =>
      simp only [infer, fresh_gives, gives_bind, note, gives_modify, gives_pure] at h
      rcases h with ⟨_, s₁, ⟨rfl, rfl⟩, _, s₂, ⟨rfl, rfl⟩, _, s₃, rfl, rfl, rfl⟩
      exact .emptyList
    | cons e es =>
      simp only [infer, gives_bind, note, gives_modify, gives_pure] at h
      rcases h with ⟨t', s₁, he, _, s₂, hes, _, s₃, ⟨rfl, rfl⟩, _, s₄, rfl, rfl, rfl⟩
      have hrest := inferElems_typed (fun x hx => ih x (by simp [hx])) hes
      exact .list (ih e (by simp) he) hrest
  | dict entries ih =>
    intro path s s' t h
    cases entries with
    | nil =>
      simp only [infer, fresh_gives, gives_bind, note, gives_modify, gives_pure] at h
      rcases h with ⟨_, s₁, ⟨rfl, rfl⟩, _, s₂, ⟨rfl, rfl⟩, _, s₃, ⟨rfl, rfl⟩, _, s₄, rfl, rfl, rfl⟩
      exact .emptyDict
    | cons e es =>
      rcases e with ⟨k, v⟩
      simp only [infer, gives_bind, note, gives_modify, gives_pure] at h
      rcases h with ⟨kt, s₁, hk, vt, s₂, hv, _, s₃, hes, _, s₄, ⟨rfl, rfl⟩, _, s₅, rfl, rfl, rfl⟩
      have hhead := ih (k, v) (by simp)
      have hrest := inferEntries_typed (fun x hx => ih x (by simp [hx])) hes
      exact .dict (hhead.1 hk) (hhead.2 hv) hrest

end Sound

/-! ## The checker accepts what the rules derive -/

section Complete

variable {outer : ScopeChain}

/-- Checking the expression succeeds wherever the rules give it a type. -/
def AcceptsTyped (outer : ScopeChain) (e : Expr) : Prop :=
  ∀ {σ σ' : Setting} {t : Ty}, Typed outer σ e t σ' → ∀ (path : Path) (record : List (Path × Ty)),
    ∃ record', Gives (infer outer path e) (σ.state record) t (σ'.state record')

theorem inferAll_complete {es : List Expr} (hes : ∀ e ∈ es, AcceptsTyped outer e)
    {σ σ' : Setting} {ts : List Ty} (h : TypedAll outer σ es ts σ') (path : Path) (i : Nat)
    (record : List (Path × Ty)) :
    ∃ record', Gives (inferAll outer path i es) (σ.state record) ts (σ'.state record') := by
  induction es generalizing i σ ts record with
  | nil =>
    cases h
    exact ⟨record, gives_pure.mpr ⟨rfl, rfl⟩⟩
  | cons e es ih =>
    cases h with
    | cons he hrest =>
      rcases hes e (by simp) he (path ++ [i]) record with ⟨r₁, h₁⟩
      rcases ih (fun x hx => hes x (by simp [hx])) hrest (i + 1) r₁ with ⟨r₂, h₂⟩
      refine ⟨r₂, ?_⟩
      simp only [inferAll, gives_bind, gives_pure]
      exact ⟨_, _, h₁, _, _, h₂, rfl, rfl⟩

theorem inferElems_complete {es : List Expr} (hes : ∀ e ∈ es, AcceptsTyped outer e)
    {first : Ty} {σ σ' : Setting} (h : TypedElems outer first σ es σ') (path : Path)
    (whole : Expr) (i : Nat) (record : List (Path × Ty)) :
    ∃ record', Gives (inferElems outer path whole first i es) (σ.state record) ⟨⟩
      (σ'.state record') := by
  induction es generalizing i σ record with
  | nil =>
    cases h
    exact ⟨record, gives_pure.mpr ⟨rfl, rfl⟩⟩
  | cons e es ih =>
    cases h with
    | cons he hsame hrest =>
      rcases hes e (by simp) he (path ++ [i]) record with ⟨r₁, h₁⟩
      rcases ih (fun x hx => hes x (by simp [hx])) hrest (i + 1) r₁ with ⟨r₂, h₂⟩
      refine ⟨r₂, ?_⟩
      simp only [inferElems, gives_bind, gives_ite]
      exact ⟨_, _, h₁, Or.inl ⟨hsame, h₂⟩⟩

theorem inferEntries_complete {es : List (Expr × Expr)}
    (hes : ∀ e ∈ es, AcceptsTyped outer e.1 ∧ AcceptsTyped outer e.2) {key value : Ty}
    {σ σ' : Setting} (h : TypedEntries outer key value σ es σ') (path : Path) (whole : Expr)
    (i : Nat) (record : List (Path × Ty)) :
    ∃ record', Gives (inferEntries outer path whole key value i es) (σ.state record) ⟨⟩
      (σ'.state record') := by
  induction es generalizing i σ record with
  | nil =>
    cases h
    exact ⟨record, gives_pure.mpr ⟨rfl, rfl⟩⟩
  | cons e es ih =>
    cases h with
    | cons hk hv hkey hvalue hrest =>
      have hhead := hes _ (List.mem_cons_self ..)
      rcases hhead.1 hk (path ++ [i]) record with ⟨r₁, h₁⟩
      rcases hhead.2 hv (path ++ [i + 1]) r₁ with ⟨r₂, h₂⟩
      rcases ih (fun x hx => hes x (by simp [hx])) hrest (i + 2) r₂ with ⟨r₃, h₃⟩
      refine ⟨r₃, ?_⟩
      simp only [inferEntries, gives_bind, gives_ite]
      exact ⟨_, _, h₁, _, _, h₂, Or.inr ⟨by simp [hkey], Or.inr ⟨by simp [hvalue], h₃⟩⟩⟩

/-- What has a derivation is accepted. -/
theorem infer_complete (e : Expr) : AcceptsTyped outer e := by
  induction e with
  | number x =>
    intro σ σ' t h path record
    cases h
    exact ⟨_, rfl⟩
  | text x =>
    intro σ σ' t h path record
    cases h
    exact ⟨_, rfl⟩
  | bool b =>
    intro σ σ' t h path record
    cases h
    exact ⟨_, rfl⟩
  | ref name =>
    intro σ σ' t h path record
    cases h with
    | @ref _ _ sym hsym =>
      refine ⟨(path, sym.type) :: record, ?_⟩
      simp only [infer, chain, gives_bind, note, gives_get, gives_pure]
      refine ⟨_, _, ⟨_, _, ⟨rfl, rfl⟩, rfl, rfl⟩, ?_⟩
      simp only [Setting.state, hsym, gives_bind, gives_pure, gives_modify]
      exact ⟨_, _, ⟨rfl, rfl⟩, ⟨⟩, _, rfl, rfl, rfl⟩
  | assign name value ih =>
    intro σ σ' t h path record
    cases h with
    | assign hv =>
      rcases ih hv (path ++ [0]) record with ⟨r₁, h₁⟩
      refine ⟨(path, t) :: r₁, ?_⟩
      simp only [infer, gives_bind, note, gives_modify, gives_pure]
      exact ⟨_, _, h₁, ⟨⟩, _, rfl, _, _, ⟨rfl, rfl⟩, ⟨⟩, _, rfl, rfl, rfl⟩
  | binary op l r ihl ihr =>
    intro σ σ' t h path record
    cases h with
    | binary hl hr hop =>
      rcases ihl hl (path ++ [0]) record with ⟨r₁, h₁⟩
      rcases ihr hr (path ++ [1]) r₁ with ⟨r₂, h₂⟩
      refine ⟨(path, t) :: r₂, ?_⟩
      simp only [infer, gives_bind, note, gives_modify, gives_pure, operatorType_gives]
      exact ⟨_, _, h₁, _, _, h₂, _, _, ⟨hop, rfl⟩, ⟨⟩, _, rfl, rfl, rfl⟩
  | call name args ih =>
    intro σ σ' t h path record
    cases h with
    | @call _ σ₁ _ _ _ f ts b hf hts hb =>
      rcases inferAll_complete ih hts path 0 record with ⟨r₁, h₁⟩
      refine ⟨(path, f.result.apply b) :: r₁, ?_⟩
      simp only [infer, gives_bind, note, gives_modify, gives_pure, signature_gives,
        matchArgs_gives]
      exact ⟨f, σ₁.state record, ⟨hf, rfl⟩, ts, _, h₁, b, _, ⟨hb, rfl⟩, _, _, ⟨rfl, rfl⟩, ⟨⟩, _,
        rfl, rfl, rfl⟩
  | ite c e₁ e₂ ihc iht ihf =>
    intro σ σ' t h path record
    cases h with
    | ite hc ht hf hsame =>
      rcases ihc hc (path ++ [0]) record with ⟨r₁, h₁⟩
      rcases iht ht (path ++ [1]) r₁ with ⟨r₂, h₂⟩
      rcases ihf hf (path ++ [2]) r₂ with ⟨r₃, h₃⟩
      refine ⟨(path, t) :: r₃, ?_⟩
      simp only [infer, gives_bind, note, gives_modify, gives_pure, condition_gives, gives_ite]
      refine ⟨_, _, h₁, ⟨⟩, _, ⟨rfl, rfl⟩, _, _, h₂, _, _, h₃, Or.inl ⟨hsame, ?_⟩⟩
      exact ⟨_, _, ⟨rfl, rfl⟩, ⟨⟩, _, rfl, rfl, rfl⟩
  | loop c b ihc ihb =>
    intro σ σ' t h path record
    cases h with
    | loop hc hb =>
      rcases ihc hc (path ++ [0]) record with ⟨r₁, h₁⟩
      rcases ihb hb (path ++ [1]) r₁ with ⟨r₂, h₂⟩
      refine ⟨(path, .void) :: r₂, ?_⟩
      simp only [infer, gives_bind, note, gives_modify, gives_pure, condition_gives]
      exact ⟨_, _, h₁, ⟨⟩, _, ⟨rfl, rfl⟩, _, _, h₂, _, _, ⟨rfl, rfl⟩, ⟨⟩, _, rfl, rfl, rfl⟩
  | seq bodies ih =>
    intro σ σ' t h path record
    cases h with
    | @seq _ _ _ ts hts =>
      rcases inferAll_complete ih hts path 0 record with ⟨r₁, h₁⟩
      refine ⟨(path, ts.getLast?.getD .void) :: r₁, ?_⟩
      simp only [infer, gives_bind, note, gives_modify, gives_pure]
      exact ⟨_, _, h₁, _, _, ⟨rfl, rfl⟩, ⟨⟩, _, rfl, rfl, rfl⟩
  | list elems ih =>
    intro σ σ' t h path record
    cases h with
    | emptyList =>
      refine ⟨(path, .list (σ.fresh "T").1) :: record, ?_⟩
      simp only [infer, fresh_gives, gives_bind, note, gives_modify, gives_pure]
      exact ⟨_, _, ⟨rfl, rfl⟩, _, _, ⟨rfl, rfl⟩, ⟨⟩, _, rfl, rfl, rfl⟩
    | @list _ _ _ _ _ t he hes =>
      rcases ih _ (by simp) he (path ++ [0]) record with ⟨r₁, h₁⟩
      rcases inferElems_complete (fun x hx => ih x (by simp [hx])) hes path _ 1 r₁ with ⟨r₂, h₂⟩
      refine ⟨(path, .list t) :: r₂, ?_⟩
      simp only [infer, gives_bind, note, gives_modify, gives_pure]
      exact ⟨_, _, h₁, ⟨⟩, _, h₂, _, _, ⟨rfl, rfl⟩, ⟨⟩, _, rfl, rfl, rfl⟩
  | dict entries ih =>
    intro σ σ' t h path record
    cases h with
    | emptyDict =>
      refine ⟨(path, .dict (σ.fresh "K").1 ((σ.fresh "K").2.fresh "V").1) :: record, ?_⟩
      simp only [infer, fresh_gives, gives_bind, note, gives_modify, gives_pure]
      exact ⟨_, _, ⟨rfl, rfl⟩, _, _, ⟨rfl, rfl⟩, _, _, ⟨rfl, rfl⟩, ⟨⟩, _, rfl, rfl, rfl⟩
    | @dict _ _ _ _ _ _ _ kt vt hk hv hes =>
      have hhead := ih _ (List.mem_cons_self ..)
      rcases hhead.1 hk (path ++ [0]) record with ⟨r₁, h₁⟩
      rcases hhead.2 hv (path ++ [1]) r₁ with ⟨r₂, h₂⟩
      rcases inferEntries_complete (fun x hx => ih x (by simp [hx])) hes path _ 2 r₂ with
        ⟨r₃, h₃⟩
      refine ⟨(path, .dict kt vt) :: r₃, ?_⟩
      simp only [infer, gives_bind, note, gives_modify, gives_pure]
      exact ⟨_, _, h₁, _, _, h₂, ⟨⟩, _, h₃, _, _, ⟨rfl, rfl⟩, ⟨⟩, _, rfl, rfl, rfl⟩

end Complete

end Check

end TreeLang
