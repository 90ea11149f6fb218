import TreeLang.Proofs.Soundness.Calls

/-!
# Soundness of the monomorphic core

The variables of a run have values of the types that the checker's scope gives them (`Models`). This
is kept by every expression of the core, by induction on the bound on nesting: one level of
evaluation keeps it if the next level does (`step_sound`), and the bodies of functions are evaluated
on the next level. Main statement: `eval_sound`, from which the soundness of programs follows.
-/

namespace TreeLang

/-- Runs of the core fail with run-time errors only, and may need more turns than they are given. -/
def coreEndings : Endings := ⟨fun d => d.code = .runtimeError, True⟩

/-! ## Variables -/

/-- The variables are those of the scope, and each has a value of its type. -/
def Models (m : Machine) (frame : Table Value) (vars : Table Ty) : Prop :=
  ∀ x, Option.Rel (Value.Fits m.Knows) (frame.get? x) (vars.get? x)

section Variables

variable {m : Machine} {frame : Table Value} {vars vars' : Table Ty}

theorem Models.insert (h : Models m frame vars) {name : String} {v : Value} {t : Ty}
    (hv : v.Fits m.Knows t) : Models m (frame.insert name v) (vars.insert name t) := by
  intro x
  rw [Table.get?_insert, Table.get?_insert]
  split
  · exact .some hv
  · exact h x

theorem Models.of_eq (h : Models m frame vars) (heq : ∀ x, vars'.get? x = vars.get? x) :
    Models m frame vars' := by
  intro x
  rw [heq x]
  exact h x

theorem Models.get? (h : Models m frame vars) {x : String} {t : Ty} (hx : vars.get? x = some t) :
    ∃ v, frame.get? x = some v ∧ v.Fits m.Knows t := by
  have hrel := h x
  rw [hx] at hrel
  cases hget : frame.get? x with
  | none =>
    rw [hget] at hrel
    cases hrel
  | some v =>
    rw [hget] at hrel
    cases hrel with
    | some hv => exact ⟨v, rfl, hv⟩

theorem Models.get?_none (h : Models m frame vars) {x : String} (hx : vars.get? x = none) :
    frame.get? x = none := by
  have hrel := h x
  rw [hx] at hrel
  cases hget : frame.get? x with
  | none => rfl
  | some v =>
    rw [hget] at hrel
    cases hrel

/-- Parameters and arguments are bound in step. -/
theorem Models.define_params {params : List Param} {args : List Value} {s : Scope}
    (h : Models m frame s.vars)
    (hargs : List.Forall₂ (Value.Fits m.Knows) args (params.map (·.type))) :
    Models m (((params.map (·.name)).zip args).foldl (fun t e => t.insert e.1 e.2) frame)
      (params.foldl (fun s p => s.define p.name p.type) s).vars := by
  induction params generalizing args frame s with
  | nil => exact h
  | cons p params ih =>
    cases hargs with
    | cons hv hrest => exact ih (s := s.define p.name p.type) (h.insert hv) hrest

end Variables

/-! ## Function bodies -/

/-- A function body of the core starts with ground types. -/
theorem Mono.bodyScope {globals : Scope} {d : FunctionDef} (hd : d.signature.toTy.Ground)
    (supply : Supply) :
    Mono globals.funcs [globals, Scope.prelude] ⟨Checker.bodyScope d, supply⟩ := by
  refine ⟨Sees.bodyScope globals d, fun x t hx => ?_⟩
  rcases bodyScope_vars hx with ⟨p, hp, -, rfl⟩ | hnone
  · exact (Ty.ground_fn.mp hd).1 p.type (List.mem_map_of_mem hp)
  · cases hnone

/-- A machine that runs a checked program of the core; `globals` is the checker's global scope. -/
structure CoreMachine (m : Machine) (globals : Scope) : Prop extends m.Matches globals.funcs where
  mono : MonoFuncs globals.funcs
  bodies : ∀ f, m.Knows (.function f) → ∃ supply t σ,
    Typed [globals, Scope.prelude] ⟨Checker.bodyScope f.definition, supply⟩ f.definition.body t σ ∧
      t.same f.definition.result = true ∧
      f.definition.body.inCore [globals, Scope.prelude] false
        ⟨Checker.bodyScope f.definition, supply⟩ = true

/-! ## One level of evaluation -/

/-- Evaluating an expression of the core gives a value of its type and keeps the variables in step
with the checker's scope. -/
def EvalSound (m : Machine) (globals : Scope) (rec : Expr → Exec Value) : Prop :=
  ∀ {outer : ScopeChain} {branch : Bool} {σ σ' : Setting} {e : Expr} {t : Ty},
    Mono globals.funcs outer σ → Typed outer σ e t σ' → e.inCore outer branch σ = true →
    Exec.Ensures coreEndings (Models m · σ.scope.vars) (rec e) fun v f =>
      v.Fits m.Knows t ∧ Models m f σ'.scope.vars

section Step

variable {m : Machine} {globals : Scope} {rec : Expr → Exec Value} {outer : ScopeChain}
  {branch : Bool} {σ σ' : Setting}

theorem reference_sound (hm : CoreMachine m globals) (hσ : Mono globals.funcs outer σ)
    {name : String} {sym : Symbol}
    (hfind : ScopeChain.find? (σ.scope :: outer) name = some sym) (e : Expr) :
    Exec.Ensures coreEndings (Models m · σ.scope.vars) (Exec.reference m e name) fun v f =>
      v.Fits m.Knows sym.type ∧ Models m f σ.scope.vars := by
  intro s hs
  rcases hσ.sees.find_cases hfind with ⟨t, ht, rfl⟩ | ⟨hvar, f, hf, rfl⟩ | ⟨hvar, hf, p, hp, rfl⟩
  · rcases hs.get? ht with ⟨v, hv, hfits⟩
    simp only [Exec.reference, hv]
    exact ⟨hfits, hs⟩
  · rcases hm.function?_user hf with ⟨u, hu, hknown, rfl⟩
    simp only [Exec.reference, hs.get?_none hvar, hu]
    exact ⟨⟨hknown, rfl⟩, hs⟩
  · have hfun := hm.function?_other hf
    rw [hp] at hfun
    simp only [Exec.reference, hs.get?_none hvar, hfun]
    exact ⟨⟨⟨p, rfl⟩, rfl⟩, hs⟩

/-- The callee of a call can be called as the checker expects. -/
theorem callee_sound (hm : CoreMachine m globals) (hσ : Mono globals.funcs outer σ)
    {name : String} {g : FnType} {typeParams : List String} {τ : String → Ty} {ts : List Ty}
    (hcallee : ScopeChain.callee? (σ.scope :: outer) name = some (g, typeParams))
    (hcore : (ScopeChain.findFunction name (σ.scope :: outer)).all FnSymbol.inCore = true)
    (htakes : g.Takes τ ts) (e : Expr) :
    Exec.Ensures coreEndings (Models m · σ.scope.vars) (Exec.callee m e name) fun v f =>
      CanCall m v ts (g.result.bind τ) ∧ Models m f σ.scope.vars := by
  intro s hs
  rcases hσ.sees.callee_cases hcallee with ⟨f, hf, rfl⟩ | ⟨p, hf, hp, rfl⟩ | ⟨hf, hp, hvar⟩
  · rcases hm.function?_user hf with ⟨u, hu, hknown, rfl⟩
    simp only [Exec.callee, hu]
    have hfits : (Value.function u).Fits m.Knows u.symbol.type.toTy := ⟨hknown, rfl⟩
    exact ⟨hfits.canCall (hm.mono name _ hf).2 htakes, hs⟩
  · have hfun := hm.function?_other hf
    rw [hp] at hfun
    simp only [Exec.callee, hfun]
    refine ⟨.builtin ?_ htakes, hs⟩
    rw [hσ.sees.function name, hf, hp] at hcore
    intro hpartial
    have hname : Primitive.partials.any (·.name == p.name) = true :=
      List.any_eq_true.mpr ⟨p, hpartial, by simp⟩
    simp [FnSymbol.inCore, FnSymbol.ofPrimitive, hname] at hcore
  · have hfun := hm.function?_other hf
    rw [hp] at hfun
    rcases hs.get? hvar with ⟨v, hv, hfits⟩
    have hcallable : v.isCallable = true := Value.Fits.isCallable hfits
    simp only [Exec.callee, hfun, Option.map_none, hv, hcallable, if_true]
    exact ⟨hfits.canCall (hσ.vars name _ hvar) htakes, hs⟩

theorem evalAll_sound (hm : CoreMachine m globals) (hrec : EvalSound m globals rec)
    {es : List Expr} {ts : List Ty} {done : List Value} (hσ : Mono globals.funcs outer σ)
    (h : TypedAll outer σ es ts σ') (hcore : Expr.inCoreAll outer branch σ es = true) :
    Exec.Ensures coreEndings (Models m · σ.scope.vars) (Exec.evalAll rec es done) fun vs f =>
      (∃ ws, vs = done.reverse ++ ws ∧ List.Forall₂ (Value.Fits m.Knows) ws ts) ∧
        Models m f σ'.scope.vars := by
  induction es generalizing σ ts done with
  | nil =>
    cases h
    exact Exec.Ensures.pure fun f hf => ⟨⟨[], by simp, .nil⟩, hf⟩
  | cons e es ih =>
    cases h with
    | cons he hes =>
      rw [Expr.inCoreAll, he.after_eq, Bool.and_eq_true] at hcore
      have hkept := (Typed.core hm.mono e hσ he hcore.1).2
      rw [Exec.evalAll_cons]
      refine (hrec hσ he hcore.1).bind_fact fun v hv => ?_
      refine (ih hkept.mono hes hcore.2).post ?_
      rintro vs f ⟨⟨ws, rfl, hws⟩, hf⟩
      exact ⟨⟨v :: ws, by simp, .cons hv hws⟩, hf⟩

theorem evalSeq_sound (hm : CoreMachine m globals) (hrec : EvalSound m globals rec)
    {es : List Expr} {ts : List Ty} {last : Value} {lastType : Ty}
    (hσ : Mono globals.funcs outer σ) (h : TypedAll outer σ es ts σ')
    (hcore : Expr.inCoreAll outer branch σ es = true) (hlast : last.Fits m.Knows lastType) :
    Exec.Ensures coreEndings (Models m · σ.scope.vars) (Exec.evalSeq rec es last) fun v f =>
      v.Fits m.Knows (ts.getLast?.getD lastType) ∧ Models m f σ'.scope.vars := by
  induction es generalizing σ ts last lastType with
  | nil =>
    cases h
    exact Exec.Ensures.pure fun f hf => ⟨hlast, hf⟩
  | cons e es ih =>
    cases h with
    | cons he hes =>
      rw [Expr.inCoreAll, he.after_eq, Bool.and_eq_true] at hcore
      have hkept := (Typed.core hm.mono e hσ he hcore.1).2
      rw [Exec.evalSeq_cons, Checker.getLast?_cons_getD]
      exact (hrec hσ he hcore.1).bind_fact fun v hv => ih hkept.mono hes hcore.2 hv

/-- All keys and values of a dictionary under construction have their types. -/
def EntriesFit (m : Machine) (kt vt : Ty) (d : Dict) : Prop :=
  ∀ e ∈ d, Value.keyType e.1 = kt ∧ e.2.Fits m.Knows vt

theorem Ty.isKeyType_iff {t : Ty} : t.isKeyType = true ↔ t ∈ Value.keyTypes := by
  simp [Ty.isKeyType, Value.keyTypes, Ty.same_number_iff, Ty.same_text_iff, Ty.same_boolean_iff,
    or_assoc]

/-- One entry is evaluated, key before value, and then `next` goes on. -/
theorem entry_sound (hm : CoreMachine m globals) (hrec : EvalSound m globals rec) {k v : Expr}
    {kt vt : Ty} {σ₁ : Setting} {done : Dict} {next : Dict → Exec Dict}
    {Q : Dict → Table Value → Prop} (hσ : Mono globals.funcs outer σ)
    (hk : Typed outer σ k kt σ₁) (hv : Typed outer σ₁ v vt σ')
    (hck : k.inCore outer branch σ = true) (hcv : v.inCore outer branch σ₁ = true)
    (hkey : kt.isKeyType = true) (hdone : EntriesFit m kt vt done)
    (hnext : ∀ d, EntriesFit m kt vt d →
      Exec.Ensures coreEndings (Models m · σ'.scope.vars) (next d) Q) :
    Exec.Ensures coreEndings (Models m · σ.scope.vars)
      (rec k >>= fun key => rec v >>= fun value => Exec.setEntry k key value done >>= next) Q := by
  have hkept := (Typed.core hm.mono k hσ hk hck).2
  refine (hrec hσ hk hck).bind_fact fun key hkey' => ?_
  refine (hrec hkept.mono hv hcv).bind_fact fun value hvalue => ?_
  rcases hkey'.key (Ty.isKeyType_iff.mp hkey) with ⟨id, hid, htype⟩
  simp only [Exec.setEntry, hid]
  exact hnext _ (Dict.set_induct (K := fun k => Value.keyType k = kt)
    (V := fun v => v.Fits m.Knows vt) hdone htype hvalue)

theorem evalEntries_sound (hm : CoreMachine m globals) (hrec : EvalSound m globals rec)
    {es : List (Expr × Expr)} {kt vt : Ty} {done : Dict} (hσ : Mono globals.funcs outer σ)
    (h : TypedEntries outer kt vt σ es σ') (hcore : Expr.inCoreEntries outer branch σ es = true)
    (hdone : EntriesFit m kt vt done) :
    Exec.Ensures coreEndings (Models m · σ.scope.vars) (Exec.evalEntries rec es done) fun d f =>
      EntriesFit m kt vt d ∧ Models m f σ'.scope.vars := by
  induction es generalizing σ done with
  | nil =>
    cases h
    exact Exec.Ensures.pure fun f hf => ⟨hdone, hf⟩
  | cons e es ih =>
    cases h with
    | cons hk hv hkey hvalue hrest =>
      rw [Expr.inCoreEntries, hk.after_eq, hk.typeOf?_eq, hv.after_eq] at hcore
      simp only [Bool.and_eq_true, Option.any_some] at hcore
      rcases hcore with ⟨⟨⟨hck, hkt⟩, hcv⟩, hcrest⟩
      have hkept₁ := (Typed.core hm.mono _ hσ hk hck).2
      have hkept₂ := (Typed.core hm.mono _ hkept₁.mono hv hcv).2
      have hkeq := Ty.eq_of_same hkey
      have hveq := Ty.eq_of_same hvalue
      subst hkeq hveq
      rw [Exec.evalEntries_cons]
      exact entry_sound hm hrec hσ hk hv hck hcv hkt hdone fun d hd =>
        ih hkept₂.mono hrest hcrest hd

theorem fits_of_forall₂ {known : Value → Prop} {vs : List Value} {ts : List Ty} {t : Ty}
    (h : List.Forall₂ (Value.Fits known) vs ts) (hts : ∀ u ∈ ts, u = t) :
    ∀ v ∈ vs, v.Fits known t := by
  induction h with
  | nil => simp
  | cons hv _ ih =>
    intro w hw
    rcases List.mem_cons.mp hw with rfl | hw
    · rw [← hts _ (List.mem_cons_self ..)]
      exact hv
    · exact ih (fun u hu => hts u (by simp [hu])) w hw

/-- One level of evaluation is sound if the next one is. -/
theorem step_sound (hm : CoreMachine m globals) (hrec : EvalSound m globals rec)
    (hbodies : BodiesMeet coreEndings m rec) (turns : Nat) :
    EvalSound m globals (Exec.step m turns rec) := by
  intro outer branch σ σ' e t hσ h hcore
  cases h with
  | number =>
    rw [Exec.step]
    exact Exec.Ensures.make fun f n hf => ⟨rfl, hf⟩
  | text =>
    rw [Exec.step]
    exact Exec.Ensures.make fun f n hf => ⟨rfl, hf⟩
  | bool => exact Exec.Ensures.pure fun f hf => ⟨rfl, hf⟩
  | ref hfind => exact reference_sound hm hσ hfind _
  | @assign _ σ₁ name value t hv =>
    rw [Expr.inCore, Bool.and_eq_true] at hcore
    exact (hrec hσ hv hcore.1).bind_fact fun v hfits =>
      Exec.Ensures.assign fun f hf => ⟨hfits, hf.insert hfits⟩
  | binary hl hr hop =>
    rw [Expr.inCore, hl.after_eq, Bool.and_eq_true] at hcore
    have hkept := (Typed.core hm.mono _ hσ hl hcore.1).2
    refine (hrec hσ hl hcore.1).bind_fact fun v hv => ?_
    refine (hrec hkept.mono hr hcore.2).bind_fact fun w hw => ?_
    rcases Operator.run_fits hop hv hw with ⟨u, hu, hfits⟩
    simp only [hu]
    exact Exec.Ensures.make fun f n hf => ⟨hfits.numberFrom n, hf⟩
  | @call _ σ₁ _ name args f ts b hf hts hb =>
    rw [Expr.inCore, hf.afterCallee_eq, Bool.and_eq_true] at hcore
    rcases hf.bind with ⟨g, typeParams, ρ, hcallee, rfl, hscope, hacc⟩
    have hσ₁ : Mono globals.funcs outer σ₁ := hσ.of_scope_eq hscope
    have hground := (hts.core (fun e _ => Typed.core hm.mono e) hσ₁ hcore.2).1
    rw [hts.length_eq] at hacc
    rcases call_instance hacc hground (hσ.determined hm.mono hcallee) hb with
      ⟨τ, htakes, heq, -⟩
    rw [heq]
    -- The callee is looked up first, and called on the values of the arguments.
    refine (callee_sound hm hσ hcallee hcore.1 htakes _).bind_fact fun v hcan => ?_
    rw [← hscope]
    refine (evalAll_sound hm hrec hσ₁ hts hcore.2).bind_fact fun vs hvs => ?_
    rcases hvs with ⟨ws, rfl, hws⟩
    refine Exec.Ensures.onFault (fun d hd => ?_) ?_
    · simpa [coreEndings] using hd
    · exact (apply_fits (fun d hd => hd) hm.static hbodies hcan hground hws (Nat.le_refl _)).post
        fun v f hvf => ⟨hvf.2, hvf.1⟩
  | ite hc ht hf hsame =>
    rw [Expr.inCore, hc.after_eq, ht.after_eq, Bool.and_eq_true, Bool.and_eq_true] at hcore
    have hkept₁ := (Typed.core hm.mono _ hσ hc hcore.1.1).2
    have hkept₂ := (Typed.core hm.mono _ hkept₁.mono ht hcore.1.2).2
    have hkept₃ := (Typed.core hm.mono _ hkept₂.mono hf hcore.2).2
    refine (hrec hσ hc hcore.1.1).bind_fact fun v hv => ?_
    -- Both branches keep the types of variables, so it does not matter which one runs.
    split
    · exact (hrec hkept₁.mono ht hcore.1.2).post fun w f hw =>
        ⟨hw.1, hw.2.of_eq (hkept₃.vars rfl)⟩
    · have heq := Ty.eq_of_same hsame
      subst heq
      exact (hrec hkept₂.mono hf hcore.2).pre fun f hf => hf.of_eq (hkept₂.vars rfl)
  | loop hc hb =>
    rw [Expr.inCore, hc.after_eq, Bool.and_eq_true] at hcore
    have hkept₁ := (Typed.core hm.mono _ hσ hc hcore.1).2
    have hkept₂ := (Typed.core hm.mono _ hkept₁.mono hb hcore.2).2
    have hcond := (hrec hσ hc hcore.1).post fun v f hv => hv.2
    have hbody := (hrec hkept₁.mono hb hcore.2).post fun v f hv =>
      hv.2.of_eq fun x => ((hkept₂.vars rfl x).trans (hkept₁.vars rfl x)).symm
    refine (Exec.Ensures.repeatWhile trivial hcond hbody turns).post fun v f hv => ?_
    rw [hv.1]
    exact ⟨rfl, hv.2.of_eq (hkept₂.vars rfl)⟩
  | seq hts =>
    rw [Expr.inCore] at hcore
    exact evalSeq_sound hm hrec hσ hts hcore rfl
  | emptyList => simp [Expr.inCore] at hcore
  | @list _ _ _ _ _ t he hes =>
    rw [Expr.inCore, Bool.and_eq_true] at hcore
    rcases hes.typedAll with ⟨ts, hts, hall⟩
    refine (evalAll_sound hm hrec hσ (.cons he hts) hcore.2).bind_fact fun vs hvs => ?_
    rcases hvs with ⟨ws, rfl, hws⟩
    have hfit := fits_of_forall₂ (t := t) hws (by simpa using hall)
    exact Exec.Ensures.make fun f n hf =>
      ⟨Value.Fits.numberFrom (Value.fits_list.mpr ⟨_, rfl, hfit⟩) n, hf⟩
  | emptyDict => simp [Expr.inCore] at hcore
  | dict hk hv hes =>
    rw [Expr.inCore, Expr.inCoreEntries, hk.after_eq, hk.typeOf?_eq, hv.after_eq] at hcore
    simp only [Bool.and_eq_true, Option.any_some] at hcore
    rcases hcore with ⟨-, ⟨⟨hck, hkt⟩, hcv⟩, hcrest⟩
    have hkept₁ := (Typed.core hm.mono _ hσ hk hck).2
    have hkept₂ := (Typed.core hm.mono _ hkept₁.mono hv hcv).2
    have hentries := entry_sound hm hrec hσ hk hv hck hcv hkt (List.forall_mem_nil _)
      fun d hd => evalEntries_sound hm hrec hkept₂.mono hes hcrest hd
    simp only [Exec.step]
    rw [Exec.evalEntries_cons]
    refine hentries.bind_fact fun d hd => ?_
    exact Exec.Ensures.make fun f n hf =>
      ⟨Value.Fits.numberFrom (Value.fits_dict.mpr ⟨_, _, rfl, hd⟩) n, hf⟩

end Step

/-! ## Programs -/

section Programs

variable {m : Machine} {globals : Scope}

/-- Function bodies are evaluated on the next level. -/
theorem bodiesMeet (hm : CoreMachine m globals) {rec : Expr → Exec Value}
    (hrec : EvalSound m globals rec) : BodiesMeet coreEndings m rec := by
  intro f hf args caller hargs
  rcases hm.bodies f hf with ⟨supply, t, σ, htyped, hsame, hcore⟩
  have hground : f.definition.signature.toTy.Ground := by
    rcases hf with ⟨name, hget⟩
    have hres := hm.resolves name
    rw [hget] at hres
    exact (hm.mono name _ hres).2
  -- Parameters and arguments are bound in step, from nothing.
  have hempty : Models m ∅ ({ kind := .function } : Scope).vars := fun x => .none
  have hframe : Models m (Scoping.static.callFrame caller f.definition.paramNames args)
      (Checker.bodyScope f.definition).vars := hempty.define_params hargs
  have hbody := hrec (Mono.bodyScope hground supply) htyped hcore
  refine hbody.mono (fun frame hfr => ?_) fun v frame hv => ?_
  · rw [hfr]
    exact hframe
  · rw [← Ty.eq_of_same hsame]
    exact hv.1

theorem eval_sound (hm : CoreMachine m globals) (turns depth : Nat) :
    EvalSound m globals (Exec.eval m turns depth) := by
  induction depth with
  | zero => exact fun _ _ _ => Exec.Ensures.fault rfl
  | succ depth ih =>
    intro outer branch σ σ' e t hσ h hcore
    rw [Exec.eval]
    split
    · exact Exec.Ensures.fault rfl
    · exact step_sound hm ih (bodiesMeet hm ih) turns hσ h hcore

/-- Bodies that are typed in order and belong to the core are so one by one. -/
theorem BodiesTyped.core {defs : List FunctionDef} {supply supply' : Supply}
    (h : BodiesTyped globals supply defs supply')
    (hcore : FunctionDef.bodiesInCore globals supply defs = true) :
    FunctionDef.supplyAfter globals supply defs = supply' ∧ ∀ d ∈ defs, ∃ s t σ,
      Typed [globals, Scope.prelude] ⟨Checker.bodyScope d, s⟩ d.body t σ ∧
        t.same d.result = true ∧
        d.body.inCore [globals, Scope.prelude] false ⟨Checker.bodyScope d, s⟩ = true := by
  induction h with
  | nil => exact ⟨rfl, by simp⟩
  | cons hd hds ih =>
    rcases hd with ⟨t, σ, htyped, hsame, rfl⟩
    simp only [FunctionDef.bodiesInCore, htyped.after_eq, Bool.and_eq_true] at hcore
    rcases ih hcore.2 with ⟨hsupply, hrest⟩
    refine ⟨by simpa only [FunctionDef.supplyAfter, htyped.after_eq] using hsupply, ?_⟩
    intro d hd
    rcases List.mem_cons.mp hd with rfl | hd
    · exact ⟨_, t, σ, htyped, hsame, hcore.1⟩
    · exact hrest d hd

theorem FunctionDef.isMono_iff {d : FunctionDef} :
    d.isMono = true ↔ d.typeParams = [] ∧ d.signature.toTy.Ground := by
  simp only [FunctionDef.isMono, Bool.and_eq_true, List.isEmpty_iff, List.all_eq_true,
    decide_eq_true_eq, FunctionDef.signature, FnType.toTy, Ty.ground_fn, List.mem_map,
    forall_exists_index, and_imp, forall_apply_eq_imp_iff₂, and_assoc]

/-- A machine without functions of its own runs a checked program of the core. -/
theorem coreMachine_defineAll {p : Program} {t : Ty} {supply : Supply}
    (hempty : m.functions = ∅) (hstatic : m.scoping = .static)
    (hbuiltins : m.builtins = Machine.prelude) (htyped : TypedProgram ⟨{}, supply⟩ p t)
    (hcore : p.inCore supply = true) :
    CoreMachine (m.defineAll p.defs) (Scope.defineAll {} p.defs) := by
  rcases htyped.units with ⟨supply', ts, σ, hbodies, -, -⟩
  simp only [Program.inCore, Bool.and_eq_true, List.all_eq_true] at hcore
  have hunits := (hbodies.core hcore.1.2).2
  have hholds := Machine.holds_defineAll hempty p.defs
  have hmatches := Machine.Matches.defineAll hempty hstatic hbuiltins p.defs
  refine ⟨hmatches, ?_, ?_⟩
  · intro name f hf
    rw [hmatches.resolves name] at hf
    rcases Option.map_eq_some_iff.mp hf with ⟨u, hu, rfl⟩
    exact FunctionDef.isMono_iff.mp (hcore.1.1 _ (hholds name u hu).1)
  · rintro f ⟨name, hf⟩
    exact hunits _ (hholds name f hf).1

end Programs

/-- The ends of a run that a program of type `t` may have. -/
inductive Outcome.Respects (t : Ty) : Outcome Value → Prop
  | value {v : Value} : v.Inhabits t → Respects t (.value v)
  | fault {d : Diagnostic} : d.code = .runtimeError → Respects t (.fault d)
  | unfinished : Respects t .unfinished

/-- A program of the core that the checker accepts runs to a value of its type or to a run-time
error, whatever the bounds, the channels and the host are; `unfinished` are the runs in which a loop
needs more turns than it is given. -/
theorem core_program_sound (p : Program) (t : Ty) (supply : Supply) (file : String)
    (maxDepth turns : Nat) (cancelled : Bool) (host : Host) (channels : Channels)
    (haccepted : (({ supply, file } : Checker).checkProgram p).1 = .ok t)
    (hcore : p.inCore supply = true) :
    (({ Machine.initial with maxDepth, cancelled, host }.runProgram turns p
      { channels }).1).Respects t := by
  have htyped : TypedProgram ⟨{}, supply⟩ p t := Checker.checkProgram_iff.mp haccepted
  let m : Machine := { Machine.initial with maxDepth, cancelled, host }
  have hm := coreMachine_defineAll (m := m) rfl rfl rfl htyped hcore
  rcases htyped.units with ⟨supply', ts, σ, hbodies, hts, rfl⟩
  simp only [Program.inCore, Bool.and_eq_true] at hcore
  rw [(hbodies.core hcore.1.2).1] at hcore
  have hvars : ∀ x, (Scope.defineAll {} p.defs).vars.get? x = none := by
    intro x
    rw [Scope.vars_defineAll]
    rfl
  have hσ : Mono (Scope.defineAll {} p.defs).funcs [Scope.prelude]
      ⟨Scope.defineAll {} p.defs, supply'⟩ :=
    ⟨Sees.global _, fun x t hx => by simp [hvars x] at hx⟩
  have hframe : Models (m.defineAll p.defs) ∅ (Scope.defineAll {} p.defs).vars := by
    intro x
    rw [hvars x]
    exact .none
  have hnil : Value.nil.Fits (m.defineAll p.defs).Knows .void := rfl
  have hexprs := evalSeq_sound hm (eval_sound hm turns (m.defineAll p.defs).depth) hσ hts hcore.2
    hnil
  have hrun : Exec.Ensures coreEndings _ (m.runProgram turns p) _ :=
    Exec.Ensures.runProgram (by simp [coreEndings]) hexprs
  change ((m.runProgram turns p { channels }).1).Respects _
  rcases hrun.outcome (s := { channels }) hframe with
    ⟨v, s, hend, hv⟩ | ⟨d, s, hend, hd⟩ | ⟨s, hend, -⟩
  · rw [hend]
    exact .value (hv.1.mono fun _ _ => trivial)
  · rw [hend]
    exact .fault hd
  · rw [hend]
    exact .unfinished

/-- Counts to three and doubles the count: a function, a loop and a callback. -/
def doubling : Program where
  defs :=
    [{ name := "double", params := [⟨"n", .number⟩], result := .number,
       body := .binary .mul (.ref "n") (.number 2) }]
  exprs :=
    [.assign "i" (.number 0),
     .loop (.binary .lt (.ref "i") (.number 3))
       (.assign "i" (.binary .add (.ref "i") (.number 1))),
     .call "map" [.list [.ref "i"], .ref "double"]]

theorem doubling_sound :
    doubling.inCore {} = true ∧ ((Machine.initial.runProgram 10 doubling {}).1).Respects
      (.list .number) := by
  have haccepted : (({} : Checker).checkProgram doubling).1 = .ok (.list .number) :=
    Checker.checkProgram_of_acceptsAt (by decide +kernel)
  have hcore : doubling.inCore {} = true := by decide +kernel
  exact ⟨hcore,
    core_program_sound doubling (.list .number) {} "" 0 10 false Host.none {} haccepted hcore⟩

end TreeLang
