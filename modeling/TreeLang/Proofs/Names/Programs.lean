import TreeLang.Proofs.Names.Closed
import TreeLang.Proofs.Names.Flow

/-!
# Names in checked programs

A checked program finds every name at run time if all its names are settled. The variables of a run
cover the names that are assigned on every way to the place it has reached (`Bound`), and one level
of evaluation keeps this if the next level does (`step_named`). Main statement: `eval_named`, from
which the same follows for programs. Without the condition a checked program may well miss a name:
an assignment in a branch that does not run is enough.
-/

namespace TreeLang

/-! ## Variables of a run -/

/-- All names have values, and all functions in values are known. -/
structure Bound (m : Machine) (names : List String) (frame : Table Value) : Prop where
  value : ∀ x ∈ names, ∃ v, frame.get? x = some v
  closed : ∀ x v, frame.get? x = some v → v.Closed m.Knows

section Bound

variable {m : Machine} {names names' : List String} {frame : Table Value}

theorem Bound.mono (h : Bound m names frame) (hsub : ∀ x ∈ names', x ∈ names) :
    Bound m names' frame :=
  ⟨fun x hx => h.value x (hsub x hx), h.closed⟩

theorem Bound.insert (h : Bound m names frame) (name : String) {v : Value}
    (hv : v.Closed m.Knows) : Bound m (names ++ [name]) (frame.insert name v) := by
  refine ⟨fun x hx => ?_, fun x w hx => ?_⟩
  · rw [Table.get?_insert]
    split
    · exact ⟨v, rfl⟩
    · next hne =>
      rcases List.mem_append.mp hx with hx | hx
      · exact h.value x hx
      · exact absurd (List.mem_singleton.mp hx).symm hne
  · rw [Table.get?_insert] at hx
    split at hx
    · cases hx
      exact hv
    · exact h.closed x w hx

/-- A call binds all parameters. -/
theorem Bound.insert_params {params : List Param} {args : List Value} (h : Bound m names frame)
    (hargs : ∀ a ∈ args, a.Closed m.Knows) (hlen : args.length = params.length) :
    Bound m (names ++ params.map (·.name))
      (((params.map (·.name)).zip args).foldl (fun t e => t.insert e.1 e.2) frame) := by
  induction params generalizing args frame names with
  | nil => simpa using h
  | cons p params ih =>
    cases args with
    | nil => cases hlen
    | cons a args =>
      have hrest := ih (h.insert p.name (hargs a (by simp)))
        (fun b hb => hargs b (by simp [hb])) (Nat.succ.inj hlen)
      rw [List.append_assoc] at hrest
      exact hrest

end Bound

/-- A machine that runs a checked program with settled names. -/
structure NamedMachine (m : Machine) (globals : Scope) (isFunction : String → Bool) : Prop
    extends m.Matches globals.funcs where
  functions : ∀ name, isFunction name = (m.function? name).isSome
  bodies : ∀ f, m.Knows (.function f) →
    (∃ supply t σ, Typed [globals, Scope.prelude] ⟨Checker.bodyScope f.definition, supply⟩
      f.definition.body t σ) ∧
    f.definition.body.settled isFunction ⟨f.definition.paramNames, f.definition.paramNames⟩ = true

/-! ## One level of evaluation -/

/-- Every name that the scope binds may have been assigned. -/
def Flow.Follows (f : Flow) (s : Scope) : Prop := ∀ x t, s.vars.get? x = some t → x ∈ f.may

theorem Flow.Follows.grown {f : Flow} {s s' : Scope} {names must : List String} (h : f.Follows s)
    (hgrown : Grown names s s') : Flow.Follows ⟨f.may ++ names, must⟩ s' := by
  intro x t hx
  rcases hgrown.vars x t hx with ⟨u, hu⟩ | hmem
  · exact List.mem_append.mpr (Or.inl (h x u hu))
  · exact List.mem_append.mpr (Or.inr hmem)

/-- Evaluating a checked expression with settled names finds them all, and leaves the names bound
that are assigned on every way. -/
def EvalNamed (m : Machine) (globals : Scope) (isFunction : String → Bool)
    (rec : Expr → Exec Value) : Prop :=
  ∀ {outer : ScopeChain} {σ σ' : Setting} {e : Expr} {t : Ty} {f : Flow},
    Sees globals.funcs outer σ.scope → Typed outer σ e t σ' → f.Follows σ.scope →
    e.settled isFunction f = true →
    Exec.Ensures namedEndings (Bound m f.must) (rec e) fun v frame =>
      v.Closed m.Knows ∧ Bound m (f.after e).must frame

section Step

variable {m : Machine} {globals : Scope} {isFunction : String → Bool} {rec : Expr → Exec Value}
  {outer : ScopeChain} {σ σ' : Setting} {f : Flow}

/-- A settled name that the checker takes for a variable is bound, or is that of a function. -/
theorem Flow.settles_var (hfollows : f.Follows σ.scope) {name : String} {t : Ty}
    (hsettled : f.settles isFunction name = true) (hvar : σ.scope.vars.get? name = some t) :
    name ∈ f.must ∨ isFunction name = true := by
  have hmay := hfollows name t hvar
  simpa [Flow.settles, hmay] using hsettled

theorem reference_named (hm : NamedMachine m globals isFunction)
    (hsees : Sees globals.funcs outer σ.scope) (hfollows : f.Follows σ.scope) {name : String}
    {sym : Symbol} (hfind : ScopeChain.find? (σ.scope :: outer) name = some sym)
    (hsettled : f.settles isFunction name = true) (e : Expr) :
    Exec.Ensures namedEndings (Bound m f.must) (Exec.reference m e name) fun v frame =>
      v.Closed m.Knows ∧ Bound m f.must frame := by
  intro s hs
  -- Unless the run has the variable, the machine has a function of that name.
  have hfound : (∃ v, s.frame.get? name = some v) ∨ ∃ v, m.function? name = some v := by
    rcases hsees.find_cases hfind with ⟨t, ht, -⟩ | ⟨-, g, hg, -⟩ | ⟨-, hg, p, hp, -⟩
    · rcases Flow.settles_var hfollows hsettled ht with hmust | hfun
      · exact Or.inl (hs.value name hmust)
      · rw [hm.functions name] at hfun
        exact Or.inr (Option.isSome_iff_exists.mp hfun)
    · rcases hm.function?_user hg with ⟨u, hu, -⟩
      exact Or.inr ⟨_, hu⟩
    · have hother := hm.function?_other hg
      rw [hp] at hother
      exact Or.inr ⟨_, hother⟩
  cases hget : s.frame.get? name with
  | some v =>
    simp only [Exec.reference, hget]
    exact ⟨hs.closed name v hget, hs⟩
  | none =>
    rcases hfound with ⟨v, hv⟩ | ⟨v, hv⟩
    · rw [hget] at hv
      cases hv
    · simp only [Exec.reference, hget, hv]
      exact ⟨Machine.function?_closed hm.builtins hv, hs⟩

theorem callee_named (hm : NamedMachine m globals isFunction)
    (hsees : Sees globals.funcs outer σ.scope) (hfollows : f.Follows σ.scope) {name : String}
    {g : FnType} {typeParams : List String}
    (hcallee : ScopeChain.callee? (σ.scope :: outer) name = some (g, typeParams))
    (hsettled : f.settles isFunction name = true) (e : Expr) :
    Exec.Ensures namedEndings (Bound m f.must) (Exec.callee m e name) fun v frame =>
      v.Closed m.Knows ∧ Bound m f.must frame := by
  intro s hs
  cases hfun : m.function? name with
  | some v =>
    simp only [Exec.callee, hfun]
    exact ⟨Machine.function?_closed hm.builtins hfun, hs⟩
  | none =>
    -- The checker found no function either, so it took the name for a variable.
    have hvar : ∃ t, σ.scope.vars.get? name = some t := by
      rcases hsees.callee_cases hcallee with ⟨g, hg, -⟩ | ⟨p, hg, hp, -⟩ | ⟨-, -, hvar⟩
      · rcases hm.function?_user hg with ⟨u, hu, -⟩
        rw [hfun] at hu
        cases hu
      · have hother := hm.function?_other hg
        rw [hp, hfun] at hother
        cases hother
      · exact ⟨_, hvar⟩
    rcases hvar with ⟨t, ht⟩
    rcases Flow.settles_var hfollows hsettled ht with hmust | hisfun
    · rcases hs.value name hmust with ⟨v, hv⟩
      -- A variable that holds no function gives a fault, but not one about its name.
      by_cases hcallable : v.isCallable = true
      · simp only [Exec.callee, hfun, hv, hcallable, if_true]
        exact ⟨hs.closed name v hv, hs⟩
      · simp only [Exec.callee, hfun, hv, hcallable]
        constructor
        · intro hcode
          cases hcode
        · intro hcode
          cases hcode
    · rw [hm.functions name, hfun] at hisfun
      cases hisfun

theorem evalAll_named (hrec : EvalNamed m globals isFunction rec) {es : List Expr} {ts : List Ty}
    {done : List Value} (hsees : Sees globals.funcs outer σ.scope)
    (h : TypedAll outer σ es ts σ') (hfollows : f.Follows σ.scope)
    (hsettled : Expr.settledAll isFunction f es = true)
    (hdone : ∀ v ∈ done, v.Closed m.Knows) :
    Exec.Ensures namedEndings (Bound m f.must) (Exec.evalAll rec es done) fun vs frame =>
      (∀ v ∈ vs, v.Closed m.Knows) ∧ Bound m (f.must ++ Expr.assignedAll .every es) frame := by
  induction es generalizing σ ts done f with
  | nil => exact Exec.Ensures.pure fun _ hf => ⟨by simpa using hdone, by simpa [Expr.assignedAll]⟩
  | cons e es ih =>
    cases h with
    | cons he hes =>
      rw [Expr.settledAll, Bool.and_eq_true] at hsettled
      have hgrown := Typed.grown e he
      rw [Exec.evalAll_cons]
      refine (hrec hsees he hfollows hsettled.1).bind_fact fun v hv => ?_
      have hdone' : ∀ w ∈ v :: done, w.Closed m.Knows := by
        intro w hw
        rcases List.mem_cons.mp hw with rfl | hw
        · exact hv
        · exact hdone w hw
      have hrest := ih (hsees.of_eq hgrown.kind hgrown.funcs) hes (hfollows.grown hgrown)
        hsettled.2 hdone'
      refine hrest.post fun vs frame hvs => ⟨hvs.1, ?_⟩
      rw [Expr.assignedAll, ← List.append_assoc]
      exact hvs.2

theorem evalSeq_named (hrec : EvalNamed m globals isFunction rec) {es : List Expr} {ts : List Ty}
    {last : Value} (hsees : Sees globals.funcs outer σ.scope) (h : TypedAll outer σ es ts σ')
    (hfollows : f.Follows σ.scope) (hsettled : Expr.settledAll isFunction f es = true)
    (hlast : last.Closed m.Knows) :
    Exec.Ensures namedEndings (Bound m f.must) (Exec.evalSeq rec es last) fun v frame =>
      v.Closed m.Knows ∧ Bound m (f.must ++ Expr.assignedAll .every es) frame := by
  induction es generalizing σ ts last f with
  | nil => exact Exec.Ensures.pure fun _ hf => ⟨hlast, by simpa [Expr.assignedAll]⟩
  | cons e es ih =>
    cases h with
    | cons he hes =>
      rw [Expr.settledAll, Bool.and_eq_true] at hsettled
      have hgrown := Typed.grown e he
      rw [Exec.evalSeq_cons]
      refine (hrec hsees he hfollows hsettled.1).bind_fact fun v hv => ?_
      have hrest := ih (hsees.of_eq hgrown.kind hgrown.funcs) hes (hfollows.grown hgrown)
        hsettled.2 hv
      refine hrest.post fun w frame hw => ⟨hw.1, ?_⟩
      rw [Expr.assignedAll, ← List.append_assoc]
      exact hw.2

/-- One entry is evaluated, key before value, and then the others. -/
theorem entry_named (hrec : EvalNamed m globals isFunction rec) {k v : Expr}
    {es : List (Expr × Expr)} {kt vt : Ty} {σ₁ : Setting} {done : Dict}
    (hsees : Sees globals.funcs outer σ.scope) (hk : Typed outer σ k kt σ₁)
    (hv : Typed outer σ₁ v vt σ') (hfollows : f.Follows σ.scope)
    (hsettled : Expr.settledEntries isFunction f ((k, v) :: es) = true)
    (hdone : ∀ e ∈ done, e.2.Closed m.Knows)
    (hrest : ∀ {d}, Sees globals.funcs outer σ'.scope →
      ((f.after k).after v).Follows σ'.scope →
      Expr.settledEntries isFunction ((f.after k).after v) es = true →
      (∀ e ∈ d, e.2.Closed m.Knows) →
      Exec.Ensures namedEndings (Bound m ((f.after k).after v).must) (Exec.evalEntries rec es d)
        fun d frame => (∀ e ∈ d, e.2.Closed m.Knows) ∧
          Bound m (((f.after k).after v).must ++ Expr.assignedEntries .every es) frame) :
    Exec.Ensures namedEndings (Bound m f.must) (Exec.evalEntries rec ((k, v) :: es) done)
      fun d frame => (∀ e ∈ d, e.2.Closed m.Knows) ∧
        Bound m (f.must ++ Expr.assignedEntries .every ((k, v) :: es)) frame := by
  rw [Expr.settledEntries, Bool.and_eq_true, Bool.and_eq_true] at hsettled
  have hgrown := Typed.grown k hk
  have hsees₁ := hsees.of_eq hgrown.kind hgrown.funcs
  have hgrown' := Typed.grown v hv
  have hsees₂ := hsees₁.of_eq hgrown'.kind hgrown'.funcs
  have hfollows₁ : (f.after k).Follows σ₁.scope := hfollows.grown hgrown
  have hfollows₂ : ((f.after k).after v).Follows σ'.scope := hfollows₁.grown hgrown'
  rw [Exec.evalEntries_cons]
  refine (hrec hsees hk hfollows hsettled.1.1).bind_fact fun key _ => ?_
  refine (hrec hsees₁ hv hfollows₁ hsettled.1.2).bind_fact fun value hvalue => ?_
  cases hid : Key.ofValue? key with
  | none =>
    simp only [Exec.setEntry, hid]
    exact Exec.Ensures.fault ⟨nofun, nofun⟩
  | some id =>
    simp only [Exec.setEntry, hid]
    have hset := Dict.set_induct (K := fun _ => True) (V := fun v => v.Closed m.Knows)
      (fun e he => ⟨trivial, hdone e he⟩) (k := id) trivial hvalue
    have hnext := hrest hsees₂ hfollows₂ hsettled.2 fun e he => (hset e he).2
    refine Exec.Ensures.post hnext fun d frame hd => ⟨hd.1, hd.2.mono fun x hx => ?_⟩
    simpa [Flow.after, Expr.assignedEntries] using hx

theorem evalEntries_named (hrec : EvalNamed m globals isFunction rec)
    {es : List (Expr × Expr)} {kt vt : Ty} {done : Dict}
    (hsees : Sees globals.funcs outer σ.scope) (h : TypedEntries outer kt vt σ es σ')
    (hfollows : f.Follows σ.scope) (hsettled : Expr.settledEntries isFunction f es = true)
    (hdone : ∀ e ∈ done, e.2.Closed m.Knows) :
    Exec.Ensures namedEndings (Bound m f.must) (Exec.evalEntries rec es done) fun d frame =>
      (∀ e ∈ d, e.2.Closed m.Knows) ∧
        Bound m (f.must ++ Expr.assignedEntries .every es) frame := by
  induction es generalizing σ done f with
  | nil => exact Exec.Ensures.pure fun _ hf => ⟨hdone, by simpa [Expr.assignedEntries]⟩
  | cons e es ih =>
    cases h with
    | cons hk hv _ _ hrest =>
      exact entry_named hrec hsees hk hv hfollows hsettled hdone
        fun hsees' hfollows' hsettled' hd => ih hsees' hrest hfollows' hsettled' hd

/-- One level of evaluation finds all names if the next one does. -/
theorem step_named (hm : NamedMachine m globals isFunction)
    (hrec : EvalNamed m globals isFunction rec) (hbodies : BodiesClosed m rec) (turns : Nat) :
    EvalNamed m globals isFunction (Exec.step m turns rec) := by
  intro outer σ σ' e t f hsees h hfollows hsettled
  cases h with
  | number =>
    rw [Exec.step]
    exact Exec.Ensures.make fun _ n hf => ⟨trivial, by simpa [Flow.after, Expr.assigned] using hf⟩
  | text =>
    rw [Exec.step]
    exact Exec.Ensures.make fun _ n hf => ⟨trivial, by simpa [Flow.after, Expr.assigned] using hf⟩
  | bool =>
    exact Exec.Ensures.pure fun _ hf => ⟨trivial, by simpa [Flow.after, Expr.assigned] using hf⟩
  | ref hfind =>
    rw [Expr.settled] at hsettled
    refine (reference_named hm hsees hfollows hfind hsettled _).post fun v frame hv => ?_
    exact ⟨hv.1, by simpa [Flow.after, Expr.assigned] using hv.2⟩
  | @assign _ σ₁ name value t hv =>
    rw [Expr.settled] at hsettled
    refine (hrec hsees hv hfollows hsettled).bind_fact fun v hclosed => ?_
    refine Exec.Ensures.assign fun frame hf => ⟨hclosed, ?_⟩
    simpa [Flow.after, Expr.assigned] using hf.insert name hclosed
  | binary hl hr hop =>
    rw [Expr.settled, Bool.and_eq_true] at hsettled
    have hgrown := Typed.grown _ hl
    refine (hrec hsees hl hfollows hsettled.1).bind_fact fun v hv => ?_
    refine (hrec (hsees.of_eq hgrown.kind hgrown.funcs) hr (hfollows.grown hgrown)
      hsettled.2).bind_fact fun w hw => ?_
    split
    · next u hu =>
      refine Exec.Ensures.make fun frame n hf => ⟨(Operator.run_closed hu hv hw).numberFrom n, ?_⟩
      simpa [Flow.after, Expr.assigned] using hf
    · next refusal _ =>
      refine Exec.Ensures.fault ?_
      simpa [namedEndings] using refusal.isNamed
  | @call _ σ₁ _ name args g ts b hf hts hb =>
    rw [Expr.settled, Bool.and_eq_true] at hsettled
    rcases hf with ⟨g, typeParams, hcallee, -, hscope, -⟩
    refine (callee_named hm hsees hfollows hcallee hsettled.1 _).bind_fact fun v hv => ?_
    rw [← hscope] at hsees hfollows
    refine (evalAll_named hrec hsees hts hfollows hsettled.2 (by simp)).bind_fact
      fun vs hvs => ?_
    refine Exec.Ensures.onFault (by simp [namedEndings]) ?_
    exact (apply_closed hm.static hbodies vs.length hv hvs).post fun w frame hw =>
      ⟨hw.2, hw.1⟩
  | @ite _ σ₁ _ _ c _ _ _ _ hc ht hf hsame =>
    rw [Expr.settled, Bool.and_eq_true, Bool.and_eq_true] at hsettled
    have hgrown := Typed.grown _ hc
    have hgrown' := Typed.grown _ ht
    have hsees₁ := hsees.of_eq hgrown.kind hgrown.funcs
    have hfollows₁ : (f.after c).Follows σ₁.scope := hfollows.grown hgrown
    refine (hrec hsees hc hfollows hsettled.1.1).bind_fact fun v hv => ?_
    -- After either branch the names are bound that both branches assign.
    split
    · refine (hrec hsees₁ ht hfollows₁ hsettled.1.2).post fun w frame hw => ⟨hw.1, ?_⟩
      refine hw.2.mono fun x hx => ?_
      simp only [Flow.after, Expr.assigned, List.mem_append, List.mem_filter] at hx ⊢
      rcases hx with hx | hx | hx
      · exact Or.inl (Or.inl hx)
      · exact Or.inl (Or.inr hx)
      · exact Or.inr hx.1
    · refine (hrec (hsees₁.of_eq hgrown'.kind hgrown'.funcs) hf (hfollows₁.grown hgrown')
        hsettled.2).post fun w frame hw => ⟨hw.1, ?_⟩
      refine hw.2.mono fun x hx => ?_
      simp only [Flow.after, Expr.assigned, List.mem_append, List.mem_filter,
        List.contains_iff_mem] at hx ⊢
      rcases hx with hx | hx | hx
      · exact Or.inl (Or.inl hx)
      · exact Or.inl (Or.inr hx)
      · exact Or.inr hx.2
  | loop hc hb =>
    rw [Expr.settled, Bool.and_eq_true] at hsettled
    have hgrown := Typed.grown _ hc
    -- A loop may end before its body runs, so that only the condition counts behind it.
    have hcond := (hrec hsees hc hfollows hsettled.1).post fun v frame hv => hv.2
    have hbody := (hrec (hsees.of_eq hgrown.kind hgrown.funcs) hb (hfollows.grown hgrown)
      hsettled.2).post fun v frame hv => hv.2.mono fun x (hx : x ∈ f.must) => by
        simp [Flow.after, hx]
    refine (Exec.Ensures.repeatWhile trivial hcond hbody turns).post fun v frame hv => ?_
    rw [hv.1]
    exact ⟨trivial, by simpa [Flow.after, Expr.assigned] using hv.2⟩
  | seq hts =>
    rw [Expr.settled] at hsettled
    exact evalSeq_named hrec hsees hts hfollows hsettled trivial
  | emptyList =>
    rw [Expr.settled] at hsettled
    refine (evalAll_named hrec hsees .nil hfollows hsettled (by simp)).bind_fact fun vs hvs => ?_
    exact Exec.Ensures.make fun _ n hf =>
      ⟨Value.Closed.numberFrom (Value.closed_list.mpr hvs) n, hf⟩
  | list he hes =>
    rw [Expr.settled] at hsettled
    rcases hes.typedAll with ⟨ts, hts, -⟩
    refine (evalAll_named hrec hsees (.cons he hts) hfollows hsettled (by simp)).bind_fact
      fun vs hvs => ?_
    exact Exec.Ensures.make fun _ n hf =>
      ⟨Value.Closed.numberFrom (Value.closed_list.mpr hvs) n, hf⟩
  | emptyDict =>
    rw [Expr.settled] at hsettled
    have hnil : TypedEntries outer .void .void σ [] σ := .nil
    refine (evalEntries_named hrec hsees hnil hfollows hsettled
      (List.forall_mem_nil _)).bind_fact fun d hd => ?_
    exact Exec.Ensures.make fun _ n hf =>
      ⟨Value.Closed.numberFrom (Value.closed_dict.mpr hd) n, hf⟩
  | dict hk hv hes =>
    rw [Expr.settled] at hsettled
    refine (entry_named hrec hsees hk hv hfollows hsettled (List.forall_mem_nil _)
      fun hsees' hfollows' hsettled' hd =>
        evalEntries_named hrec hsees' hes hfollows' hsettled' hd).bind_fact fun d hd => ?_
    exact Exec.Ensures.make fun _ n hf =>
      ⟨Value.Closed.numberFrom (Value.closed_dict.mpr hd) n, hf⟩

end Step

/-! ## Programs -/

section Programs

variable {m : Machine} {globals : Scope} {isFunction : String → Bool}

/-- Function bodies are evaluated on the next level. -/
theorem bodiesClosed (hm : NamedMachine m globals isFunction) {rec : Expr → Exec Value}
    (hrec : EvalNamed m globals isFunction rec) : BodiesClosed m rec := by
  intro u hu args caller hargs hlen
  rcases hm.bodies u hu with ⟨⟨supply, t, σ, htyped⟩, hsettled⟩
  have hfollows : Flow.Follows ⟨u.definition.paramNames, u.definition.paramNames⟩
      (Checker.bodyScope u.definition) := by
    intro x t hx
    rcases bodyScope_vars hx with ⟨p, hp, rfl, -⟩ | hnone
    · exact List.mem_map_of_mem hp
    · cases hnone
  have hempty : Bound m [] ∅ := ⟨by simp, fun x v hx => by cases hx⟩
  have hframe := hempty.insert_params hargs hlen
  have hbody := hrec (Sees.bodyScope globals u.definition) htyped hfollows hsettled
  refine hbody.mono (fun frame hfr => ?_) fun v frame hv => hv.1
  rw [hfr]
  exact hframe

theorem eval_named (hm : NamedMachine m globals isFunction) (turns depth : Nat) :
    EvalNamed m globals isFunction (Exec.eval m turns depth) := by
  induction depth with
  | zero => exact fun _ _ _ _ => Exec.Ensures.fault (namedEndings.runtime rfl)
  | succ depth ih =>
    intro outer σ σ' e t f hsees h hfollows hsettled
    rw [Exec.eval]
    split
    · exact Exec.Ensures.fault (namedEndings.runtime rfl)
    · exact step_named hm ih (bodiesClosed hm ih) turns hsees h hfollows hsettled

theorem BodiesTyped.typed {defs : List FunctionDef} {supply supply' : Supply}
    (h : BodiesTyped globals supply defs supply') :
    ∀ d ∈ defs, ∃ s t σ, Typed [globals, Scope.prelude] ⟨Checker.bodyScope d, s⟩ d.body t σ := by
  induction h with
  | nil => simp
  | cons hd _ ih =>
    rcases hd with ⟨t, σ, htyped, -, -⟩
    intro d hd
    rcases List.mem_cons.mp hd with rfl | hd
    · exact ⟨_, t, σ, htyped⟩
    · exact ih d hd

/-- A machine without functions of its own runs a checked program with settled names. -/
theorem namedMachine_defineAll {p : Program} {t : Ty} {supply : Supply}
    (hempty : m.functions = ∅) (hstatic : m.scoping = .static)
    (hbuiltins : m.builtins = Machine.prelude) (htyped : TypedProgram ⟨{}, supply⟩ p t)
    (hsettled : p.settled = true) :
    NamedMachine (m.defineAll p.defs) (Scope.defineAll {} p.defs) p.isFunction := by
  rcases htyped.units with ⟨supply', ts, σ, hbodies, -, -⟩
  simp only [Program.settled, Bool.and_eq_true, List.all_eq_true] at hsettled
  have hmatches := Machine.Matches.defineAll hempty hstatic hbuiltins p.defs
  refine ⟨hmatches, Program.isFunction_eq hempty hbuiltins, ?_⟩
  rintro u ⟨name, hu⟩
  have hmem := (Machine.holds_defineAll hempty p.defs name u hu).1
  exact ⟨hbodies.typed _ hmem, hsettled.1 _ hmem⟩

end Programs

/-- The code of the fault that a run ends with, if it does. -/
def Outcome.code? {α : Type} : Outcome α → Option Code
  | .fault d => some d.code
  | _ => none

/-- A checked program in which all names are settled finds every name at run time, whatever the
bounds, the channels and the host are. -/
theorem settled_program_named (p : Program) (t : Ty) (supply : Supply) (file : String)
    (maxDepth turns : Nat) (cancelled : Bool) (host : Host) (channels : Channels)
    (haccepted : (({ supply, file } : Checker).checkProgram p).1 = .ok t)
    (hsettled : p.settled = true) :
    ∀ code ∈ [Code.undefinedVariable, .undefinedFunction],
      ({ Machine.initial with maxDepth, cancelled, host }.runProgram turns p
        { channels }).1.code? ≠ some code := by
  have htyped : TypedProgram ⟨{}, supply⟩ p t := Checker.checkProgram_iff.mp haccepted
  let m : Machine := { Machine.initial with maxDepth, cancelled, host }
  have hm := namedMachine_defineAll (m := m) rfl rfl rfl htyped hsettled
  rcases htyped.units with ⟨supply', ts, σ, -, hts, -⟩
  simp only [Program.settled, Bool.and_eq_true] at hsettled
  have hfollows : Flow.Follows ⟨[], []⟩ (Scope.defineAll {} p.defs) := by
    intro x t hx
    rw [Scope.vars_defineAll] at hx
    cases hx
  have hframe : Bound (m.defineAll p.defs) [] ∅ := ⟨by simp, fun x v hx => by cases hx⟩
  have hnil : Value.nil.Closed (m.defineAll p.defs).Knows := trivial
  have hexprs := evalSeq_named (eval_named hm turns (m.defineAll p.defs).depth)
    (Sees.global _) hts hfollows hsettled.2 hnil
  have hrun : Exec.Ensures namedEndings _ (m.runProgram turns p) _ :=
    Exec.Ensures.runProgram (by simp [namedEndings]) hexprs
  change ∀ code ∈ _, (m.runProgram turns p { channels }).1.code? ≠ some code
  intro code hcode hsome
  rcases hrun.outcome (s := { channels }) hframe with
    ⟨v, s, hend, -⟩ | ⟨d, s, hend, hnamed⟩ | ⟨s, hend, -⟩
  · rw [hend] at hsome
    cases hsome
  · rw [hend] at hsome
    have hcodes : code.IsNamed := by
      rw [← Option.some.inj hsome]
      exact hnamed
    simp only [List.mem_cons, List.not_mem_nil, or_false] at hcode
    rcases hcode with rfl | rfl
    · exact hcodes.1 rfl
    · exact hcodes.2 rfl
  · rw [hend] at hsome
    cases hsome

/-- Assigns a variable in both branches and refers to it. -/
def settling : Program where
  exprs :=
    [.ite (.bool false) (.assign "x" (.number 1)) (.assign "x" (.number 2)), .ref "x"]

theorem settling_named :
    settling.settled = true ∧ ∀ code ∈ [Code.undefinedVariable, .undefinedFunction],
      (Machine.initial.runProgram 1 settling {}).1.code? ≠ some code := by
  have haccepted : (({} : Checker).checkProgram settling).1 = .ok .number :=
    Checker.checkProgram_of_acceptsAt (by decide +kernel)
  have hsettled : settling.settled = true := by decide +kernel
  exact ⟨hsettled, settled_program_named settling .number {} "" 0 1 false Host.none {} haccepted
    hsettled⟩

/-- Assigns a variable in a branch that does not run and refers to it. -/
def skipping : Program where
  exprs := [.ite (.bool false) (.assign "x" (.number 1)) (.number 1), .ref "x"]

/-- The checker accepts a program that misses a name. -/
theorem skipping_misses :
    (({} : Checker).checkProgram skipping).1 = .ok .number ∧
      (Machine.initial.runProgram 1 skipping {}).1.code? = some .undefinedVariable :=
  ⟨Checker.checkProgram_of_acceptsAt (by decide +kernel), by decide +kernel⟩

end TreeLang
