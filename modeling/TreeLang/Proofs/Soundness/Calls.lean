import Mathlib.Data.List.Forall2
import TreeLang.Proofs.Soundness.Core
import TreeLang.Proofs.Eval.Triples
import TreeLang.Proofs.Value.Fits

/-!
# Calls on values of the right types

`CanCall m v ts t` says that calling `v` on arguments of the types `ts` should give a value of type
`t`. Main statements: `Primitive.run_fits` for the builtin functions, each of which meets its
declared type, `apply_fits` for all calls, given that the bodies of user functions do, and a rule in
`Exec.GivesType` for each form of expression without assignments.
-/

namespace TreeLang

/-- Calling the value on arguments of the first types should give a value of the last one. -/
inductive CanCall (m : Machine) : Value → List Ty → Ty → Prop
  | user {f : UserFunction} : m.Knows (.function f) →
      CanCall m (.function f) f.definition.signature.params f.definition.result
  | builtin {p : Primitive} {τ : String → Ty} {ts : List Ty} : p ∉ Primitive.partials →
      p.type.Takes τ ts → CanCall m (.builtin (.ofPrimitive p)) ts (p.type.result.bind τ)

theorem Primitive.not_mem_partials_of_ground {p : Primitive} (h : p.type.toTy.Ground) :
    p ∉ partials := by
  revert h
  cases p <;> decide

/-- A function value of a ground type can be called at this type. -/
theorem Value.Fits.canCall {m : Machine} {v : Value} {g : FnType} {τ : String → Ty}
    {ts : List Ty} (hv : v.Fits m.Knows g.toTy) (hg : g.toTy.Ground) (ht : g.Takes τ ts) :
    CanCall m v ts (g.result.bind τ) := by
  have hground := Ty.ground_fn.mp hg
  rcases Value.fits_fn_iff.mp hv with ⟨hknown, ⟨f, rfl, hsig⟩ | ⟨b, rfl, htype⟩⟩
  · have hvariadic : g.variadic = false := (congrArg FnType.variadic hsig).symm
    have hparams : f.definition.signature.params = g.params := congrArg FnType.params hsig
    have hresult : f.definition.result = g.result := congrArg FnType.result hsig
    have hts : ts = g.params := by
      rw [ht.eq_map hvariadic]
      conv => rhs; rw [← List.map_id g.params]
      exact List.map_congr_left fun p hp => (hground.1 p hp).bind_eq τ
    rw [hts, hground.2.bind_eq τ, ← hparams, ← hresult]
    exact .user hknown
  · rcases hknown with ⟨p, rfl⟩
    have hg' : g = p.type := htype.symm
    subst hg'
    exact .builtin (Primitive.not_mem_partials_of_ground hg) ht

/-! ## Builtin functions -/

section Builtins

variable {A : Endings} {P : Table Value → Prop} {m : Machine} {τ : String → Ty}
  {call : Value → List Value → Exec Value} {args : List Value} {ts : List Ty}

/-- The call gives a value of the type and keeps the variables. -/
def Exec.GivesType (A : Endings) (P : Table Value → Prop) (m : Machine) (x : Exec Value) (t : Ty) :
    Prop :=
  Exec.Ensures A P x fun v f => P f ∧ v.Fits m.Knows t

theorem Exec.givesType_make {x : Exec Value} {t : Ty} (h : GivesType A P m x t) :
    GivesType A P m (do Exec.make (← x)) t :=
  h.bind fun _ => Exec.Ensures.make fun _ n hv => ⟨hv.1, hv.2.numberFrom n⟩

theorem Primitive.run_of_pureResult {p : Primitive} {v : Value}
    (h : p.pureResult args = some (.ok v)) : p.run call args = Exec.pure v := by
  simp [Primitive.run, h, Exec.ofRefusable]

theorem Primitive.mapM_asNumber {p : Primitive} (h : ∀ v ∈ args, v.Fits m.Knows .number) :
    ∃ xs, args.mapM p.asNumber = .ok xs := by
  induction args with
  | nil => exact ⟨[], rfl⟩
  | cons v vs ih =>
    rcases Value.fits_number_iff.mp (h v (by simp)) with ⟨x, id, rfl⟩
    rcases ih fun w hw => h w (by simp [hw]) with ⟨xs, hxs⟩
    exact ⟨x :: xs, by rw [List.mapM_cons, hxs]; rfl⟩

/-- All arguments of a function with one repeated parameter have its type. -/
theorem FnType.Takes.all_repeated {q r : Ty} (h : FnType.Takes ⟨[q], r, true⟩ τ ts)
    (hargs : List.Forall₂ (Value.Fits m.Knows) args ts) :
    ∀ v ∈ args, v.Fits m.Knows (q.bind τ) := by
  intro v hv
  rcases List.mem_iff_get.mp hv with ⟨i, rfl⟩
  -- Every argument stands at the place of the one parameter.
  have hlt : i.1 < ts.length := hargs.length_eq ▸ i.2
  have hq : q.bind τ = ts[i.1] :=
    h.args i.1 _ q (List.getElem?_eq_getElem hlt) (by simp [FnType.paramAt?])
  rw [hq]
  exact hargs.get i.2 hlt

/-- Calls from inside a call with the arguments `args` give what they should. -/
def CallsBack (A : Endings) (P : Table Value → Prop) (m : Machine)
    (call : Value → List Value → Exec Value) (args : List Value) : Prop :=
  ∀ {v : Value} {as : List Value} {us : List Ty} {u : Ty}, CanCall m v us u →
    (∀ t ∈ us, t.Ground) → List.Forall₂ (Value.Fits m.Knows) as us → as.length < args.length →
    Exec.GivesType A P m (call v as) u

theorem Value.Fits.isCallable {v : Value} {ps : List Ty} {r : Ty} {variadic : Bool}
    (h : v.Fits m.Knows (.fn ps r variadic)) : v.isCallable = true := by
  rcases Value.fits_fn_iff.mp h with ⟨-, ⟨f, rfl, -⟩ | ⟨b, rfl, -⟩⟩ <;> rfl

/-- A function argument can be called back. -/
theorem CallsBack.apply (hcall : CallsBack A P m call args) {v : Value} {ps : List Ty} {r : Ty}
    (hv : v.Fits m.Knows (.fn ps r false)) (hground : (Ty.fn ps r false).Ground)
    {as : List Value} (has : List.Forall₂ (Value.Fits m.Knows) as ps)
    (hlen : as.length < args.length) : Exec.GivesType A P m (call v as) r := by
  have hcan : CanCall m v ps (r.bind .var) :=
    Value.Fits.canCall (g := ⟨ps, r, false⟩) hv hground FnType.takes_params
  rw [Ty.bind_var] at hcan
  exact hcall hcan (Ty.ground_fn.mp hground).1 has hlen

theorem Exec.givesType_pure {v : Value} {t : Ty} (h : v.Fits m.Knows t) :
    GivesType A P m (Exec.pure v) t :=
  Exec.Ensures.pure fun _ hf => ⟨hf, h⟩

theorem Primitive.givesType_of_pureResult {p : Primitive} {v : Value} {t : Ty}
    (h : p.pureResult args = some (.ok v)) (hv : v.Fits m.Knows t) :
    Exec.GivesType A P m (p.run call args) t := by
  rw [run_of_pureResult h]
  exact Exec.givesType_pure hv

theorem forall₂_one {α β : Type} {R : α → β → Prop} {xs : List α} {b : β}
    (h : List.Forall₂ R xs [b]) : ∃ a, xs = [a] ∧ R a b := by
  cases h with
  | cons ha hrest =>
    cases hrest
    exact ⟨_, rfl, ha⟩

theorem forall₂_two {α β : Type} {R : α → β → Prop} {xs : List α} {b c : β}
    (h : List.Forall₂ R xs [b, c]) : ∃ a a', xs = [a, a'] ∧ R a b ∧ R a' c := by
  cases h with
  | cons ha hrest =>
    rcases forall₂_one hrest with ⟨a', rfl, ha'⟩
    exact ⟨_, a', rfl, ha, ha'⟩

theorem forall₂_three {α β : Type} {R : α → β → Prop} {xs : List α} {b c d : β}
    (h : List.Forall₂ R xs [b, c, d]) :
    ∃ a a' a'', xs = [a, a', a''] ∧ R a b ∧ R a' c ∧ R a'' d := by
  cases h with
  | cons ha hrest =>
    rcases forall₂_two hrest with ⟨a', a'', rfl, ha', ha''⟩
    exact ⟨_, a', a'', rfl, ha, ha', ha''⟩

section Elements

variable {f : Value} {xs : List Value} {id : Identity} {t u : Ty}

-- The equations of `pureResult`, a match on all functions, are made here once for what follows.
attribute [local simp] Primitive.run Primitive.pureResult in
theorem Primitive.run_map (hf : f.isCallable = true)
    (helem : ∀ x ∈ xs, Exec.GivesType A P m (call f [x]) u) :
    Exec.GivesType A P m (run call .map [.list xs id, f]) (.list u) := by
  have hmap := Exec.Ensures.mapElems helem (List.forall_mem_nil _)
  simp only [run, pureResult, asList, asCallable, hf, if_true]
  refine hmap.bind fun vs => Exec.Ensures.pure fun fr hfr => ⟨hfr.1, ?_⟩
  exact Value.fits_list.mpr ⟨u, rfl, hfr.2⟩

theorem Primitive.run_filter (hf : f.isCallable = true) (hxs : ∀ x ∈ xs, x.Fits m.Knows t)
    (helem : ∀ x ∈ xs, Exec.GivesType A P m (call f [x]) u) :
    Exec.GivesType A P m (run call .filter [.list xs id, f]) (.list t) := by
  have hkept : ∀ x ∈ xs, Exec.Ensures A P (call f [x]) fun _ fr => P fr :=
    fun x hx => (helem x hx).post fun _ _ h => h.1
  have hfilter := Exec.Ensures.filterElems hkept hxs (List.forall_mem_nil _)
  simp only [run, pureResult, asList, asCallable, hf, if_true]
  refine hfilter.bind fun vs => Exec.Ensures.pure fun fr hfr => ⟨hfr.1, ?_⟩
  exact Value.fits_list.mpr ⟨t, rfl, hfr.2⟩

theorem Primitive.run_reduce (hf : f.isCallable = true)
    (helem : ∀ acc : Value, acc.Fits m.Knows u → ∀ x ∈ xs,
      Exec.GivesType A P m (call f [acc, x]) u) {start : Value} (hstart : start.Fits m.Knows u) :
    Exec.GivesType A P m (run call .reduce [.list xs id, f, start]) u := by
  simp only [run, pureResult, asList, asCallable, hf, if_true]
  exact Exec.Ensures.foldElems helem hstart

end Elements

/-- The builtin functions that print, read or call back. -/
def Primitive.effectful : List Primitive := [.print, .input, .map, .filter, .reduce]

/-- Every other builtin function but `get` and `len` has a value of its declared type. -/
theorem Primitive.pureResult_fits {p : Primitive} (hp : p ∉ partials) (hpure : p ∉ effectful)
    (ht : p.type.Takes τ ts) (hargs : List.Forall₂ (Value.Fits m.Knows) args ts) :
    ∃ v, p.pureResult args = some (.ok v) ∧ v.Fits m.Knows (p.type.result.bind τ) := by
  cases p with
  | get | len => exact absurd (by decide) hp
  | print | input | map | filter | reduce => exact absurd (by decide) hpure
  | add =>
    rcases mapM_asNumber (p := .add) (ht.all_repeated hargs) with ⟨xs, hxs⟩
    have hpure : pureResult .add args = some (.ok (.number (xs.foldl (· + ·) 0.0) .fresh)) := by
      simp only [pureResult, hxs]
      rfl
    exact ⟨_, hpure, rfl⟩
  | mul =>
    rcases mapM_asNumber (p := .mul) (ht.all_repeated hargs) with ⟨xs, hxs⟩
    have hpure : pureResult .mul args = some (.ok (.number (xs.foldl (· * ·) 1.0) .fresh)) := by
      simp only [pureResult, hxs]
      rfl
    exact ⟨_, hpure, rfl⟩
  | toUpperCase =>
    rw [ht.eq_map rfl] at hargs
    rcases forall₂_one hargs with ⟨a, rfl, ha⟩
    rcases Value.fits_text_iff.mp ha with ⟨s, id, rfl⟩
    exact ⟨_, rfl, rfl⟩
  | split =>
    rw [ht.eq_map rfl] at hargs
    rcases forall₂_two hargs with ⟨a, b, rfl, ha, hb⟩
    rcases Value.fits_text_iff.mp ha with ⟨s, id, rfl⟩
    rcases Value.fits_text_iff.mp hb with ⟨sep, id', rfl⟩
    refine ⟨_, rfl, Value.fits_list.mpr ⟨.text, rfl, fun v hv => ?_⟩⟩
    rcases List.mem_map.mp hv with ⟨piece, -, rfl⟩
    rfl
  | join =>
    rw [ht.eq_map rfl] at hargs
    rcases forall₂_two hargs with ⟨a, b, rfl, ha, hb⟩
    rcases Value.fits_list_iff.mp ha with ⟨xs, id, rfl, -⟩
    rcases Value.fits_text_iff.mp hb with ⟨sep, id', rfl⟩
    exact ⟨_, rfl, rfl⟩
  | keys =>
    rw [ht.eq_map rfl] at hargs
    rcases forall₂_one hargs with ⟨a, rfl, ha⟩
    rcases Value.fits_dict_iff.mp ha with ⟨d, id, rfl, hd⟩
    refine ⟨_, rfl, Value.fits_list.mpr ⟨τ "K", rfl, fun v hv => ?_⟩⟩
    rcases List.mem_map.mp hv with ⟨e, he, rfl⟩
    have hkey : Value.keyType e.1 = τ "K" := (hd e he).1
    rw [← hkey]
    exact Value.fits_key e.1
  | values =>
    rw [ht.eq_map rfl] at hargs
    rcases forall₂_one hargs with ⟨a, rfl, ha⟩
    rcases Value.fits_dict_iff.mp ha with ⟨d, id, rfl, hd⟩
    refine ⟨_, rfl, Value.fits_list.mpr ⟨τ "V", rfl, fun v hv => ?_⟩⟩
    rcases List.mem_map.mp hv with ⟨e, he, rfl⟩
    exact (hd e he).2
  | hasKey =>
    rw [ht.eq_map rfl] at hargs
    rcases forall₂_two hargs with ⟨a, k, rfl, ha, -⟩
    rcases Value.fits_dict_iff.mp ha with ⟨d, id, rfl, -⟩
    exact ⟨_, rfl, rfl⟩
  | merge =>
    rw [ht.eq_map rfl] at hargs
    rcases forall₂_two hargs with ⟨a, b, rfl, ha, hb⟩
    rcases Value.fits_dict_iff.mp ha with ⟨d, id, rfl, hd⟩
    rcases Value.fits_dict_iff.mp hb with ⟨d', id', rfl, hd'⟩
    refine ⟨_, rfl, Value.fits_dict.mpr ⟨τ "K", τ "V", rfl, ?_⟩⟩
    exact Dict.merge_induct (K := fun k => Value.keyType k = τ "K")
      (V := fun v => v.Fits m.Knows (τ "V")) hd hd'
  | and | or =>
    rw [ht.eq_map rfl] at hargs
    rcases forall₂_two hargs with ⟨a, b, rfl, ha, hb⟩
    rcases Value.fits_boolean_iff.mp ha with ⟨x, id, rfl⟩
    rcases Value.fits_boolean_iff.mp hb with ⟨y, id', rfl⟩
    exact ⟨_, rfl, rfl⟩
  | not =>
    rw [ht.eq_map rfl] at hargs
    rcases forall₂_one hargs with ⟨a, rfl, ha⟩
    rcases Value.fits_boolean_iff.mp ha with ⟨x, id, rfl⟩
    exact ⟨_, rfl, rfl⟩

/-- Every builtin function but `get` and `len` meets its declared type. -/
theorem Primitive.run_fits (hA : ∀ d : Diagnostic, d.code = .runtimeError → A.fault d)
    {p : Primitive} (hp : p ∉ partials) (ht : p.type.Takes τ ts) (hground : ∀ t ∈ ts, t.Ground)
    (hargs : List.Forall₂ (Value.Fits m.Knows) args ts) (hcall : CallsBack A P m call args) :
    Exec.GivesType A P m (p.run call args) (p.type.result.bind τ) := by
  cases p with
  | print =>
    rw [ht.eq_map rfl] at hargs
    rcases forall₂_one hargs with ⟨a, rfl, ha⟩
    have hprint := Exec.Ensures.printLine (P := P) (fun _ => hA _ rfl)
      (Text.join " " ([a].map Value.inspect))
    exact hprint.bind fun _ => Exec.givesType_pure ha
  | input =>
    rw [ht.eq_map rfl] at hargs
    cases hargs
    exact (Exec.Ensures.readLine fun _ => hA _ rfl).bind fun _ => Exec.givesType_pure rfl
  | map =>
    rw [ht.eq_map rfl] at hargs hground
    rcases forall₂_two hargs with ⟨a, f, rfl, ha, hf⟩
    rcases Value.fits_list_iff.mp ha with ⟨xs, id, rfl, hxs⟩
    have hfn : (Ty.fn [τ "T"] (τ "U") false).Ground :=
      hground _ (by simp [type, Ty.bind, Ty.bindAll])
    have helem : ∀ x ∈ xs, Exec.GivesType A P m (call f [x]) (τ "U") := fun x hx =>
      hcall.apply hf hfn (.cons (hxs x hx) .nil) (by simp)
    exact run_map hf.isCallable helem
  | filter =>
    rw [ht.eq_map rfl] at hargs hground
    rcases forall₂_two hargs with ⟨a, f, rfl, ha, hf⟩
    rcases Value.fits_list_iff.mp ha with ⟨xs, id, rfl, hxs⟩
    have hfn : (Ty.fn [τ "T"] .boolean false).Ground :=
      hground _ (by simp [type, Ty.bind, Ty.bindAll, Ty.boolean])
    have helem : ∀ x ∈ xs, Exec.GivesType A P m (call f [x]) .boolean := fun x hx =>
      hcall.apply hf hfn (.cons (hxs x hx) .nil) (by simp)
    exact run_filter hf.isCallable hxs helem
  | reduce =>
    rw [ht.eq_map rfl] at hargs hground
    rcases forall₂_three hargs with ⟨a, f, start, rfl, ha, hf, hstart⟩
    rcases Value.fits_list_iff.mp ha with ⟨xs, id, rfl, hxs⟩
    have hfn : (Ty.fn [τ "U", τ "T"] (τ "U") false).Ground :=
      hground _ (by simp [type, Ty.bind, Ty.bindAll])
    have helem : ∀ acc : Value, acc.Fits m.Knows (τ "U") → ∀ x ∈ xs,
        Exec.GivesType A P m (call f [acc, x]) (τ "U") := fun acc hacc x hx =>
      hcall.apply hf hfn (.cons hacc (.cons (hxs x hx) .nil)) (by simp)
    exact run_reduce hf.isCallable helem hstart
  | _ =>
    rcases pureResult_fits hp (by decide) ht hargs with ⟨v, hv, hfits⟩
    exact givesType_of_pureResult hv hfits

end Builtins

/-! ## All calls -/

section Apply

variable {A : Endings} {P : Table Value → Prop} {m : Machine} {body : Expr → Exec Value}

/-- The body of every user function gives its declared result on arguments of the declared types. -/
def BodiesMeet (A : Endings) (m : Machine) (body : Expr → Exec Value) : Prop :=
  ∀ f, m.Knows (.function f) → ∀ args caller,
    List.Forall₂ (Value.Fits m.Knows) args f.definition.signature.params →
    Exec.Ensures A (· = Scoping.static.callFrame caller f.definition.paramNames args)
      (body f.definition.body) fun v _ => v.Fits m.Knows f.definition.result

theorem callUser_fits (hstatic : m.scoping = .static) (hbody : BodiesMeet A m body)
    {f : UserFunction} (hf : m.Knows (.function f)) {args : List Value}
    (hargs : List.Forall₂ (Value.Fits m.Knows) args f.definition.signature.params) :
    Exec.GivesType A P m (Exec.callUser m body f args) f.definition.result := by
  have hlen : args.length = f.definition.params.length := by
    rw [hargs.length_eq, FunctionDef.signature, List.length_map]
  simp only [Exec.callUser, hlen, ne_eq, not_true, if_false, hstatic]
  refine Exec.Ensures.within (fun s _ => ?_) (hbody f hf args ∅ hargs)
  rfl

/-- A call on arguments of the right types gives a value of the right type. -/
theorem apply_fits (hA : ∀ d : Diagnostic, d.code = .runtimeError → A.fault d)
    (hstatic : m.scoping = .static) (hbody : BodiesMeet A m body) {level : Nat} {v : Value}
    {args : List Value} {ts : List Ty} {t : Ty} (hcan : CanCall m v ts t)
    (hground : ∀ t ∈ ts, t.Ground) (hargs : List.Forall₂ (Value.Fits m.Knows) args ts)
    (hlevel : args.length ≤ level) : Exec.GivesType A P m (Exec.apply m body level v args) t := by
  -- A callback has fewer arguments than the call it comes from, so the level does not run out.
  induction level generalizing v args ts t with
  | zero =>
    cases hcan with
    | user hf =>
      rw [Exec.apply]
      exact callUser_fits hstatic hbody hf hargs
    | builtin hp ht =>
      rw [Exec.apply]
      refine Exec.givesType_make (Primitive.run_fits hA hp ht hground hargs ?_)
      intro _ as _ _ _ _ _ hlt
      omega
  | succ level ih =>
    cases hcan with
    | user hf =>
      rw [Exec.apply]
      exact callUser_fits hstatic hbody hf hargs
    | builtin hp ht =>
      rw [Exec.apply]
      refine Exec.givesType_make (Primitive.run_fits hA hp ht hground hargs ?_)
      intro _ as _ _ hcan' hground' hargs' hlt
      exact ih hcan' hground' hargs' (by omega)

end Apply

/-! ## Operators -/

theorem Operator.run_fits {known : Value → Prop} {op : Operator} {lt rt t : Ty} {l r : Value}
    (h : op.Types lt rt t) (hl : l.Fits known lt) (hr : r.Fits known rt) :
    ∃ v, op.run l r = .ok v ∧ v.Fits known t := by
  cases h with
  | numeric hop =>
    rcases Value.fits_number_iff.mp hl with ⟨x, id, rfl⟩
    rcases Value.fits_number_iff.mp hr with ⟨y, id', rfl⟩
    simp only [List.mem_cons, List.not_mem_nil, or_false] at hop
    rcases hop with rfl | rfl | rfl | rfl | rfl <;> exact ⟨_, rfl, rfl⟩
  | text =>
    rcases Value.fits_text_iff.mp hl with ⟨x, id, rfl⟩
    exact ⟨_, rfl, rfl⟩
  | list hsame =>
    rcases Value.fits_list_iff.mp hl with ⟨xs, id, rfl, hxs⟩
    rcases Value.fits_list_iff.mp hr with ⟨ys, id', rfl, hys⟩
    rw [← Ty.eq_of_same hsame] at hys
    refine ⟨_, rfl, Value.fits_list.mpr ⟨_, rfl, fun v hv => ?_⟩⟩
    rcases List.mem_append.mp hv with hv | hv
    · exact hxs v hv
    · exact hys v hv
  | comparison hop =>
    simp only [List.mem_cons, List.not_mem_nil, or_false] at hop
    rcases hop with rfl | rfl | rfl | rfl | rfl | rfl <;> exact ⟨_, rfl, rfl⟩

/-! ## Expressions that keep the variables -/

/-- The function has no effects, keeps to its declared type, and takes a fixed number of arguments,
at least one. -/
def Primitive.isPlain (p : Primitive) : Bool :=
  decide (p ∉ partials) && decide (p ∉ effectful) && !p.type.variadic && !p.type.params.isEmpty

namespace Exec.GivesType

variable {A : Endings} {P : Table Value → Prop} {m : Machine} {turns : Nat}
  {rec : Expr → Exec Value}

theorem number (x : Float) : GivesType A P m (step m turns rec (.number x)) .number :=
  Ensures.make (v := .number x .fresh) fun _ _ hf => ⟨hf, rfl⟩

theorem text (x : String) : GivesType A P m (step m turns rec (.text x)) .text :=
  Ensures.make (v := .text x .fresh) fun _ _ hf => ⟨hf, rfl⟩

theorem bool (b : Bool) : GivesType A P m (step m turns rec (.bool b)) .boolean :=
  givesType_pure rfl

theorem ref {name : String} {t : Ty}
    (h : ∀ f, P f → ∃ v, f.get? name = some v ∧ v.Fits m.Knows t) :
    GivesType A P m (step m turns rec (.ref name)) t := by
  intro s hs
  rcases h _ hs with ⟨v, hget, hv⟩
  simp only [step, reference, hget]
  exact ⟨hs, hv⟩

theorem binary {op : Operator} {l r : Expr} {lt rt t : Ty} (hl : GivesType A P m (rec l) lt)
    (hr : GivesType A P m (rec r) rt) (hop : op.Types lt rt t) :
    GivesType A P m (step m turns rec (.binary op l r)) t := by
  refine hl.bind_kept fun v hv => hr.bind_kept fun w hw => ?_
  rcases Operator.run_fits hop hv hw with ⟨u, hu, hfits⟩
  simp only [hu]
  exact Ensures.make fun f n hf => ⟨hf, hfits.numberFrom n⟩

theorem ite {c t f : Expr} {u v : Ty} (hc : GivesType A P m (rec c) v)
    (ht : GivesType A P m (rec t) u) (hf : GivesType A P m (rec f) u) :
    GivesType A P m (step m turns rec (.ite c t f)) u := by
  refine hc.bind_kept fun v _ => ?_
  split
  · exact ht
  · exact hf

theorem list {es : List Expr} {t : Ty} (hes : ∀ e ∈ es, GivesType A P m (rec e) t) :
    GivesType A P m (step m turns rec (.list es)) (.list t) := by
  have hall : List.Forall₂ (fun e (R : Value → Prop) => Ensures A P (rec e) fun v f => P f ∧ R v) es
      (es.map fun _ => (Value.Fits m.Knows · t)) := by
    rw [List.forall₂_map_right_iff, List.forall₂_same]
    exact hes
  refine (Ensures.evalAll hall).bind_kept ?_
  rintro vs ⟨ws, hvs, hws⟩
  have heq : vs = ws := by simpa using hvs
  subst heq
  rw [List.forall₂_map_right_iff] at hws
  have hfit : ∀ v ∈ vs, v.Fits m.Knows t := by
    intro v hv
    rcases List.mem_iff_get.mp hv with ⟨i, rfl⟩
    exact hws.get i.2 (hws.length_eq ▸ i.2)
  exact Ensures.make fun f n hf =>
    ⟨hf, Value.Fits.numberFrom (Value.fits_list.mpr ⟨_, rfl, hfit⟩) n⟩

section Calls

variable (hA : ∀ d node, A.fault d → A.fault (d.withNode node)) {args : List Expr}
include hA

/-- A call of a builtin function, which may call back on any level. -/
theorem callBuiltin {p : Primitive} (hp : m.function? p.name = some (.builtin (.ofPrimitive p)))
    {Rs : List (Value → Prop)}
    (hargs : List.Forall₂ (fun e R => Ensures A P (rec e) fun v f => P f ∧ R v) args Rs) {t : Ty}
    (hrun : ∀ level vs, List.Forall₂ (fun v R => R v) vs Rs →
      GivesType A P m (p.run (apply m rec level) vs) t) (hne : Rs ≠ []) :
    GivesType A P m (step m turns rec (.call p.name args)) t := by
  refine Ensures.call hA hp hargs fun vs hvs => ?_
  cases hvs with
  -- Without arguments there would be no level left for a callback.
  | nil => exact absurd rfl hne
  | cons hv hrest => exact givesType_make (hrun _ _ (.cons hv hrest))

/-- A call of a plain builtin function. -/
theorem callPlain {p : Primitive} (hp : m.function? p.name = some (.builtin (.ofPrimitive p)))
    (hplain : p.isPlain = true) {τ : String → Ty}
    (hargs : List.Forall₂ (fun e t => GivesType A P m (rec e) t) args
      (p.type.params.map (·.bind τ))) :
    GivesType A P m (step m turns rec (.call p.name args)) (p.type.result.bind τ) := by
  simp only [Primitive.isPlain, Bool.and_eq_true, decide_eq_true_eq, Bool.not_eq_true',
    List.isEmpty_eq_false_iff] at hplain
  rcases hplain with ⟨⟨⟨htotal, hpure⟩, hvariadic⟩, hne⟩
  have hargs' : List.Forall₂ (fun e (R : Value → Prop) => Ensures A P (rec e) fun v f => P f ∧ R v)
      args ((p.type.params.map (·.bind τ)).map fun t => (Value.Fits m.Knows · t)) := by
    rw [List.forall₂_map_right_iff]
    exact hargs
  refine callBuiltin hA hp hargs' (fun level vs hvs => ?_) (by simpa using hne)
  rw [List.forall₂_map_right_iff] at hvs
  rcases Primitive.pureResult_fits htotal hpure (FnType.takes_instance hvariadic τ) hvs with
    ⟨v, hv, hfits⟩
  exact Primitive.givesType_of_pureResult hv hfits

/-- A call of a user function. -/
theorem callUser (hstatic : m.scoping = .static) (hbodies : BodiesMeet A m rec) {name : String}
    {u : UserFunction} (hu : m.functions.get? name = some u)
    (hargs : List.Forall₂ (fun e t => GivesType A P m (rec e) t) args
      u.definition.signature.params) :
    GivesType A P m (step m turns rec (.call name args)) u.definition.result := by
  have hargs' : List.Forall₂ (fun e (R : Value → Prop) => Ensures A P (rec e) fun v f => P f ∧ R v)
      args (u.definition.signature.params.map fun t => (Value.Fits m.Knows · t)) := by
    rw [List.forall₂_map_right_iff]
    exact hargs
  have hcallee : m.function? name = some (.function u) := by simp [Machine.function?, hu]
  refine Ensures.call hA hcallee hargs' fun vs hvs => ?_
  rw [List.forall₂_map_right_iff] at hvs
  rw [apply]
  exact callUser_fits hstatic hbodies ⟨name, hu⟩ hvs

end Calls

end Exec.GivesType

end TreeLang
