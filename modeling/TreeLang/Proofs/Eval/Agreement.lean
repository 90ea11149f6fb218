import TreeLang.Proofs.Eval.Hereditary
import TreeLang.Proofs.Eval.Tracking
import TreeLang.Proofs.Typing.Resolution

/-!
# Machines that differ in their bound on nesting

`Agrees E Q x y V` says that the evaluation `y` does the very same as `x`, unless `x` has a fault in
`E`, and that all values on the way have a hereditary property `Q`. One level of evaluation agrees
on two machines that differ in their bound only, if the next level does (`step_agrees`). What comes
of this is up to the bounds: under two different ones it compares the runs, and under one and the
same it says that a run never leaves the property. So no run makes a dictionary that has a key twice
(`Machine.runProgram_proper`).
-/

namespace TreeLang

namespace Exec

variable {α β : Type} {E : Diagnostic → Prop} {Q : Value → Prop} {V : α → Prop} {W : β → Prop}

/-! ## Variables -/

/-- All variables have values with the property. -/
def Holding (Q : Value → Prop) (f : Table Value) : Prop := ∀ x v, f.get? x = some v → Q v

theorem Holding.insert {f : Table Value} (h : Holding Q f) (x : String) {v : Value} (hv : Q v) :
    Holding Q (f.insert x v) := by
  intro y w hy
  rw [Table.get?_insert] at hy
  split at hy
  · cases hy
    exact hv
  · exact h y w hy

theorem Holding.callFrame {f : Table Value} (h : Holding Q f) (scoping : Scoping)
    (params : List String) {args : List Value} (hargs : ∀ a ∈ args, Q a) :
    Holding Q (scoping.callFrame f params args) := by
  have hzip {base : Table Value} (hbase : Holding Q base) :
      Holding Q ((params.zip args).foldl (fun t e => t.insert e.1 e.2) base) := by
    induction params generalizing args base with
    | nil => exact hbase
    | cons x params ih =>
      cases args with
      | nil => exact hbase
      | cons a args =>
        obtain ⟨ha, hargs⟩ := List.forall_mem_cons.mp hargs
        exact ih hargs (hbase.insert x ha)
  cases scoping with
  | static => exact hzip nofun
  | dynamic => exact hzip h

/-! ## Evaluations -/

/-- From variables with `Q` the second evaluation does what the first one does, and this leaves
variables with `Q` and a value with `V`. The first one is excused when it ends with a fault in
`E`. -/
def Agrees (E : Diagnostic → Prop) (Q : Value → Prop) (x y : Exec α) (V : α → Prop) : Prop :=
  Tracks E (fun f f' => f' = f ∧ Holding Q f) x y fun a b => b = a ∧ V a

theorem forall₂_eq_and {vs ws : List α} :
    List.Forall₂ (fun a b => b = a ∧ V a) vs ws ↔ ws = vs ∧ ∀ v ∈ vs, V v := by
  induction vs generalizing ws with
  | nil => simp
  | cons v vs ih =>
    rw [List.forall₂_cons_left_iff]
    constructor
    · rintro ⟨_, ws, ⟨rfl, hv⟩, hvs, rfl⟩
      obtain ⟨rfl, hvs⟩ := ih.mp hvs
      exact ⟨rfl, List.forall_mem_cons.mpr ⟨hv, hvs⟩⟩
    · rintro ⟨rfl, h⟩
      obtain ⟨hv, hvs⟩ := List.forall_mem_cons.mp h
      exact ⟨v, vs, ⟨rfl, hv⟩, ih.mpr ⟨rfl, hvs⟩, rfl⟩

namespace Agrees

theorem fault (d : Diagnostic) : Agrees E Q (Exec.fault d) (Exec.fault d) V := Tracks.fault rfl

theorem pure {a : α} (h : V a) : Agrees E Q (Exec.pure a) (Exec.pure a) V := Tracks.pure ⟨rfl, h⟩

theorem bind {x y : Exec α} {f g : α → Exec β} (hxy : Agrees E Q x y V)
    (hfg : ∀ a, V a → Agrees E Q (f a) (g a) W) : Agrees E Q (x >>= f) (y >>= g) W := by
  refine Tracks.bind hxy ?_
  rintro a _ ⟨rfl, ha⟩
  exact hfg _ ha

theorem make (hQ : Value.Hereditary Q) {v : Value} (h : Q v) :
    Agrees E Q (Exec.make v) (Exec.make v) Q :=
  Tracks.make (fun n => ⟨rfl, hQ.numberFrom n h⟩) fun _ => rfl

theorem assign {name : String} {v : Value} (h : Q v) :
    Agrees E Q (Exec.assign name v) (Exec.assign name v) Q := by
  refine Tracks.assign ⟨rfl, h⟩ ?_
  rintro f _ ⟨rfl, hf⟩
  exact ⟨rfl, hf.insert name h⟩

/-- A list made by one evaluation after the other. -/
theorem collect {x y : Exec (List Value)}
    (h : Tracks E (fun f f' => f' = f ∧ Holding Q f) x y
      (List.Forall₂ fun a b => b = a ∧ Q a)) : Agrees E Q x y fun vs => ∀ v ∈ vs, Q v := by
  intro s s' hs
  rcases h s s' hs with hexcused | ⟨hends, hstate⟩
  · exact .inl hexcused
  · exact .inr ⟨hends.mono fun _ _ h => forall₂_eq_and.mp h, hstate⟩

/-- What is said of one run: if it is not excused, then the other one is the same run. -/
theorem run {x y : Exec α} (h : Agrees E Q x y V) {s : RunState} (hs : Holding Q s.frame)
    (hends : ∀ d, (x s).1 = .fault d → ¬E d) :
    y s = x s ∧ Holding Q (x s).2.frame ∧ ∀ a, (x s).1 = .value a → V a := by
  rcases h s s ⟨⟨rfl, hs⟩, rfl, rfl⟩ with ⟨d, hd, hexcused⟩ | ⟨hrel, ⟨hframe, hholding⟩, hch, hmade⟩
  · exact absurd hexcused (hends d hd)
  · rcases hx : x s with ⟨r, frame, channels, made⟩
    rcases hy : y s with ⟨r', frame', channels', made'⟩
    rw [hx, hy] at hrel hframe hch hmade
    rw [hx] at hholding
    dsimp only at hrel hframe hch hmade hholding ⊢
    subst hframe hch hmade
    cases hrel with
    | value h =>
      obtain ⟨rfl, hv⟩ := h
      refine ⟨rfl, hholding, ?_⟩
      rintro _ ⟨⟩
      exact hv
    | _ => exact ⟨rfl, hholding, nofun⟩

end Agrees

/-! ## Builtin functions -/

/-- A builtin function agrees with itself when what it calls back does. -/
theorem primitive_agrees (hQ : Value.Hereditary Q) {call call' : Value → List Value → Exec Value}
    (hcall : ∀ {f args}, Q f → (∀ a ∈ args, Q a) → Agrees E Q (call f args) (call' f args) Q)
    (p : Primitive) {args : List Value} (hargs : ∀ a ∈ args, Q a) :
    Agrees E Q (p.run call args) (p.run call' args) Q := by
  have hlist {x y : Exec (List Value)} (h : Agrees E Q x y fun vs => ∀ v ∈ vs, Q v) :
      Agrees E Q (x >>= fun vs => Exec.pure (.list vs .fresh))
        (y >>= fun vs => Exec.pure (.list vs .fresh)) Q :=
    h.bind fun vs hvs => .pure (hQ.list.mpr hvs)
  have hself {xs : List Value} (hxs : ∀ x ∈ xs, Q x) :
      List.Forall₂ (fun a b => b = a ∧ Q a) xs xs := forall₂_eq_and.mpr ⟨rfl, hxs⟩
  have hcall₁ {f : Value} (hf : Q f) {x y : Value} (hx : y = x ∧ Q x) :
      Tracks E (fun f f' => f' = f ∧ Holding Q f) (call f [x]) (call' f [y])
        fun a b => b = a ∧ Q a := by
    obtain ⟨rfl, hx⟩ := hx
    exact hcall hf (List.forall_mem_singleton.mpr hx)
  unfold Primitive.run
  split
  · next r hr =>
    cases r with
    | ok v => exact .pure (hQ.pureResult hargs hr)
    | error e => exact .fault _
  -- The functions that print, read or call back are left.
  · cases p with
    | print =>
      cases args with
      | nil => exact .fault _
      | cons first rest =>
        refine Tracks.bind (Tracks.printLine _) fun _ _ _ => ?_
        exact Agrees.pure (hargs first (by simp))
    | input =>
      cases args with
      | nil =>
        refine Tracks.bind Tracks.readLine ?_
        rintro line _ rfl
        exact Agrees.pure (hQ.text _ _)
      | cons first rest => exact .fault _
    | map =>
      dsimp only
      split
      · next a f _ =>
        split
        · exact .fault _
        · exact .fault _
        · next xs g hxs hg =>
          rw [Primitive.asCallable_eq hg]
          have hall := hQ.asList hxs (hargs a (by simp))
          exact hlist (.collect (Tracks.mapElems (hself hall) (hcall₁ (hargs f (by simp))) .nil))
      · exact .fault _
    | filter =>
      dsimp only
      split
      · next a f _ =>
        split
        · exact .fault _
        · exact .fault _
        · next xs g hxs hg =>
          rw [Primitive.asCallable_eq hg]
          have hall := hQ.asList hxs (hargs a (by simp))
          exact hlist (.collect (Tracks.filterElems (fun _ _ h => by rw [h.1]) (hself hall)
            (hcall₁ (hargs f (by simp))) .nil))
      · exact .fault _
    | reduce =>
      dsimp only
      split
      · next a f start _ =>
        split
        · exact .fault _
        · exact .fault _
        · next xs g hxs hg =>
          rw [Primitive.asCallable_eq hg]
          refine Tracks.foldElems (hself (hQ.asList hxs (hargs a (by simp)))) ?_
            ⟨rfl, hargs start (by simp)⟩
          rintro acc _ x _ ⟨rfl, hacc⟩ ⟨rfl, hx⟩
          exact hcall (hargs f (by simp)) (by simp [hacc, hx])
      · exact .fault _
    | _ => exact .pure hQ.nil

/-! ## One level of evaluation -/

/-- The functions of a machine have the property, and its host answers with values that have it. -/
structure Supplies (Q : Value → Prop) (m : Machine) : Prop where
  function : ∀ x v, m.function? x = some v → Q v
  host : ∀ id name args v, (∀ a ∈ args, Q a) → (m.host.call id name args).2 = .value v → Q v

section Levels

variable {m : Machine} (hm : Supplies Q m)

include hm

theorem callHost_agrees (id : Nat) (name : String) {args : List Value} (hargs : ∀ a ∈ args, Q a) :
    Agrees E Q (callHost m.host id name args) (callHost m.host id name args) Q := by
  rintro ⟨_, _, _⟩ ⟨frame, channels, made⟩ ⟨⟨rfl, hframe⟩, rfl, rfl⟩
  have hvalue := hm.host id name args
  unfold callHost
  generalize m.host.call id name args = answer at hvalue
  rcases answer with ⟨reached, reply⟩
  -- A call that is recorded changes the channels only.
  cases reply with
  | value v =>
    cases reached <;> exact .inr ⟨.value ⟨rfl, hvalue v hargs rfl⟩, ⟨rfl, hframe⟩, rfl, rfl⟩
  | fault d => cases reached <;> exact .inr ⟨.fault d, ⟨rfl, hframe⟩, rfl, rfl⟩
  | crash => cases reached <;> exact .inr ⟨.crash, ⟨rfl, hframe⟩, rfl, rfl⟩

theorem reference_agrees (e : Expr) (name : String) :
    Agrees E Q (reference m e name) (reference m e name) Q := by
  rintro ⟨_, _, _⟩ ⟨_, _, _⟩ ⟨⟨rfl, hframe⟩, rfl, rfl⟩
  unfold reference
  dsimp only
  split
  · next v hv => exact .inr ⟨.value ⟨rfl, hframe name v hv⟩, ⟨rfl, hframe⟩, rfl, rfl⟩
  · split
    · next f hf => exact .inr ⟨.value ⟨rfl, hm.function name f hf⟩, ⟨rfl, hframe⟩, rfl, rfl⟩
    · exact .inr ⟨.fault _, ⟨rfl, hframe⟩, rfl, rfl⟩

omit hm in
/-- A callee may be any function. -/
theorem callee_agrees (e : Expr) (name : String) :
    Agrees E Q (callee m e name) (callee m e name) fun _ => True := by
  rintro ⟨_, _, _⟩ ⟨_, _, _⟩ ⟨⟨rfl, hframe⟩, rfl, rfl⟩
  unfold callee
  dsimp only
  split
  · exact .inr ⟨.value ⟨rfl, trivial⟩, ⟨rfl, hframe⟩, rfl, rfl⟩
  · split
    · exact .inr ⟨.fault _, ⟨rfl, hframe⟩, rfl, rfl⟩
    · split
      · exact .inr ⟨.value ⟨rfl, trivial⟩, ⟨rfl, hframe⟩, rfl, rfl⟩
      · exact .inr ⟨.fault _, ⟨rfl, hframe⟩, rfl, rfl⟩

variable (limit : Nat) {rec rec' : Expr → Exec Value}
  (hrec : ∀ e, Agrees E Q (rec e) (rec' e) Q)

include hrec

omit hm in
theorem callUser_agrees (f : UserFunction) {args : List Value} (hargs : ∀ a ∈ args, Q a) :
    Agrees E Q (callUser m rec f args) (callUser { m with maxDepth := limit } rec' f args) Q := by
  unfold callUser
  dsimp only
  split
  · exact .fault _
  · refine Tracks.within (fun s s' hs => ?_) (hrec _)
    rw [hs.frame.1]
    exact ⟨rfl, hs.frame.2.callFrame _ _ hargs⟩

omit hm in
theorem evalAll_agrees (es : List Expr) :
    Agrees E Q (evalAll rec es []) (evalAll rec' es []) fun vs => ∀ v ∈ vs, Q v :=
  .collect (Tracks.evalAll (fun e _ => hrec e) .nil)

variable (hQ : Value.Hereditary Q)

include hQ

omit hm in
theorem evalEntries_agrees (es : List (Expr × Expr)) :
    Agrees E Q (evalEntries rec es []) (evalEntries rec' es []) fun d => Q (.dict d .fresh) := by
  refine Tracks.evalEntries ?_ (fun e _ => ⟨hrec e.1, hrec e.2⟩) ⟨rfl, hQ.empty⟩
  rintro k key _ v _ d _ ⟨rfl, hkey⟩ ⟨rfl, hv⟩ ⟨rfl, hd⟩
  unfold setEntry
  split
  · exact Agrees.pure (hQ.set hd hv)
  · exact Agrees.fault _

theorem apply_agrees_of (level : Nat)
    (hback : ∀ {f args}, Q f → (∀ a ∈ args, Q a) → Agrees E Q (callback m rec level f args)
      (callback { m with maxDepth := limit } rec' level f args) Q)
    (f : Value) {args : List Value} (hargs : ∀ a ∈ args, Q a) :
    Agrees E Q (apply m rec level f args)
      (apply { m with maxDepth := limit } rec' level f args) Q := by
  cases f with
  | function f =>
    rw [apply_function, apply_function]
    exact callUser_agrees limit hrec f hargs
  | builtin b =>
    rw [apply_builtin, apply_builtin]
    split
    · exact (callHost_agrees hm _ _ hargs).bind fun _ => .make hQ
    · exact (primitive_agrees hQ hback _ hargs).bind fun _ => .make hQ
  | _ =>
    rw [apply_other _ _ _ _ rfl, apply_other _ _ _ _ rfl]
    exact .fault _

theorem apply_agrees (level : Nat) (f : Value) {args : List Value} (hargs : ∀ a ∈ args, Q a) :
    Agrees E Q (apply m rec level f args)
      (apply { m with maxDepth := limit } rec' level f args) Q := by
  induction level generalizing f args with
  | zero => exact apply_agrees_of hm limit hrec hQ 0 (fun _ _ => .pure hQ.nil) f hargs
  | succ level ih =>
    exact apply_agrees_of hm limit hrec hQ (level + 1) (fun {f _} _ hargs => ih f hargs) f hargs

/-- One level of evaluation agrees if the next one does. -/
theorem step_agrees (hE : ∀ d node, E d → E (d.withNode node)) (turns : Nat) (e : Expr) :
    Agrees E Q (step m turns rec e) (step { m with maxDepth := limit } turns rec' e) Q := by
  cases e with
  | number x => exact .make hQ (hQ.number _ _)
  | text s => exact .make hQ (hQ.text _ _)
  | bool b => exact .pure (hQ.bool _ _)
  | ref name => exact reference_agrees hm _ name
  | assign name value => exact (hrec value).bind fun _ => .assign
  | binary op l r =>
    refine (hrec l).bind fun v hv => (hrec r).bind fun w hw => ?_
    split
    · next h => exact .make hQ (hQ.operator h hv hw)
    · exact .fault _
  | call name args =>
    refine (callee_agrees (m := m) (.call name args) name).bind fun f _ => ?_
    refine (evalAll_agrees hrec args).bind fun vs hvs => ?_
    exact Tracks.onFault (fun d => hE d _) (apply_agrees hm limit hrec hQ vs.length f hvs)
  | ite c t f =>
    refine (hrec c).bind fun v _ => ?_
    split
    · exact hrec t
    · exact hrec f
  | loop c b =>
    exact Tracks.repeatWhile ⟨rfl, hQ.nil⟩ (fun _ _ h => by rw [h.1]) (hrec c) (hrec b) turns
  | seq bodies => exact Tracks.evalSeq (fun e _ => hrec e) ⟨rfl, hQ.nil⟩
  | list elems => exact (evalAll_agrees hrec elems).bind fun _ hvs => .make hQ (hQ.list.mpr hvs)
  | dict entries => exact (evalEntries_agrees hrec hQ entries).bind fun _ => .make hQ

end Levels

/-! ## One machine -/

/-- Evaluation hands on every hereditary property that functions have and that the host hands on. -/
theorem eval_agrees (hQ : Value.Hereditary Q) {m : Machine} (hm : Supplies Q m)
    (turns depth : Nat) (e : Expr) :
    Agrees (fun _ => False) Q (eval m turns depth e) (eval m turns depth e) Q := by
  induction depth generalizing e with
  | zero => exact .fault _
  | succ depth ih =>
    rw [eval]
    split
    · exact .fault _
    · exact step_agrees hm m.maxDepth ih hQ (fun _ _ h => h) turns e

end Exec

/-! ## Dictionaries without repeated keys -/

/-- No run of a program makes a dictionary that has a key twice, neither in its value nor in a
variable, if no host function does. -/
theorem Machine.runProgram_proper {m : Machine} {p : Program}
    (hhost : ∀ id name args v, (∀ a ∈ args, a.Proper) →
      (m.host.call id name args).2 = .value v → v.Proper)
    (turns : Nat) {s : RunState} (hs : ∀ x v, s.frame.get? x = some v → v.Proper) :
    (∀ x v, (m.runProgram turns p s).2.frame.get? x = some v → v.Proper) ∧
      ∀ v, (m.runProgram turns p s).1 = .value v → v.Proper := by
  have hm : Exec.Supplies Value.Proper (m.defineAll p.defs) := by
    refine ⟨fun x v hx => ?_, by rwa [m.host_defineAll]⟩
    unfold Machine.function? at hx
    split at hx
    · cases hx
      simp [Value.Proper, Value.throughout_atom]
    · obtain ⟨b, -, rfl⟩ := Option.map_eq_some_iff.mp hx
      simp [Value.Proper, Value.throughout_atom]
  have hrun : Exec.Agrees (fun _ => False) Value.Proper (m.runProgram turns p)
      (m.runProgram turns p) Value.Proper :=
    Exec.Tracks.onFault (fun _ h => h) (Exec.Tracks.evalSeq
      (fun e _ => Exec.eval_agrees Value.proper_hereditary hm turns _ e)
      ⟨rfl, Value.proper_hereditary.nil⟩)
  exact (hrun.run hs fun _ _ h => h).2

end TreeLang
