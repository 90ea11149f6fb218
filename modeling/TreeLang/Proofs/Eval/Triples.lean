import Mathlib.Data.List.Forall2
import TreeLang.Eval.Machine

/-!
# Specifications of runs

`Ensures A P x Q` says what the evaluation `x` does with variables that satisfy `P`: a value comes
with variables that satisfy `Q`, and every other ending is allowed by `A`. A crash is never allowed.
Channels and object numbers have no part in a specification. There is one rule for each way in which
the evaluator puts evaluations together.
-/

namespace TreeLang

/-- The endings without a value that a specification allows. -/
structure Endings where
  fault : Diagnostic → Prop
  unfinished : Prop

namespace Exec

variable {α β : Type} {A : Endings} {P P' : Table Value → Prop} {Q Q' : α → Table Value → Prop}

/-- From variables with `P` the evaluation gives a value with `Q`, or has an allowed ending. -/
def Ensures (A : Endings) (P : Table Value → Prop) (x : Exec α) (Q : α → Table Value → Prop) :
    Prop :=
  ∀ s, P s.frame → match x s with
    | (.value a, s') => Q a s'.frame
    | (.fault d, _) => A.fault d
    | (.crash, _) => False
    | (.unfinished, _) => A.unfinished

namespace Ensures

theorem mono {x : Exec α} (h : Ensures A P x Q) (hpre : ∀ f, P' f → P f)
    (hpost : ∀ a f, Q a f → Q' a f) : Ensures A P' x Q' := by
  intro s hs
  have hx := h s (hpre _ hs)
  rcases hrun : x s with ⟨r, s'⟩
  rw [hrun] at hx
  cases r with
  | value a => exact hpost a _ hx
  | fault d => exact hx
  | crash => exact hx
  | unfinished => exact hx

theorem pre {x : Exec α} (h : Ensures A P x Q) (hpre : ∀ f, P' f → P f) : Ensures A P' x Q :=
  h.mono hpre fun _ _ hq => hq

theorem post {x : Exec α} (h : Ensures A P x Q) (hpost : ∀ a f, Q a f → Q' a f) :
    Ensures A P x Q' :=
  h.mono (fun _ hp => hp) hpost

theorem pure {a : α} (h : ∀ f, P f → Q a f) : Ensures A P (Exec.pure a) Q :=
  fun s hs => h s.frame hs

theorem bind {x : Exec β} {g : β → Exec α} {R : β → Table Value → Prop} (hx : Ensures A P x R)
    (hg : ∀ b, Ensures A (R b) (g b) Q) : Ensures A P (x >>= g) Q := by
  intro s hs
  have hval := hx s hs
  change match Exec.bind x g s with
    | (.value a, s') => Q a s'.frame
    | (.fault d, _) => A.fault d
    | (.crash, _) => False
    | (.unfinished, _) => A.unfinished
  unfold Exec.bind
  rcases hrun : x s with ⟨r, s'⟩
  rw [hrun] at hval
  cases r with
  | value b => exact hg b s' hval
  | fault d => exact hval
  | crash => exact hval
  | unfinished => exact hval

/-- Goes on with what is known of the value. -/
theorem bind_fact {x : Exec β} {g : β → Exec α} {R : β → Prop} {S : Table Value → Prop}
    (hx : Ensures A P x fun b f => R b ∧ S f) (hg : ∀ b, R b → Ensures A S (g b) Q) :
    Ensures A P (x >>= g) Q :=
  hx.bind fun b s hs => hg b hs.1 s hs.2

/-- The same for an evaluation that keeps the variables as they are. -/
theorem bind_kept {x : Exec β} {g : β → Exec α} {R : β → Prop} {S : Table Value → Prop}
    (hx : Ensures A P x fun b f => S f ∧ R b) (hg : ∀ b, R b → Ensures A S (g b) Q) :
    Ensures A P (x >>= g) Q :=
  hx.bind fun b s hs => hg b hs.2 s hs.1

theorem fault {d : Diagnostic} (h : A.fault d) : Ensures A P (Exec.fault d : Exec α) Q :=
  fun _ _ => h

theorem make {v : Value} {Q : Value → Table Value → Prop}
    (h : ∀ f n, P f → Q (v.numberFrom n).1 f) : Ensures A P (Exec.make v) Q :=
  fun s hs => h s.frame s.made hs

theorem assign {name : String} {v : Value} {Q : Value → Table Value → Prop}
    (h : ∀ f, P f → Q v (f.insert name v)) : Ensures A P (Exec.assign name v) Q :=
  fun s hs => h s.frame hs

theorem onFault {g : Diagnostic → Diagnostic} {x : Exec α} (hg : ∀ d, A.fault d → A.fault (g d))
    (hx : Ensures A P x Q) : Ensures A P (Exec.onFault g x) Q := by
  intro s hs
  have hval := hx s hs
  unfold Exec.onFault
  rcases hrun : x s with ⟨r, s'⟩
  rw [hrun] at hval
  cases r with
  | value a => exact hval
  | fault d => exact hg d hval
  | crash => exact hval
  | unfinished => exact hval

/-- Under other variables the current ones are kept. -/
theorem within {vars : RunState → Table Value} {x : Exec α} {P₁ : Table Value → Prop}
    {R : α → Prop} (hvars : ∀ s, P s.frame → P₁ (vars s))
    (hx : Ensures A P₁ x fun a _ => R a) :
    Ensures A P (Exec.within vars x) fun a f => P f ∧ R a := by
  intro s hs
  have hval := hx { s with frame := vars s } (hvars s hs)
  unfold Exec.within
  rcases hrun : x { s with frame := vars s } with ⟨r, s'⟩
  rw [hrun] at hval
  cases r with
  | value a => exact ⟨hs, hval⟩
  | fault d => exact hval
  | crash => exact hval
  | unfinished => exact hval

/-- Printing fails where its channel does. -/
theorem printLine (hA : ∀ text, A.fault (Primitive.Refusal.channel .print text).diagnostic)
    (line : String) : Ensures A P (Exec.printLine line) fun _ f => P f := by
  intro s hs
  cases hfail : s.channels.outFailure with
  | none => simpa only [Exec.printLine, hfail] using hs
  | some text =>
    simp only [Exec.printLine, hfail]
    exact hA text

theorem readLine (hA : ∀ text, A.fault (Primitive.Refusal.channel .input text).diagnostic) :
    Ensures A P Exec.readLine fun _ f => P f := by
  intro s hs
  cases hfail : s.channels.inFailure with
  | none => simpa only [Exec.readLine, hfail] using hs
  | some text =>
    simp only [Exec.readLine, hfail]
    exact hA text

end Ensures

/-! ## Lists of evaluations as sequences of steps -/

theorem evalAll_cons (rec : Expr → Exec Value) (e : Expr) (es : List Expr) (done : List Value) :
    evalAll rec (e :: es) done = rec e >>= fun v => evalAll rec es (v :: done) := by
  funext s
  change _ = Exec.bind (rec e) _ s
  rw [evalAll, Exec.bind]
  dsimp only
  rcases rec e s with ⟨r, s₁⟩
  cases r <;> rfl

theorem evalSeq_cons (rec : Expr → Exec Value) (e : Expr) (es : List Expr) (last : Value) :
    evalSeq rec (e :: es) last = rec e >>= fun v => evalSeq rec es v := by
  funext s
  change _ = Exec.bind (rec e) _ s
  rw [evalSeq, Exec.bind]
  dsimp only
  rcases rec e s with ⟨r, s₁⟩
  cases r <;> rfl

theorem mapElems_cons (call : List Value → Exec Value) (x : Value) (xs done : List Value) :
    mapElems call (x :: xs) done = call [x] >>= fun v => mapElems call xs (v :: done) := by
  funext s
  change _ = Exec.bind (call [x]) _ s
  rw [mapElems, Exec.bind]
  dsimp only
  rcases call [x] s with ⟨r, s₁⟩
  cases r <;> rfl

theorem filterElems_cons (call : List Value → Exec Value) (x : Value) (xs done : List Value) :
    filterElems call (x :: xs) done =
      call [x] >>= fun v => filterElems call xs (if v.truthy then x :: done else done) := by
  funext s
  change _ = Exec.bind (call [x]) _ s
  rw [filterElems, Exec.bind]
  dsimp only
  rcases call [x] s with ⟨r, s₁⟩
  cases r <;> rfl

theorem foldElems_cons (call : List Value → Exec Value) (x : Value) (xs : List Value)
    (acc : Value) :
    foldElems call (x :: xs) acc = call [acc, x] >>= fun v => foldElems call xs v := by
  funext s
  change _ = Exec.bind (call [acc, x]) _ s
  rw [foldElems, Exec.bind]
  dsimp only
  rcases call [acc, x] s with ⟨r, s₁⟩
  cases r <;> rfl

/-- Stores an entry under an evaluated key. -/
def setEntry (k : Expr) (key value : Value) (done : Dict) : Exec Dict :=
  match Key.ofValue? key with
  | some id => Exec.pure (Dict.set id value done)
  | none =>
    Exec.fault (faultAt k .unsupportedOperandKind
      (key.kindName ++ " cannot be used as a dictionary key"))

theorem evalEntries_cons (rec : Expr → Exec Value) (k v : Expr) (es : List (Expr × Expr))
    (done : Dict) :
    evalEntries rec ((k, v) :: es) done =
      rec k >>= fun key => rec v >>= fun value => setEntry k key value done >>= evalEntries rec es
      := by
  funext s
  change evalEntries rec ((k, v) :: es) done s = Exec.bind (rec k) _ s
  unfold evalEntries Exec.bind
  rcases rec k s with ⟨r, s₁⟩
  cases r with
  | value key =>
    change _ = Exec.bind (rec v) _ s₁
    unfold Exec.bind
    dsimp only
    rcases rec v s₁ with ⟨r, s₂⟩
    cases r with
    | value value =>
      change _ = Exec.bind (setEntry k key value done) _ s₂
      unfold Exec.bind setEntry
      dsimp only
      cases Key.ofValue? key <;> rfl
    | fault d => rfl
    | crash => rfl
    | unfinished => rfl
  | fault d => rfl
  | crash => rfl
  | unfinished => rfl

theorem repeatWhile_succ (cond body : Exec Value) (turns : Nat) :
    repeatWhile cond body (turns + 1) = cond >>= fun c =>
      if c.truthy then body >>= fun _ => repeatWhile cond body turns else Exec.pure .nil := by
  funext s
  change _ = Exec.bind cond _ s
  rw [repeatWhile, Exec.bind]
  dsimp only
  rcases cond s with ⟨r, s₁⟩
  cases r with
  | value c =>
    dsimp only
    cases c.truthy with
    | false => rfl
    | true =>
      change _ = Exec.bind body _ s₁
      rw [Exec.bind]
      rcases body s₁ with ⟨r, s₂⟩
      cases r <;> rfl
  | fault d => rfl
  | crash => rfl
  | unfinished => rfl

/-! ## Calls of values -/

/-- What builtin functions on a level call back by: the calls of the next level. On the last level a
callback gives nil. -/
def callback (m : Machine) (body : Expr → Exec Value) : (level : Nat) → Value → List Value →
    Exec Value
  | 0 => fun _ _ => Exec.pure .nil
  | level + 1 => apply m body level

section Apply

variable (m : Machine) (body : Expr → Exec Value) (level : Nat) (args : List Value)

theorem apply_function (f : UserFunction) :
    apply m body level (.function f) args = callUser m body f args := by
  cases level <;> rfl

theorem apply_builtin (b : Builtin) :
    apply m body level (.builtin b) args =
      match b.callee with
      | .host id => callHost m.host id b.name args >>= make
      | .primitive p => p.run (callback m body level) args >>= make := by
  rcases b with ⟨name, type, typeParams, callee⟩
  cases level <;> cases callee <;> rfl

theorem apply_other {v : Value} (h : v.isCallable = false) :
    apply m body level v args =
      Exec.fault (runtimeFault .unsupportedOperandKind (v.kindName ++ " is not a function")) := by
  cases v with
  | function | builtin => cases h
  | _ => cases level <;> rfl

end Apply

namespace Ensures

/-- A loop: `P` holds before the condition, and `I` between the condition and the body. -/
theorem repeatWhile {cond body : Exec Value} {I : Table Value → Prop} (hA : A.unfinished)
    (hcond : Ensures A P cond fun _ f => I f) (hbody : Ensures A I body fun _ f => P f)
    (turns : Nat) : Ensures A P (Exec.repeatWhile cond body turns) fun v f => v = .nil ∧ I f := by
  induction turns with
  | zero => exact fun s _ => hA
  | succ turns ih =>
    rw [repeatWhile_succ]
    refine hcond.bind fun c => ?_
    cases c.truthy with
    | true => exact hbody.bind fun _ => ih
    | false => exact Ensures.pure fun f hf => ⟨rfl, hf⟩

theorem mapElems {call : List Value → Exec Value} {R : Value → Prop} {xs done : List Value}
    (hcall : ∀ x ∈ xs, Ensures A P (call [x]) fun v f => P f ∧ R v) (hdone : ∀ v ∈ done, R v) :
    Ensures A P (Exec.mapElems call xs done) fun vs f => P f ∧ ∀ v ∈ vs, R v := by
  induction xs generalizing done with
  | nil => exact Ensures.pure fun f hf => ⟨hf, by simpa using hdone⟩
  | cons x xs ih =>
    rw [mapElems_cons]
    refine (hcall x (by simp)).bind fun v s hs => ?_
    have hdone' : ∀ w ∈ v :: done, R w := by
      intro w hw
      rcases List.mem_cons.mp hw with rfl | hw
      · exact hs.2
      · exact hdone w hw
    exact ih (fun y hy => hcall y (by simp [hy])) hdone' s hs.1

theorem filterElems {call : List Value → Exec Value} {R : Value → Prop} {xs done : List Value}
    (hcall : ∀ x ∈ xs, Ensures A P (call [x]) fun _ f => P f) (hxs : ∀ v ∈ xs, R v)
    (hdone : ∀ v ∈ done, R v) :
    Ensures A P (Exec.filterElems call xs done) fun vs f => P f ∧ ∀ v ∈ vs, R v := by
  induction xs generalizing done with
  | nil => exact Ensures.pure fun f hf => ⟨hf, by simpa using hdone⟩
  | cons x xs ih =>
    rw [filterElems_cons]
    refine (hcall x (by simp)).bind fun v => ?_
    apply ih (fun y hy => hcall y (by simp [hy])) (fun y hy => hxs y (by simp [hy]))
    intro w hw
    split at hw
    · rcases List.mem_cons.mp hw with rfl | hw
      · exact hxs w (by simp)
      · exact hdone w hw
    · exact hdone w hw

theorem foldElems {call : List Value → Exec Value} {R : Value → Prop} {xs : List Value}
    {acc : Value}
    (hcall : ∀ acc, R acc → ∀ x ∈ xs, Ensures A P (call [acc, x]) fun v f => P f ∧ R v)
    (hacc : R acc) : Ensures A P (Exec.foldElems call xs acc) fun v f => P f ∧ R v := by
  induction xs generalizing acc with
  | nil => exact Ensures.pure fun f hf => ⟨hf, hacc⟩
  | cons x xs ih =>
    rw [foldElems_cons]
    refine (hcall acc hacc x (by simp)).bind fun v s hs => ?_
    exact ih (fun a ha y hy => hcall a ha y (by simp [hy])) hs.2 s hs.1

/-- Expressions that keep the variables, each with a value of its own kind. -/
theorem evalAll {rec : Expr → Exec Value} {es : List Expr} {Rs : List (Value → Prop)}
    (h : List.Forall₂ (fun e R => Ensures A P (rec e) fun v f => P f ∧ R v) es Rs)
    {done : List Value} :
    Ensures A P (Exec.evalAll rec es done) fun vs f =>
      P f ∧ ∃ ws, vs = done.reverse ++ ws ∧ List.Forall₂ (fun v R => R v) ws Rs := by
  induction h generalizing done with
  | nil => exact Ensures.pure fun f hf => ⟨hf, [], by simp, .nil⟩
  | cons he _ ih =>
    rw [evalAll_cons]
    refine he.bind_kept fun v hv => ih.post ?_
    rintro vs f ⟨hf, ws, rfl, hws⟩
    exact ⟨hf, v :: ws, by simp, .cons hv hws⟩

/-- A call of a function that the machine knows by name. -/
theorem call {m : Machine} {turns : Nat} {rec : Expr → Exec Value} {name : String}
    {args : List Expr} {callee : Value} {Rs : List (Value → Prop)} {Q : Value → Table Value → Prop}
    (hA : ∀ d node, A.fault d → A.fault (d.withNode node))
    (hcallee : m.function? name = some callee)
    (hargs : List.Forall₂ (fun e R => Ensures A P (rec e) fun v f => P f ∧ R v) args Rs)
    (happly : ∀ vs, List.Forall₂ (fun v R => R v) vs Rs →
      Ensures A P (Exec.apply m rec vs.length callee vs) Q) :
    Ensures A P (Exec.step m turns rec (.call name args)) Q := by
  have hfind : Ensures A P (Exec.callee m (.call name args) name) fun v f => P f ∧ v = callee := by
    intro s hs
    simpa only [Exec.callee, hcallee, and_true] using hs
  refine hfind.bind_kept ?_
  rintro _ rfl
  refine (evalAll hargs).bind_kept ?_
  rintro vs ⟨ws, hvs, hws⟩
  have heq : vs = ws := by simpa using hvs
  subst heq
  exact Ensures.onFault (fun d hd => hA d _ hd) (happly vs hws)

/-- A program does what its expressions do. -/
theorem runProgram {m : Machine} {turns : Nat} {p : Program} {Q : Value → Table Value → Prop}
    (hA : ∀ d, A.fault d → A.fault (d.withFile p.file))
    (h : Ensures A P (Exec.evalSeq ((m.defineAll p.defs).evalExpr turns) p.exprs .nil) Q) :
    Ensures A P (m.runProgram turns p) Q :=
  onFault hA h

/-- The ways in which a run can end. -/
theorem outcome {x : Exec α} (h : Ensures A P x Q) {s : RunState} (hs : P s.frame) :
    (∃ a s', x s = (.value a, s') ∧ Q a s'.frame) ∨
      (∃ d s', x s = (.fault d, s') ∧ A.fault d) ∨
      ∃ s', x s = (.unfinished, s') ∧ A.unfinished := by
  have hval := h s hs
  rcases hrun : x s with ⟨r, s'⟩
  rw [hrun] at hval
  cases r with
  | value a => exact Or.inl ⟨a, s', rfl, hval⟩
  | fault d => exact Or.inr (Or.inl ⟨d, s', rfl, hval⟩)
  | crash => exact absurd hval id
  | unfinished => exact Or.inr (Or.inr ⟨s', rfl, hval⟩)

end Ensures

end Exec

end TreeLang
