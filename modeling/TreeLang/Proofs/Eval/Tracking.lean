import Mathlib.Data.List.Forall2
import TreeLang.Proofs.Eval.Triples

/-!
# Two runs side by side

`Tracks E R x y V` says that the evaluation `y` does what `x` does, from states that differ in their
variables only, and there as `R` says: both end alike, with values as `V` says, and leave such
states again. The first evaluation is excused from this when it ends with a fault in `E`. There is
one rule for each way in which the evaluator puts evaluations together.
-/

namespace TreeLang

/-- The endings are the same, up to related values. -/
inductive Outcome.Rel {α β : Type} (V : α → β → Prop) : Outcome α → Outcome β → Prop
  | value {a : α} {b : β} (h : V a b) : Outcome.Rel V (.value a) (.value b)
  | fault (d : Diagnostic) : Outcome.Rel V (.fault d) (.fault d)
  | crash : Outcome.Rel V .crash .crash
  | unfinished : Outcome.Rel V .unfinished .unfinished

theorem Outcome.Rel.mono {α β : Type} {V V' : α → β → Prop} {r : Outcome α} {r' : Outcome β}
    (h : Outcome.Rel V r r') (hV : ∀ a b, V a b → V' a b) : Outcome.Rel V' r r' := by
  cases h with
  | value h => exact .value (hV _ _ h)
  | fault d => exact .fault d
  | crash => exact .crash
  | unfinished => exact .unfinished

/-- The states are the same, up to related variables. -/
structure RunState.Rel (R : Table Value → Table Value → Prop) (s s' : RunState) : Prop where
  frame : R s.frame s'.frame
  channels : s'.channels = s.channels
  made : s'.made = s.made

namespace Exec

variable {α β γ δ : Type} {E : Diagnostic → Prop} {R : Table Value → Table Value → Prop}
  {V : α → β → Prop} {W : γ → δ → Prop}

/-- From related states the first evaluation has an excused fault, or both end alike. -/
def Tracks (E : Diagnostic → Prop) (R : Table Value → Table Value → Prop) (x : Exec α)
    (y : Exec β) (V : α → β → Prop) : Prop :=
  ∀ s s', RunState.Rel R s s' →
    (∃ d, (x s).1 = .fault d ∧ E d) ∨
      Outcome.Rel V (x s).1 (y s').1 ∧ RunState.Rel R (x s).2 (y s').2

namespace Tracks

theorem pure {a : α} {b : β} (h : V a b) : Tracks E R (Exec.pure a) (Exec.pure b) V :=
  fun _ _ hs => .inr ⟨.value h, hs⟩

theorem fault {d d' : Diagnostic} (h : d' = d) : Tracks E R (Exec.fault d) (Exec.fault d') V := by
  subst h
  exact fun _ _ hs => .inr ⟨.fault _, hs⟩

theorem bind {x : Exec α} {y : Exec β} {f : α → Exec γ} {g : β → Exec δ}
    (hxy : Tracks E R x y V) (hfg : ∀ a b, V a b → Tracks E R (f a) (g b) W) :
    Tracks E R (x >>= f) (y >>= g) W := by
  intro s s' hs
  change (∃ d, (Exec.bind x f s).1 = .fault d ∧ E d) ∨
    Outcome.Rel W (Exec.bind x f s).1 (Exec.bind y g s').1 ∧
      RunState.Rel R (Exec.bind x f s).2 (Exec.bind y g s').2
  have hends := hxy s s' hs
  unfold Exec.bind
  generalize x s = ended, y s' = ended' at hends
  rcases ended with ⟨r, t⟩
  rcases ended' with ⟨r', t'⟩
  dsimp only at hends
  rcases hends with ⟨d, rfl, hd⟩ | ⟨hends, ht⟩
  -- A fault that excuses the first part excuses the whole.
  · exact .inl ⟨d, rfl, hd⟩
  · cases hends with
    | value h => exact hfg _ _ h t t' ht
    | fault d => exact .inr ⟨.fault d, ht⟩
    | crash => exact .inr ⟨.crash, ht⟩
    | unfinished => exact .inr ⟨.unfinished, ht⟩

theorem onFault {x : Exec α} {y : Exec β} {g : Diagnostic → Diagnostic}
    (hg : ∀ d, E d → E (g d)) (h : Tracks E R x y V) :
    Tracks E R (Exec.onFault g x) (Exec.onFault g y) V := by
  intro s s' hs
  have hends := h s s' hs
  unfold Exec.onFault
  generalize x s = ended, y s' = ended' at hends
  rcases ended with ⟨r, t⟩
  rcases ended' with ⟨r', t'⟩
  dsimp only at hends
  rcases hends with ⟨d, rfl, hd⟩ | ⟨hends, ht⟩
  · exact .inl ⟨g d, rfl, hg d hd⟩
  · cases hends with
    | value h => exact .inr ⟨.value h, ht⟩
    | fault d => exact .inr ⟨.fault (g d), ht⟩
    | crash => exact .inr ⟨.crash, ht⟩
    | unfinished => exact .inr ⟨.unfinished, ht⟩

/-- Under other variables, which are related in another way, the current ones are kept. -/
theorem within {x : Exec α} {y : Exec β} {R₀ : Table Value → Table Value → Prop}
    {vars vars' : RunState → Table Value}
    (hvars : ∀ s s', RunState.Rel R s s' → R₀ (vars s) (vars' s')) (h : Tracks E R₀ x y V) :
    Tracks E R (Exec.within vars x) (Exec.within vars' y) V := by
  intro s s' hs
  have hinner := h { s with frame := vars s } { s' with frame := vars' s' }
    ⟨hvars s s' hs, hs.channels, hs.made⟩
  unfold Exec.within
  rcases hinner with hexcused | ⟨hends, ht⟩
  · exact .inl hexcused
  · exact .inr ⟨hends, hs.frame, ht.channels, ht.made⟩

theorem make {v w : Value} {V : Value → Value → Prop}
    (h : ∀ n, V (v.numberFrom n).1 (w.numberFrom n).1)
    (hnext : ∀ n, (w.numberFrom n).2 = (v.numberFrom n).2) :
    Tracks E R (Exec.make v) (Exec.make w) V := by
  intro s s' hs
  unfold Exec.make
  rw [hs.made]
  exact .inr ⟨.value (h s.made), hs.frame, hs.channels, hnext s.made⟩

theorem assign {v w : Value} {V : Value → Value → Prop} {name : String} (h : V v w)
    (hframe : ∀ f f', R f f' → R (f.insert name v) (f'.insert name w)) :
    Tracks E R (Exec.assign name v) (Exec.assign name w) V :=
  fun _ _ hs => .inr ⟨.value h, hframe _ _ hs.frame, hs.channels, hs.made⟩

theorem printLine (line : String) :
    Tracks E R (Exec.printLine line) (Exec.printLine line) fun _ _ => True := by
  rintro ⟨frame, _, _⟩ ⟨frame', channels, made⟩ ⟨hframe, rfl, rfl⟩
  simp only [Exec.printLine]
  cases channels.outFailure with
  | some text => exact .inr ⟨.fault _, hframe, rfl, rfl⟩
  | none => exact .inr ⟨.value trivial, hframe, rfl, rfl⟩

theorem readLine : Tracks E R Exec.readLine Exec.readLine Eq := by
  rintro ⟨frame, _, _⟩ ⟨frame', channels, made⟩ ⟨hframe, rfl, rfl⟩
  simp only [Exec.readLine]
  cases channels.inFailure with
  | some text => exact .inr ⟨.fault _, hframe, rfl, rfl⟩
  | none => exact .inr ⟨.value rfl, hframe, rfl, rfl⟩

/-! ## Lists of evaluations -/

variable {V : Value → Value → Prop} {rec rec' : Expr → Exec Value}

theorem evalAll {es : List Expr} (hrec : ∀ e ∈ es, Tracks E R (rec e) (rec' e) V)
    {done done' : List Value} (hdone : List.Forall₂ V done done') :
    Tracks E R (Exec.evalAll rec es done) (Exec.evalAll rec' es done') (List.Forall₂ V) := by
  induction es generalizing done done' with
  | nil => exact .pure (List.rel_reverse hdone)
  | cons e es ih =>
    rw [evalAll_cons, evalAll_cons]
    refine (hrec e (by simp)).bind fun v w hvw => ?_
    exact ih (fun x hx => hrec x (by simp [hx])) (.cons hvw hdone)

theorem evalSeq {es : List Expr} (hrec : ∀ e ∈ es, Tracks E R (rec e) (rec' e) V)
    {last last' : Value} (hlast : V last last') :
    Tracks E R (Exec.evalSeq rec es last) (Exec.evalSeq rec' es last') V := by
  induction es generalizing last last' with
  | nil => exact .pure hlast
  | cons e es ih =>
    rw [evalSeq_cons, evalSeq_cons]
    refine (hrec e (by simp)).bind fun v w hvw => ?_
    exact ih (fun x hx => hrec x (by simp [hx])) hvw

theorem evalEntries {D : Dict → Dict → Prop} {es : List (Expr × Expr)}
    (hset : ∀ {k key key' v v' d d'}, V key key' → V v v' → D d d' →
      Tracks E R (setEntry k key v d) (setEntry k key' v' d') D)
    (hrec : ∀ e ∈ es, Tracks E R (rec e.1) (rec' e.1) V ∧ Tracks E R (rec e.2) (rec' e.2) V)
    {done done' : Dict} (hdone : D done done') :
    Tracks E R (Exec.evalEntries rec es done) (Exec.evalEntries rec' es done') D := by
  induction es generalizing done done' with
  | nil => exact .pure hdone
  | cons e es ih =>
    rcases e with ⟨k, v⟩
    rcases hrec (k, v) (by simp) with ⟨hk, hv⟩
    rw [evalEntries_cons, evalEntries_cons]
    refine hk.bind fun key key' hkey => hv.bind fun value value' hvalue => ?_
    refine (hset hkey hvalue hdone).bind fun d d' hd => ?_
    exact ih (fun x hx => hrec x (by simp [hx])) hd

theorem repeatWhile {cond cond' body body' : Exec Value} (hnil : V .nil .nil)
    (htruthy : ∀ v w, V v w → w.truthy = v.truthy) (hcond : Tracks E R cond cond' V)
    (hbody : Tracks E R body body' V) (turns : Nat) :
    Tracks E R (Exec.repeatWhile cond body turns) (Exec.repeatWhile cond' body' turns) V := by
  induction turns with
  | zero => exact fun _ _ hs => .inr ⟨.unfinished, hs⟩
  | succ turns ih =>
    rw [repeatWhile_succ, repeatWhile_succ]
    refine hcond.bind fun c c' hc => ?_
    rw [htruthy c c' hc]
    split
    · exact hbody.bind fun _ _ _ => ih
    · exact .pure hnil

theorem mapElems {call call' : List Value → Exec Value} {xs ys : List Value}
    (hxs : List.Forall₂ V xs ys)
    (hcall : ∀ {x y}, V x y → Tracks E R (call [x]) (call' [y]) V)
    {done done' : List Value} (hdone : List.Forall₂ V done done') :
    Tracks E R (Exec.mapElems call xs done) (Exec.mapElems call' ys done') (List.Forall₂ V) := by
  induction hxs generalizing done done' with
  | nil => exact .pure (List.rel_reverse hdone)
  | cons hx _ ih =>
    rw [mapElems_cons, mapElems_cons]
    exact (hcall hx).bind fun v w hvw => ih (.cons hvw hdone)

theorem filterElems {call call' : List Value → Exec Value} {xs ys : List Value}
    (htruthy : ∀ v w, V v w → w.truthy = v.truthy) (hxs : List.Forall₂ V xs ys)
    (hcall : ∀ {x y}, V x y → Tracks E R (call [x]) (call' [y]) V)
    {done done' : List Value} (hdone : List.Forall₂ V done done') :
    Tracks E R (Exec.filterElems call xs done) (Exec.filterElems call' ys done')
      (List.Forall₂ V) := by
  induction hxs generalizing done done' with
  | nil => exact .pure (List.rel_reverse hdone)
  | cons hx _ ih =>
    rw [filterElems_cons, filterElems_cons]
    refine (hcall hx).bind fun v w hvw => ?_
    rw [htruthy v w hvw]
    split
    · exact ih (.cons hx hdone)
    · exact ih hdone

theorem foldElems {call call' : List Value → Exec Value} {xs ys : List Value}
    (hxs : List.Forall₂ V xs ys)
    (hcall : ∀ {a b x y}, V a b → V x y → Tracks E R (call [a, x]) (call' [b, y]) V)
    {acc acc' : Value} (hacc : V acc acc') :
    Tracks E R (Exec.foldElems call xs acc) (Exec.foldElems call' ys acc') V := by
  induction hxs generalizing acc acc' with
  | nil => exact .pure hacc
  | cons hx _ ih =>
    rw [foldElems_cons, foldElems_cons]
    exact (hcall hacc hx).bind fun v w hvw => ih hvw

end Tracks

end Exec

end TreeLang
