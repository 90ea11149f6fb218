import TreeLang.Proofs.Eval.Tracking
import TreeLang.Proofs.Names.Closed
import TreeLang.Proofs.Names.Flow
import TreeLang.Proofs.Value.Recast

/-!
# Machines in lockstep

Two machines run the same expression in lockstep when the second one knows the same functions,
recast, and when the variables of the two runs stay related: at the top by a relation of its own, in
called functions by `Lockstep.inner`. What a relation of variables has to bear is said once, in
`Course.Bears`: look-ups, assignments and calls. One level of evaluation keeps the lockstep if the
next level does (`Lockstep.step_tracks`). Main statement: `Lockstep.eval_tracks`.
-/

namespace TreeLang

/-- What two runs are compared by: how the functions of the first one are recast in the second, for
which faults the first one is excused, and which names can be assigned. -/
structure Course where
  recast : Recast
  excused : Diagnostic → Prop
  assignable : String → Prop

/-- The variables of two runs that are related by `R`, and by `R₀` in the functions they call. -/
structure Course.Bears (c : Course) (m m' : Machine) (R R₀ : Table Value → Table Value → Prop) :
    Prop where
  found : ∀ {f f' x v}, R f f' → f.get? x = some v →
    v.Closed m.Knows ∧ f'.get? x = some (v.recast c.recast)
  /-- Where the first run has no variable, the second one may have one if the first one then faults
  and is excused. -/
  missing : ∀ {f f' x}, R f f' → f.get? x = none →
    f'.get? x = none ∨ m.function? x = none ∧ ∀ d : Diagnostic, ¬d.code.IsNamed → c.excused d
  assign : ∀ {f f' x v}, R f f' → c.assignable x → v.Closed m.Knows →
    R (f.insert x v) (f'.insert x (v.recast c.recast))
  /-- A call starts from what the policies let it see; its parameters are assigned on top. -/
  call : ∀ {f f'}, R f f' → R₀ (m.scoping.callFrame f [] []) (m'.scoping.callFrame f' [] [])

/-- Two machines that run in lockstep. -/
structure Lockstep (m m' : Machine) extends Course where
  inner : Table Value → Table Value → Prop
  inner_bears : toCourse.Bears m m' inner inner
  function? : ∀ x, m'.function? x = (m.function? x).map (Value.recast recast)
  known : ∀ {x v}, m.function? x = some v → v.Closed m.Knows
  cancelled : m'.cancelled = m.cancelled
  withNode : ∀ {d} node, excused d → excused (d.withNode node)
  assigns : ∀ {g}, m.Knows (.function g) →
    ∀ x ∈ g.definition.paramNames ++ g.definition.body.assigned .some, assignable x

namespace Lockstep

variable {m m' : Machine} (L : Lockstep m m')

/-- Values of the two runs: the functions in the first one are known, and recast in the second. -/
def Pairs (v w : Value) : Prop := v.Closed m.Knows ∧ w = v.recast L.recast

/-- Dictionaries of the two runs. -/
def PairsDict (d d' : Dict) : Prop :=
  (∀ e ∈ d, e.2.Closed m.Knows) ∧ d' = Value.recastEntries L.recast d

/-- Variables of the two runs at the top. -/
def Bears (R : Table Value → Table Value → Prop) : Prop := L.toCourse.Bears m m' R L.inner

/-- Evaluations of the two runs, with values. -/
def Tracks (R : Table Value → Table Value → Prop) (x y : Exec Value) : Prop :=
  Exec.Tracks L.excused R x y L.Pairs

theorem forall₂_pairs {vs ws : List Value} :
    List.Forall₂ L.Pairs vs ws ↔
      (∀ v ∈ vs, v.Closed m.Knows) ∧ ws = vs.map (Value.recast L.recast) := by
  induction vs generalizing ws with
  | nil => simp
  | cons v vs ih =>
    rw [List.forall₂_cons_left_iff]
    constructor
    · rintro ⟨w, ws, ⟨hv, rfl⟩, hvs, rfl⟩
      rcases ih.mp hvs with ⟨hclosed, rfl⟩
      exact ⟨by simpa using ⟨hv, hclosed⟩, rfl⟩
    · rintro ⟨hclosed, rfl⟩
      rw [List.forall_mem_cons] at hclosed
      exact ⟨_, _, ⟨hclosed.1, rfl⟩, ih.mpr ⟨hclosed.2, rfl⟩, rfl⟩

variable {L} {R : Table Value → Table Value → Prop}

theorem Pairs.truthy_eq (v w : Value) (h : L.Pairs v w) : w.truthy = v.truthy := by
  rw [h.2, Value.truthy_recast]

theorem pairs_nil : L.Pairs .nil .nil := ⟨trivial, rfl⟩

theorem pairs_list {vs ws : List Value} {id : Identity} (h : List.Forall₂ L.Pairs vs ws) :
    L.Pairs (.list vs id) (.list ws id) := by
  rcases L.forall₂_pairs.mp h with ⟨hclosed, rfl⟩
  exact ⟨Value.closed_list.mpr hclosed, (Value.recast_list _ _ _).symm⟩

theorem make_tracks {v w : Value} (h : L.Pairs v w) : L.Tracks R (Exec.make v) (Exec.make w) := by
  rcases h with ⟨hv, rfl⟩
  apply Exec.Tracks.make
  · intro n
    rw [Value.numberFrom_recast]
    exact ⟨hv.numberFrom n, rfl⟩
  · intro n
    rw [Value.numberFrom_recast]

theorem setEntry_tracks {k : Expr} {key key' v v' : Value} {d d' : Dict} (hkey : L.Pairs key key')
    (hv : L.Pairs v v') (hd : L.PairsDict d d') :
    Exec.Tracks L.excused R (Exec.setEntry k key v d) (Exec.setEntry k key' v' d')
      L.PairsDict := by
  rcases hkey with ⟨-, rfl⟩
  rcases hv with ⟨hv, rfl⟩
  rcases hd with ⟨hd, rfl⟩
  simp only [Exec.setEntry, Value.ofValue?_recast, Value.kindName_recast]
  cases Key.ofValue? key with
  | none => exact .fault rfl
  | some id =>
    have hset := Dict.set_induct (K := fun _ => True) (V := fun v => v.Closed m.Knows)
      (fun e he => ⟨trivial, hd e he⟩) (k := id) trivial hv
    exact .pure ⟨fun e he => (hset e he).2, Value.set_recast L.recast id v d⟩

/-! ## Builtin functions -/

/-- Calls from inside a call. -/
def TracksCalls (L : Lockstep m m') (R : Table Value → Table Value → Prop)
    (call call' : Value → List Value → Exec Value) : Prop :=
  ∀ {f f' : Value} {vs ws : List Value}, L.Pairs f f' → List.Forall₂ L.Pairs vs ws →
    L.Tracks R (call f vs) (call' f' ws)

theorem collection_tracks {x y : Exec (List Value)}
    (h : Exec.Tracks L.excused R x y (List.Forall₂ L.Pairs)) :
    L.Tracks R (do pure (.list (← x) .fresh)) (do pure (.list (← y) .fresh)) :=
  h.bind fun _ _ hvs => Exec.Tracks.pure (pairs_list hvs)

/-- The arguments of a builtin function that calls back: a list and a function, or a refusal. -/
theorem callback_tracks {p : Primitive} {a f : Value} (ha : a.Closed m.Knows)
    (hf : f.Closed m.Knows) {run run' : List Value → Value → Exec Value}
    (hrun : ∀ {xs ys g g'}, List.Forall₂ L.Pairs xs ys → L.Pairs g g' →
      L.Tracks R (run xs g) (run' ys g')) :
    L.Tracks R
      (match p.asList a, p.asCallable f with
        | .error e, _ => Exec.fault e.diagnostic
        | _, .error e => Exec.fault e.diagnostic
        | .ok xs, .ok g => run xs g)
      (match p.asList (a.recast L.recast), p.asCallable (f.recast L.recast) with
        | .error e, _ => Exec.fault e.diagnostic
        | _, .error e => Exec.fault e.diagnostic
        | .ok xs, .ok g => run' xs g) := by
  have hlist := Primitive.asList_recast L.recast p a
  have hcallable := Primitive.asCallable_recast L.recast p f
  have hxs : ∀ xs, p.asList a = .ok xs → ∀ x ∈ xs, x.Closed m.Knows :=
    fun xs h => Primitive.asList_closed ha h
  have hg : ∀ g, p.asCallable f = .ok g → g = f := fun g h => Primitive.asCallable_eq h
  generalize p.asList a = l, p.asList (a.recast L.recast) = l' at hlist hxs
  generalize p.asCallable f = c, p.asCallable (f.recast L.recast) = c' at hcallable hg
  cases hlist with
  | error h => exact .fault h
  | ok hys =>
    cases hcallable with
    | error h => exact .fault h
    | ok hg' =>
      refine hrun (L.forall₂_pairs.mpr ⟨hxs _ rfl, hys⟩) ⟨?_, hg'⟩
      rw [hg _ rfl]
      exact hf

theorem primitive_tracks {call call' : Value → List Value → Exec Value}
    (hcall : L.TracksCalls R call call') (p : Primitive) {args : List Value}
    (hargs : ∀ a ∈ args, a.Closed m.Knows) :
    L.Tracks R (p.run call args) (p.run call' (args.map (Value.recast L.recast))) := by
  have hpure := Primitive.pureResult_recast L.recast p args
  have hclosed : ∀ v, p.pureResult args = some (.ok v) → v.Closed m.Knows :=
    fun v h => Primitive.pureResult_closed hargs h
  unfold Primitive.run
  generalize p.pureResult args = r, p.pureResult (args.map (Value.recast L.recast)) = r' at *
  cases hpure with
  | some h =>
    cases h with
    | ok h => exact .pure ⟨hclosed _ rfl, h⟩
    | error h => exact .fault h
  -- The functions that print, read or call back are left.
  | none =>
    cases p with
    | print =>
      cases args with
      | nil => exact .fault rfl
      | cons first rest =>
        have htexts : ((first :: rest).map (Value.recast L.recast)).map Value.inspect =
            (first :: rest).map Value.inspect := by
          rw [List.map_map]
          exact List.map_congr_left fun v _ => v.inspect_recast L.recast
        dsimp only
        rw [htexts]
        exact (Exec.Tracks.printLine _).bind fun _ _ _ => .pure ⟨hargs first (by simp), rfl⟩
    | input =>
      cases args with
      | nil =>
        refine Exec.Tracks.readLine.bind ?_
        rintro line _ rfl
        exact .pure ⟨trivial, rfl⟩
      | cons first rest => exact .fault (by rw [List.length_map])
    | map =>
      match args with
      | [a, f] =>
        refine callback_tracks (hargs a (by simp)) (hargs f (by simp)) fun hxs hg => ?_
        exact collection_tracks (.mapElems hxs (fun hx => hcall hg (.cons hx .nil)) .nil)
      | [] | [_] | _ :: _ :: _ :: _ => exact .fault (by simp)
    | filter =>
      match args with
      | [a, f] =>
        refine callback_tracks (hargs a (by simp)) (hargs f (by simp)) fun hxs hg => ?_
        exact collection_tracks
          (.filterElems Pairs.truthy_eq hxs (fun hx => hcall hg (.cons hx .nil)) .nil)
      | [] | [_] | _ :: _ :: _ :: _ => exact .fault (by simp)
    | reduce =>
      match args with
      | [a, f, start] =>
        refine callback_tracks (hargs a (by simp)) (hargs f (by simp)) fun hxs hg => ?_
        exact .foldElems hxs (fun hacc hx => hcall hg (.cons hacc (.cons hx .nil)))
          ⟨hargs start (by simp), rfl⟩
      | [] | [_] | [_, _] | _ :: _ :: _ :: _ :: _ => exact .fault (by simp)
    | _ => exact .pure pairs_nil

/-! ## Calls -/

/-- Evaluations of the two runs, whatever relates the variables at the top. -/
def EvalTracks (L : Lockstep m m') (rec rec' : Expr → Exec Value) : Prop :=
  ∀ {R : Table Value → Table Value → Prop} {e : Expr}, L.Bears R →
    (∀ x ∈ e.assigned .some, L.assignable x) → L.Tracks R (rec e) (rec' e)

variable {rec rec' : Expr → Exec Value}

theorem inner_assignAll {f f' : Table Value} (h : L.inner f f') {params : List String}
    (hparams : ∀ x ∈ params, L.assignable x) {args : List Value}
    (hargs : ∀ a ∈ args, a.Closed m.Knows) :
    L.inner ((params.zip args).foldl (fun t e => t.insert e.1 e.2) f)
      ((params.zip (args.map (Value.recast L.recast))).foldl (fun t e => t.insert e.1 e.2) f') := by
  induction params generalizing args f f' with
  | nil => exact h
  | cons x params ih =>
    cases args with
    | nil => exact h
    | cons a args =>
      rw [List.forall_mem_cons] at hparams hargs
      exact ih (L.inner_bears.assign h hparams.1 hargs.1) hparams.2 hargs.2

theorem callUser_tracks (hrec : L.EvalTracks rec rec') (hR : L.Bears R) {g : UserFunction}
    (hg : m.Knows (.function g)) {args : List Value} (hargs : ∀ a ∈ args, a.Closed m.Knows) :
    L.Tracks R (Exec.callUser m rec g args)
      (Exec.callUser m' rec' (L.recast.change g) (args.map (Value.recast L.recast))) := by
  simp only [Exec.callUser, List.length_map, L.recast.params_length, L.recast.name,
    L.recast.paramNames, L.recast.body]
  have hassigns := List.forall_mem_append.mp (L.assigns hg)
  split
  · exact .fault rfl
  -- The body runs in variables that are related as in called functions, whatever is around it.
  · refine Exec.Tracks.within (fun s s' hs => ?_) (hrec L.inner_bears hassigns.2)
    exact inner_assignAll (hR.call hs.frame) hassigns.1 hargs

theorem apply_tracks_of (hrec : L.EvalTracks rec rec') (hR : L.Bears R) (level : Nat)
    (hback : L.TracksCalls R (Exec.callback m rec level) (Exec.callback m' rec' level)) :
    L.TracksCalls R (Exec.apply m rec level) (Exec.apply m' rec' level) := by
  rintro v _ vs ws ⟨hv, rfl⟩ hvs
  rcases L.forall₂_pairs.mp hvs with ⟨hclosed, rfl⟩
  cases v with
  | function g =>
    rw [Value.recast, Exec.apply_function, Exec.apply_function]
    exact callUser_tracks hrec hR hv hclosed
  | builtin b =>
    rcases hv with ⟨p, rfl⟩
    rw [Value.recast, Exec.apply_builtin, Exec.apply_builtin]
    exact Exec.Tracks.bind (primitive_tracks hback p hclosed) fun _ _ h => make_tracks h
  | _ =>
    rw [Exec.apply_other _ _ _ _ rfl, Exec.apply_other _ _ _ _ rfl]
    exact .fault rfl

theorem apply_tracks (hrec : L.EvalTracks rec rec') (hR : L.Bears R) (level : Nat) :
    L.TracksCalls R (Exec.apply m rec level) (Exec.apply m' rec' level) := by
  induction level with
  | zero => exact apply_tracks_of hrec hR 0 fun _ _ => .pure pairs_nil
  | succ level ih => exact apply_tracks_of hrec hR (level + 1) ih

/-! ## One level of evaluation -/

theorem reference_tracks (hR : L.Bears R) (e : Expr) (name : String) :
    L.Tracks R (Exec.reference m e name) (Exec.reference m' e name) := by
  intro s s' hs
  unfold Exec.reference
  cases hget : s.frame.get? name with
  | some v =>
    rcases hR.found hs.frame hget with ⟨hv, hget'⟩
    rw [hget']
    exact .inr ⟨.value ⟨hv, rfl⟩, hs⟩
  | none =>
    -- If the second run has a variable here, the first one has nothing of that name and faults.
    rcases hR.missing hs.frame hget with hget' | ⟨hfun, hexcused⟩
    · rw [hget', L.function? name]
      cases hfun : m.function? name with
      | some f => exact .inr ⟨.value ⟨L.known hfun, rfl⟩, hs⟩
      | none => exact .inr ⟨.fault _, hs⟩
    · rw [hfun]
      exact .inl ⟨_, rfl, hexcused _ fun h => h.1 rfl⟩

theorem callee_tracks (hR : L.Bears R) (e : Expr) (name : String) :
    L.Tracks R (Exec.callee m e name) (Exec.callee m' e name) := by
  intro s s' hs
  unfold Exec.callee
  rw [L.function? name]
  cases hfun : m.function? name with
  -- A call looks for a function first, which both machines know.
  | some f => exact .inr ⟨.value ⟨L.known hfun, rfl⟩, hs⟩
  | none =>
    cases hget : s.frame.get? name with
    | some v =>
      rcases hR.found hs.frame hget with ⟨hv, hget'⟩
      simp only [Option.map_none, hget', Value.isCallable_recast, Value.kindName_recast]
      split
      · exact .inr ⟨.value ⟨hv, rfl⟩, hs⟩
      · exact .inr ⟨.fault _, hs⟩
    | none =>
      rcases hR.missing hs.frame hget with hget' | ⟨-, hexcused⟩
      · simp only [Option.map_none, hget']
        exact .inr ⟨.fault _, hs⟩
      · exact .inl ⟨_, rfl, hexcused _ fun h => h.2 rfl⟩

theorem operation_tracks (op : Operator) {l l' r r' : Value} (hl : L.Pairs l l')
    (hr : L.Pairs r r') (node : String) :
    L.Tracks R
      (match op.run l r with
        | .ok v => Exec.make v
        | .error refusal => Exec.fault (refusal.diagnostic.withNode node))
      (match op.run l' r' with
        | .ok v => Exec.make v
        | .error refusal => Exec.fault (refusal.diagnostic.withNode node)) := by
  rcases hl with ⟨hl, rfl⟩
  rcases hr with ⟨hr, rfl⟩
  have hrun := Operator.run_recast L.recast op l r
  have hclosed : ∀ v, op.run l r = .ok v → v.Closed m.Knows :=
    fun v h => Operator.run_closed h hl hr
  generalize op.run l r = x, op.run (l.recast L.recast) (r.recast L.recast) = y at hrun hclosed
  cases hrun with
  | ok h => exact make_tracks ⟨hclosed _ rfl, h⟩
  | error h => exact .fault (by rw [h])

/-- Expressions one after the other, each with a value. -/
theorem evalAll_tracks (hrec : L.EvalTracks rec rec') (hR : L.Bears R) {es : List Expr}
    (hassigned : ∀ x ∈ Expr.assignedAll .some es, L.assignable x) :
    Exec.Tracks L.excused R (Exec.evalAll rec es []) (Exec.evalAll rec' es [])
      (List.Forall₂ L.Pairs) := by
  rw [Expr.assignedAll_eq_flatMap, List.forall_mem_flatMap] at hassigned
  exact Exec.Tracks.evalAll (fun e he => hrec hR (hassigned e he)) .nil

theorem evalSeq_tracks (hrec : L.EvalTracks rec rec') (hR : L.Bears R) {es : List Expr}
    (hassigned : ∀ x ∈ Expr.assignedAll .some es, L.assignable x) :
    L.Tracks R (Exec.evalSeq rec es .nil) (Exec.evalSeq rec' es .nil) := by
  rw [Expr.assignedAll_eq_flatMap, List.forall_mem_flatMap] at hassigned
  exact Exec.Tracks.evalSeq (fun e he => hrec hR (hassigned e he)) pairs_nil

theorem evalEntries_tracks (hrec : L.EvalTracks rec rec') (hR : L.Bears R)
    {es : List (Expr × Expr)} (hassigned : ∀ x ∈ Expr.assignedEntries .some es, L.assignable x) :
    Exec.Tracks L.excused R (Exec.evalEntries rec es []) (Exec.evalEntries rec' es [])
      L.PairsDict := by
  simp only [Expr.assignedEntries_eq_flatMap, List.forall_mem_flatMap,
    List.forall_mem_append] at hassigned
  refine Exec.Tracks.evalEntries setEntry_tracks (fun e he => ?_) ⟨List.forall_mem_nil _, rfl⟩
  exact ⟨hrec hR (hassigned e he).1, hrec hR (hassigned e he).2⟩

/-- One level of evaluation runs in lockstep if the next one does. -/
theorem step_tracks (hrec : L.EvalTracks rec rec') (turns : Nat) :
    L.EvalTracks (Exec.step m turns rec) (Exec.step m' turns rec') := by
  intro R e hR hassigned
  cases e with
  | number x => exact make_tracks ⟨trivial, rfl⟩
  | text s => exact make_tracks ⟨trivial, rfl⟩
  | bool b => exact .pure ⟨trivial, rfl⟩
  | ref name => exact reference_tracks hR _ name
  | assign name value =>
    rw [Expr.assigned, List.forall_mem_append] at hassigned
    refine (hrec hR hassigned.1).bind ?_
    rintro v _ ⟨hv, rfl⟩
    exact Exec.Tracks.assign ⟨hv, rfl⟩ fun f f' hf => hR.assign hf (hassigned.2 name (by simp)) hv
  | binary op l r =>
    rw [Expr.assigned, List.forall_mem_append] at hassigned
    refine (hrec hR hassigned.1).bind fun v v' hv => ?_
    refine (hrec hR hassigned.2).bind fun w w' hw => ?_
    exact operation_tracks op hv hw _
  | call name args =>
    rw [Expr.assigned] at hassigned
    refine (callee_tracks hR _ name).bind fun f f' hf => ?_
    refine (evalAll_tracks hrec hR hassigned).bind fun vs ws hvs => ?_
    rw [← hvs.length_eq]
    exact Exec.Tracks.onFault (fun _ hd => L.withNode _ hd) (apply_tracks hrec hR _ hf hvs)
  | ite c t f =>
    simp only [Expr.assigned, List.forall_mem_append] at hassigned
    refine (hrec hR hassigned.1).bind fun v v' hv => ?_
    rw [Pairs.truthy_eq v v' hv]
    split
    · exact hrec hR hassigned.2.1
    · exact hrec hR hassigned.2.2
  | loop c b =>
    simp only [Expr.assigned, List.forall_mem_append] at hassigned
    exact Exec.Tracks.repeatWhile pairs_nil Pairs.truthy_eq (hrec hR hassigned.1)
      (hrec hR hassigned.2) turns
  | seq bodies =>
    rw [Expr.assigned] at hassigned
    exact evalSeq_tracks hrec hR hassigned
  | list elems =>
    rw [Expr.assigned] at hassigned
    refine (evalAll_tracks hrec hR hassigned).bind fun vs ws hvs => make_tracks ?_
    exact pairs_list hvs
  | dict entries =>
    rw [Expr.assigned] at hassigned
    refine (evalEntries_tracks hrec hR hassigned).bind ?_
    rintro d _ ⟨hd, rfl⟩
    exact make_tracks ⟨Value.closed_dict.mpr hd, rfl⟩

/-- Evaluation runs in lockstep. -/
theorem eval_tracks (L : Lockstep m m') (turns depth : Nat) :
    L.EvalTracks (Exec.eval m turns depth) (Exec.eval m' turns depth) := by
  induction depth with
  | zero => exact fun _ _ => .fault rfl
  | succ depth ih =>
    intro R e hR hassigned
    rw [Exec.eval, Exec.eval, L.cancelled]
    split
    · exact .fault rfl
    · exact step_tracks ih turns hR hassigned

/-- Programs run in lockstep. -/
theorem runExprs_tracks (L : Lockstep m m') (hR : L.Bears R) (hdepth : m'.depth = m.depth)
    {p : Program} (hfile : ∀ d, L.excused d → L.excused (d.withFile p.file))
    (hassigned : ∀ x ∈ Expr.assignedAll .some p.exprs, L.assignable x) (turns : Nat) :
    L.Tracks R (m.runExprs turns p) (m'.runExprs turns p) := by
  unfold Machine.runExprs Machine.evalExpr
  rw [hdepth]
  exact Exec.Tracks.onFault hfile (evalSeq_tracks (L.eval_tracks turns m.depth) hR hassigned)

end Lockstep

end TreeLang
