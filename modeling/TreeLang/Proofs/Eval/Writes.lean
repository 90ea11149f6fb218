import TreeLang.Proofs.Eval.Triples
import TreeLang.Proofs.Names.Flow
import TreeLang.Proofs.Table

/-!
# The assignments of a run

An evaluation changes the variables of the current function by assignments only, and a call
changes none of its caller's. `writes` lists the assignments that an evaluation makes in the
current frame, in order; it goes the way of the evaluator and stops where the evaluation does.
Main statements: `eval_logs`, by which the variables after an evaluation are those before it with
the list written, whatever the outcome, and `writes_within`, by which all names in the list are
assigned in the text.
-/

namespace TreeLang.Exec

variable {α β : Type}

/-- The assignments that an evaluation makes, from each state. -/
abbrev Log := RunState → List (String × Value)

/-- The variables with assignments carried out in order. -/
def written (vars : Table Value) (ws : List (String × Value)) : Table Value :=
  ws.foldl (fun vars w => vars.insert w.1 w.2) vars

theorem written_append (vars : Table Value) (ws ws' : List (String × Value)) :
    written vars (ws ++ ws') = written (written vars ws) ws' := List.foldl_append

theorem get?_written_of_not_mem {ws : List (String × Value)} {name : String}
    (h : name ∉ ws.map (·.1)) (vars : Table Value) :
    (written vars ws).get? name = vars.get? name := by
  induction ws generalizing vars with
  | nil => rfl
  | cons w ws ih =>
    rw [List.map_cons, List.mem_cons, not_or] at h
    have hstep := ih h.2 (vars.insert w.1 w.2)
    rw [Table.get?_insert, if_neg (Ne.symm h.1)] at hstep
    exact hstep

theorem contains_written {ws : List (String × Value)} {name : String} {vars : Table Value} :
    (written vars ws).contains name = true ↔
      vars.contains name = true ∨ name ∈ ws.map (·.1) := by
  induction ws generalizing vars with
  | nil => simp [written]
  | cons w ws ih =>
    rw [written, List.foldl_cons, ← written, ih, Table.contains_insert, List.map_cons,
      List.mem_cons]
    tauto

/-! ## Logs -/

/-- Whatever the outcome, the variables after the evaluation are those before it with the log
written. -/
def Logs (x : Exec α) (l : Log) : Prop := ∀ s, (x s).2.frame = written s.frame (l s)

/-- Nothing is assigned. -/
def Log.none : Log := fun _ => []

/-- The log of one evaluation and, if it has a value, that of the next. -/
def Log.andThen (l : Log) (x : Exec α) (k : α → Log) : Log := fun s =>
  l s ++ match x s with
    | (.value a, s) => k a s
    | _ => []

theorem Log.andThen_none (l : Log) (x : Exec α) : (l.andThen x fun _ => .none) = l := by
  funext s
  unfold Log.andThen
  split
  · exact List.append_nil _
  · exact List.append_nil _

namespace Logs

theorem pure {a : α} : Logs (Exec.pure a) .none := fun _ => rfl

theorem fault {d : Diagnostic} : Logs (Exec.fault d : Exec α) .none := fun _ => rfl

theorem make {v : Value} : Logs (Exec.make v) .none := fun _ => rfl

theorem assign {name : String} {v : Value} : Logs (Exec.assign name v) fun _ => [(name, v)] :=
  fun _ => rfl

theorem bind {x : Exec α} {l : Log} {f : α → Exec β} {k : α → Log} (hx : Logs x l)
    (hf : ∀ a, Logs (f a) (k a)) : Logs (x >>= f) (l.andThen x k) := by
  intro s
  have hfirst := hx s
  change (Exec.bind x f s).2.frame = _
  unfold Exec.bind Log.andThen
  rcases hrun : x s with ⟨r, s'⟩
  rw [hrun] at hfirst
  cases r with
  | value a =>
    -- The second evaluation starts with the variables that the first one left.
    dsimp only at hfirst ⊢
    rw [written_append, ← hfirst]
    exact hf a s'
  | fault | crash | unfinished =>
    rw [List.append_nil]
    exact hfirst

theorem onFault {g : Diagnostic → Diagnostic} {x : Exec α} {l : Log} (hx : Logs x l) :
    Logs (Exec.onFault g x) l := by
  intro s
  have hs := hx s
  unfold Exec.onFault
  rcases hrun : x s with ⟨r, s'⟩
  rw [hrun] at hs
  cases r with
  | value | fault | crash | unfinished => exact hs

theorem ite {c : Prop} [Decidable c] {x y : Exec α} {l k : Log} (hx : Logs x l) (hy : Logs y k) :
    Logs (if c then x else y) (if c then l else k) := by
  split
  · exact hx
  · exact hy

/-- What follows assigns nothing more. -/
theorem last {x : Exec α} {l : Log} {f : α → Exec β} (hx : Logs x l)
    (hf : ∀ a, Logs (f a) .none) : Logs (x >>= f) l := by
  have hbind := hx.bind hf
  rwa [Log.andThen_none] at hbind

/-- Under other variables nothing is assigned to the current ones. -/
theorem within {vars : RunState → Table Value} {x : Exec α} : Logs (Exec.within vars x) .none :=
  fun _ => rfl

end Logs

/-! ## Calls -/

theorem callHost_logs {host : Host} {id : Nat} {name : String} {args : List Value} :
    Logs (callHost host id name args) .none := by
  intro s
  unfold callHost
  dsimp only
  split <;> split <;> rfl

theorem mapElems_logs {call : List Value → Exec Value} (hcall : ∀ vs, Logs (call vs) .none)
    (xs done : List Value) : Logs (mapElems call xs done) .none := by
  induction xs generalizing done with
  | nil => exact .pure
  | cons x xs ih =>
    rw [mapElems_cons]
    exact (hcall [x]).last fun v => ih (v :: done)

theorem filterElems_logs {call : List Value → Exec Value} (hcall : ∀ vs, Logs (call vs) .none)
    (xs done : List Value) : Logs (filterElems call xs done) .none := by
  induction xs generalizing done with
  | nil => exact .pure
  | cons x xs ih =>
    rw [filterElems_cons]
    exact (hcall [x]).last fun v => ih _

theorem foldElems_logs {call : List Value → Exec Value} (hcall : ∀ vs, Logs (call vs) .none)
    (xs : List Value) (acc : Value) : Logs (foldElems call xs acc) .none := by
  induction xs generalizing acc with
  | nil => exact .pure
  | cons x xs ih =>
    rw [foldElems_cons]
    exact (hcall [acc, x]).last fun v => ih v

theorem printLine_logs (line : String) : Logs (printLine line) .none := by
  intro s
  unfold printLine
  split <;> rfl

theorem readLine_logs : Logs readLine .none := by
  intro s
  unfold readLine
  split <;> rfl

theorem primitive_logs {call : Value → List Value → Exec Value}
    (hcall : ∀ f vs, Logs (call f vs) .none) (p : Primitive) (args : List Value) :
    Logs (p.run call args) .none := by
  unfold Primitive.run
  dsimp only
  split
  · next r _ =>
    cases r with
    | ok v => exact .pure
    | error e => exact .fault
  · split
    · split
      · exact .fault
      · exact (printLine_logs _).last fun _ => .pure
    · split
      · exact readLine_logs.last fun _ => .pure
      · exact .fault
    · split
      · split
        · exact .fault
        · exact .fault
        · exact (mapElems_logs (hcall _) _ _).last fun _ => .pure
      · exact .fault
    · split
      · split
        · exact .fault
        · exact .fault
        · exact (filterElems_logs (hcall _) _ _).last fun _ => .pure
      · exact .fault
    · split
      · split
        · exact .fault
        · exact .fault
        · exact foldElems_logs (hcall _) _ _
      · exact .fault
    · exact .pure

theorem callUser_logs {m : Machine} {body : Expr → Exec Value} {f : UserFunction}
    {args : List Value} : Logs (callUser m body f args) .none := by
  unfold callUser
  dsimp only
  split
  · exact .fault
  · exact .within

/-- A call assigns nothing to the variables of its caller, under either policy and through all
callbacks. -/
theorem apply_logs (m : Machine) (body : Expr → Exec Value) (level : Nat) (f : Value)
    (args : List Value) : Logs (apply m body level f args) .none := by
  induction level generalizing f args with
  | zero =>
    cases f with
    | function f => exact callUser_logs
    | builtin b =>
      rw [apply]
      split
      · exact callHost_logs.last fun _ => .make
      · exact (primitive_logs (fun _ _ => .pure) _ args).last fun _ => .make
    | _ => exact .fault
  | succ level ih =>
    cases f with
    | function f => exact callUser_logs
    | builtin b =>
      rw [apply]
      split
      · exact callHost_logs.last fun _ => .make
      · exact (primitive_logs ih _ args).last fun _ => .make
    | _ => exact .fault

theorem callee_logs {m : Machine} {e : Expr} {name : String} : Logs (callee m e name) .none := by
  intro s
  unfold callee
  split
  · rfl
  · split
    · rfl
    · split <;> rfl

theorem reference_logs {m : Machine} {e : Expr} {name : String} :
    Logs (reference m e name) .none := by
  intro s
  unfold reference
  split
  · rfl
  · split <;> rfl

/-! ## Expressions -/

section

variable (rec : Expr → Exec Value) (log : Expr → Log)

/-- The assignments of expressions from left to right, up to one without a value. -/
def logAll : List Expr → Log
  | [] => .none
  | e :: es => (log e).andThen (rec e) fun _ => logAll es

/-- The assignments of entries, up to a key or a value without a value or a key that is none. -/
def logEntries : List (Expr × Expr) → Log
  | [] => .none
  | (k, v) :: es => (log k).andThen (rec k) fun key => (log v).andThen (rec v) fun _ =>
    if (Key.ofValue? key).isSome then logEntries es else .none

/-- The assignments of a loop. -/
def logWhile (c b : Expr) : (turns : Nat) → Log
  | 0 => .none
  | turns + 1 => (log c).andThen (rec c) fun v =>
    if v.truthy then (log b).andThen (rec b) fun _ => logWhile c b turns else .none

/-- The assignments of one level of evaluation; `rec` and `log` are those of the next level. -/
def stepLog (m : Machine) (turns : Nat) (e : Expr) : Log :=
  match e with
  | .number _ | .text _ | .bool _ | .ref _ => .none
  | .assign name value => (log value).andThen (rec value) fun v _ => [(name, v)]
  | .binary _ left right => (log left).andThen (rec left) fun _ => log right
  | .call name args => Log.none.andThen (callee m e name) fun _ => logAll rec log args
  | .ite c t f => (log c).andThen (rec c) fun v => if v.truthy then log t else log f
  | .loop c b => logWhile rec log c b turns
  | .seq es | .list es => logAll rec log es
  | .dict entries => logEntries rec log entries

end

/-- The assignments that evaluating an expression makes in the current frame. -/
def writes (m : Machine) (turns : Nat) : (depth : Nat) → Expr → Log
  | 0, _ => .none
  | depth + 1, e =>
    if m.cancelled then .none
    else stepLog (eval m turns depth) (writes m turns depth) m turns e

/-- The next level of evaluation has the logs of `log`. -/
abbrev LogsAll (rec : Expr → Exec Value) (log : Expr → Log) : Prop := ∀ e, Logs (rec e) (log e)

section

variable {rec : Expr → Exec Value} {log : Expr → Log} (h : LogsAll rec log)

include h

/-- Operands are evaluated up to the first one without a value, and so are their logs. -/
theorem evalAll_logs (es : List Expr) (done : List Value) :
    Logs (evalAll rec es done) (logAll rec log es) := by
  induction es generalizing done with
  | nil => exact .pure
  | cons e es ih =>
    rw [evalAll_cons]
    exact (h e).bind fun v => ih (v :: done)

theorem evalSeq_logs (es : List Expr) (last : Value) :
    Logs (evalSeq rec es last) (logAll rec log es) := by
  induction es generalizing last with
  | nil => exact .pure
  | cons e es ih =>
    rw [evalSeq_cons]
    exact (h e).bind fun v => ih v

theorem evalEntries_logs (es : List (Expr × Expr)) (done : Dict) :
    Logs (evalEntries rec es done) (logEntries rec log es) := by
  induction es generalizing done with
  | nil => exact .pure
  | cons e es ih =>
    rw [evalEntries_cons]
    refine (h e.1).bind fun key => (h e.2).bind fun value => ?_
    unfold setEntry
    cases Key.ofValue? key with
    | none => exact .fault
    | some id => exact ih (Dict.set id value done)

theorem repeatWhile_logs (c b : Expr) (turns : Nat) :
    Logs (repeatWhile (rec c) (rec b) turns) (logWhile rec log c b turns) := by
  induction turns with
  | zero => exact fun _ => rfl
  | succ turns ih =>
    rw [repeatWhile_succ]
    exact (h c).bind fun v => .ite ((h b).bind fun _ => ih) .pure

theorem step_logs (m : Machine) (turns : Nat) (e : Expr) :
    Logs (step m turns rec e) (stepLog rec log m turns e) := by
  cases e with
  | number x => exact .make
  | text s => exact .make
  | bool b => exact .pure
  | ref name => exact reference_logs
  | assign name value => exact (h value).bind fun v => .assign
  | binary op l r =>
    refine (h l).bind fun v => (h r).last fun w => ?_
    split
    · exact .make
    · exact .fault
  | call name args =>
    refine callee_logs.bind fun f => (evalAll_logs h args []).last fun vs => ?_
    exact (apply_logs m rec vs.length f vs).onFault
  | ite c t f => exact (h c).bind fun v => .ite (h t) (h f)
  | loop c b => exact repeatWhile_logs h c b turns
  | seq bodies => exact evalSeq_logs h bodies .nil
  | list elems => exact (evalAll_logs h elems []).last fun _ => .make
  | dict entries => exact (evalEntries_logs h entries []).last fun _ => .make

end

/-- The variables after an evaluation are those before it with its assignments written. -/
theorem eval_logs (m : Machine) (turns depth : Nat) :
    LogsAll (eval m turns depth) (writes m turns depth) := by
  induction depth with
  | zero => exact fun _ => .fault
  | succ depth ih => exact fun e => .ite .fault (step_logs ih m turns e)

/-- The same for the expressions of a program, one after the other. -/
theorem runExprs_logs (m : Machine) (turns : Nat) (p : Program) :
    Logs (m.runExprs turns p) (logAll (m.evalExpr turns) (writes m turns m.depth) p.exprs) :=
  (evalSeq_logs (eval_logs m turns m.depth) p.exprs .nil).onFault

/-! ## Names in the text -/

/-- All names in the log are among these. -/
def Log.Within (l : Log) (names : List String) : Prop := ∀ s, ∀ w ∈ l s, w.1 ∈ names

namespace Log.Within

theorem none {names : List String} : Log.none.Within names := fun _ _ hw => (nomatch hw)

theorem mono {l : Log} {names names' : List String} (h : l.Within names) (hsub : names ⊆ names') :
    l.Within names' := fun s w hw => hsub (h s w hw)

theorem names_subset {l : Log} {names : List String} (h : l.Within names) (s : RunState) :
    (l s).map (·.1) ⊆ names := by
  intro n hn
  obtain ⟨w, hw, rfl⟩ := List.mem_map.mp hn
  exact h s w hw

theorem andThen {l : Log} {x : Exec α} {k : α → Log} {names names' : List String}
    (hl : l.Within names) (hk : ∀ a, (k a).Within names') :
    (l.andThen x k).Within (names ++ names') := by
  intro s w hw
  rcases List.mem_append.mp hw with hw | hw
  · exact List.mem_append_left _ (hl s w hw)
  · split at hw
    · exact List.mem_append_right _ (hk _ _ w hw)
    · cases hw

theorem ite {c : Prop} [Decidable c] {l k : Log} {names : List String} (hl : l.Within names)
    (hk : k.Within names) : (if c then l else k).Within names := by
  split
  · exact hl
  · exact hk

end Log.Within

section

variable {rec : Expr → Exec Value} {log : Expr → Log}
  (h : ∀ e, (log e).Within (e.assigned .some))

include h

theorem logAll_within (es : List Expr) :
    (logAll rec log es).Within (Expr.assignedAll .some es) := by
  induction es with
  | nil => exact .none
  | cons e es ih => exact (h e).andThen fun _ => ih

theorem logEntries_within (es : List (Expr × Expr)) :
    (logEntries rec log es).Within (Expr.assignedEntries .some es) := by
  induction es with
  | nil => exact .none
  | cons e es ih =>
    rw [logEntries, Expr.assignedEntries, List.append_assoc]
    exact (h e.1).andThen fun _ => (h e.2).andThen fun _ => .ite ih .none

theorem logWhile_within (c b : Expr) (turns : Nat) :
    (logWhile rec log c b turns).Within (c.assigned .some ++ b.assigned .some) := by
  induction turns with
  | zero => exact .none
  | succ turns ih =>
    have hbody : ((log b).andThen (rec b) fun _ => logWhile rec log c b turns).Within
        (b.assigned .some ++ (c.assigned .some ++ b.assigned .some)) := (h b).andThen fun _ => ih
    have hturn : (logWhile rec log c b (turns + 1)).Within
        (c.assigned .some ++ (b.assigned .some ++ (c.assigned .some ++ b.assigned .some))) :=
      (h c).andThen fun _ => .ite hbody .none
    exact hturn.mono (by simp)

theorem stepLog_within (m : Machine) (turns : Nat) (e : Expr) :
    (stepLog rec log m turns e).Within (e.assigned .some) := by
  cases e with
  | number | text | bool | ref => exact .none
  | assign name value =>
    refine (h value).andThen fun v s w hw => ?_
    rw [List.mem_singleton.mp hw]
    exact List.mem_singleton_self name
  | binary op l r => exact (h l).andThen fun _ => h r
  | call name args =>
    have hcallee : Log.none.Within [] := .none
    exact hcallee.andThen fun _ => logAll_within h args
  | ite c t f =>
    refine (h c).andThen fun v => .ite ?_ ?_
    · exact (h t).mono (List.subset_append_left ..)
    · exact (h f).mono (List.subset_append_right ..)
  | loop c b => exact logWhile_within h c b turns
  | seq bodies => exact logAll_within h bodies
  | list elems => exact logAll_within h elems
  | dict entries => exact logEntries_within h entries

end

/-- All names that an evaluation assigns are assigned in the text of the expression. -/
theorem writes_within (m : Machine) (turns depth : Nat) (e : Expr) :
    (writes m turns depth e).Within (e.assigned .some) := by
  induction depth generalizing e with
  | zero => exact .none
  | succ depth ih => exact .ite .none (stepLog_within ih m turns e)

theorem runExprs_within (m : Machine) (turns : Nat) (es : List Expr) :
    (logAll (m.evalExpr turns) (writes m turns m.depth) es).Within (Expr.assignedAll .some es) :=
  logAll_within (writes_within m turns m.depth) es

end TreeLang.Exec
