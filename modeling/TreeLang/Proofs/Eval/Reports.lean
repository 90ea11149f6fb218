import TreeLang.Proofs.Eval.Triples
import TreeLang.Proofs.Typing.Resolution

/-!
# What runs report

Every fault of a run is reported as a problem of the run time, and a machine without host functions
does not crash. Neither needs a program that was checked. Main statements: `eval_reports`, and
`runProgram_reports` for whole programs.
-/

namespace TreeLang

/-- Runs that report their faults as problems of the run time. They may not end. -/
def runtimeEndings : Endings := ⟨fun d => d.phase = .runtime, True⟩

theorem Primitive.Refusal.ofRuntime (r : Primitive.Refusal) :
    runtimeEndings.fault r.diagnostic := by
  cases r <;> rfl

theorem Operator.Refusal.ofRuntime (r : Operator.Refusal) :
    runtimeEndings.fault r.diagnostic := by
  cases r <;> rfl

namespace Exec

variable {α β : Type}

/-- The evaluation does not crash, and reports its fault as a problem of the run time. -/
def Reports (x : Exec α) : Prop :=
  Ensures runtimeEndings (fun _ => True) x fun _ _ => True

namespace Reports

theorem pure {a : α} : Reports (Exec.pure a) := Ensures.pure fun _ _ => trivial

theorem fault {d : Diagnostic} (h : d.phase = .runtime) : Reports (Exec.fault d : Exec α) :=
  Ensures.fault h

theorem bind {x : Exec α} {f : α → Exec β} (hx : Reports x) (hf : ∀ a, Reports (f a)) :
    Reports (x >>= f) :=
  Ensures.bind hx hf

theorem make {v : Value} : Reports (Exec.make v) := Ensures.make fun _ _ _ => trivial

theorem withNode {x : Exec α} (node : String) (hx : Reports x) :
    Reports (Exec.onFault (·.withNode node) x) := by
  refine Ensures.onFault (fun d hd => ?_) hx
  exact (d.phase_withNode node).trans hd

theorem withFile {x : Exec α} (file : String) (hx : Reports x) :
    Reports (Exec.onFault (·.withFile file) x) := by
  refine Ensures.onFault (fun d hd => ?_) hx
  exact (d.phase_withFile file).trans hd

theorem within {vars : RunState → Table Value} {x : Exec α} (hx : Reports x) :
    Reports (Exec.within vars x) :=
  (Ensures.within (fun _ _ => trivial) hx).post fun _ _ _ => trivial

/-! ## Lists of evaluations -/

section Lists

variable {rec : Expr → Exec Value} {call : List Value → Exec Value}

theorem evalAll (hrec : ∀ e, Reports (rec e)) (es : List Expr) (done : List Value) :
    Reports (Exec.evalAll rec es done) := by
  induction es generalizing done with
  | nil => exact pure
  | cons e es ih =>
    rw [evalAll_cons]
    exact (hrec e).bind fun v => ih (v :: done)

theorem evalSeq (hrec : ∀ e, Reports (rec e)) (es : List Expr) (last : Value) :
    Reports (Exec.evalSeq rec es last) := by
  induction es generalizing last with
  | nil => exact pure
  | cons e es ih =>
    rw [evalSeq_cons]
    exact (hrec e).bind ih

theorem evalEntries (hrec : ∀ e, Reports (rec e)) (es : List (Expr × Expr)) (done : Dict) :
    Reports (Exec.evalEntries rec es done) := by
  induction es generalizing done with
  | nil => exact pure
  | cons e es ih =>
    have hset (key value : Value) : Reports (setEntry e.1 key value done) := by
      unfold setEntry
      split
      · exact pure
      · exact fault rfl
    rw [evalEntries_cons]
    exact (hrec e.1).bind fun key => (hrec e.2).bind fun value => (hset key value).bind ih

theorem mapElems (hcall : ∀ args, Reports (call args)) (xs done : List Value) :
    Reports (Exec.mapElems call xs done) := by
  induction xs generalizing done with
  | nil => exact pure
  | cons x xs ih =>
    rw [mapElems_cons]
    exact (hcall [x]).bind fun v => ih (v :: done)

theorem filterElems (hcall : ∀ args, Reports (call args)) (xs done : List Value) :
    Reports (Exec.filterElems call xs done) := by
  induction xs generalizing done with
  | nil => exact pure
  | cons x xs ih =>
    rw [filterElems_cons]
    exact (hcall [x]).bind fun _ => ih _

theorem foldElems (hcall : ∀ args, Reports (call args)) (xs : List Value) (acc : Value) :
    Reports (Exec.foldElems call xs acc) := by
  induction xs generalizing acc with
  | nil => exact pure
  | cons x xs ih =>
    rw [foldElems_cons]
    exact (hcall [acc, x]).bind ih

theorem repeatWhile {cond body : Exec Value} (hcond : Reports cond) (hbody : Reports body)
    (turns : Nat) : Reports (Exec.repeatWhile cond body turns) :=
  (Ensures.repeatWhile trivial hcond hbody turns).post fun _ _ _ => trivial

end Lists

end Reports

end Exec

/-! ## Calls -/

open Exec (Reports)

theorem primitive_reports {call : Value → List Value → Exec Value}
    (hcall : ∀ f args, Reports (call f args)) (p : Primitive) (args : List Value) :
    Reports (p.run call args) := by
  have hrefuse (r : Primitive.Refusal) : Reports (Exec.fault r.diagnostic : Exec Value) :=
    .fault r.ofRuntime
  unfold Primitive.run
  split
  · next r _ =>
    cases r with
    | ok v => exact .pure
    | error r => exact hrefuse r
  · cases p with
    | print =>
      cases args with
      | nil => exact hrefuse _
      | cons first rest =>
        have hprint := Exec.Ensures.printLine (A := runtimeEndings) (P := fun _ => True)
          (fun _ => rfl) (Text.join " " ((first :: rest).map Value.inspect))
        exact hprint.bind fun _ => Reports.pure
    | input =>
      cases args with
      | nil => exact (Exec.Ensures.readLine fun _ => rfl).bind fun _ => Reports.pure
      | cons first rest => exact hrefuse _
    | map =>
      dsimp only
      split
      · split
        · exact hrefuse _
        · exact hrefuse _
        · exact (Reports.mapElems (hcall _) _ _).bind fun _ => .pure
      · exact hrefuse _
    | filter =>
      dsimp only
      split
      · split
        · exact hrefuse _
        · exact hrefuse _
        · exact (Reports.filterElems (hcall _) _ _).bind fun _ => .pure
      · exact hrefuse _
    | reduce =>
      dsimp only
      split
      · split
        · exact hrefuse _
        · exact hrefuse _
        · exact Reports.foldElems (hcall _) _ _
      · exact hrefuse _
    | _ => exact .pure

section Machines

variable {m : Machine} {rec : Expr → Exec Value}

theorem callUser_reports (hrec : ∀ e, Reports (rec e)) (f : UserFunction) (args : List Value) :
    Reports (Exec.callUser m rec f args) := by
  simp only [Exec.callUser]
  split
  · exact .fault rfl
  · exact (hrec _).within

theorem callHost_reports (id : Nat) (name : String) (args : List Value) :
    Reports (Exec.callHost Host.none id name args) :=
  fun _ _ => trivial

theorem apply_reports_of (hhost : m.host = Host.none) (hrec : ∀ e, Reports (rec e)) (level : Nat)
    (hback : ∀ f args, Reports (Exec.callback m rec level f args)) (f : Value)
    (args : List Value) : Reports (Exec.apply m rec level f args) := by
  cases f with
  | function f =>
    rw [Exec.apply_function]
    exact callUser_reports hrec f args
  | builtin b =>
    rw [Exec.apply_builtin]
    split
    · rw [hhost]
      exact (callHost_reports _ _ _).bind fun _ => .make
    · exact (primitive_reports hback _ _).bind fun _ => .make
  | _ =>
    rw [Exec.apply_other _ _ _ _ rfl]
    exact .fault rfl

theorem apply_reports (hhost : m.host = Host.none) (hrec : ∀ e, Reports (rec e)) (level : Nat)
    (f : Value) (args : List Value) : Reports (Exec.apply m rec level f args) := by
  induction level generalizing f args with
  | zero => exact apply_reports_of hhost hrec 0 (fun _ _ => .pure) f args
  | succ level ih => exact apply_reports_of hhost hrec (level + 1) ih f args

/-! ## One level of evaluation -/

theorem callee_reports (e : Expr) (name : String) : Reports (Exec.callee m e name) := by
  intro s _
  unfold Exec.callee
  cases m.function? name with
  | some f => trivial
  | none =>
    cases s.frame.get? name with
    | none => rfl
    | some v =>
      dsimp only
      by_cases hcallable : v.isCallable = true
      · rw [if_pos hcallable]
        trivial
      · rw [if_neg hcallable]
        rfl

theorem reference_reports (e : Expr) (name : String) : Reports (Exec.reference m e name) := by
  intro s _
  unfold Exec.reference
  cases s.frame.get? name with
  | some v => trivial
  | none =>
    cases m.function? name with
    | some f => trivial
    | none => rfl

/-- One level of evaluation reports as it should if the next one does. -/
theorem step_reports (hhost : m.host = Host.none) (hrec : ∀ e, Reports (rec e)) (turns : Nat)
    (e : Expr) : Reports (Exec.step m turns rec e) := by
  cases e with
  | number x => exact Reports.make (v := .number x .fresh)
  | text s => exact Reports.make (v := .text s .fresh)
  | bool b => exact .pure
  | ref name => exact reference_reports _ name
  | assign name value =>
    exact (hrec value).bind fun _ => Exec.Ensures.assign fun _ _ => trivial
  | binary op l r =>
    refine (hrec l).bind fun v => (hrec r).bind fun w => ?_
    split
    · exact .make
    · next refusal _ => exact .fault ((Diagnostic.phase_withNode _ _).trans refusal.ofRuntime)
  | call name args =>
    refine (callee_reports _ name).bind fun f => (Reports.evalAll hrec args []).bind fun vs => ?_
    exact (apply_reports hhost hrec _ f vs).withNode _
  | ite c t f =>
    refine (hrec c).bind fun v => ?_
    split
    · exact hrec t
    · exact hrec f
  | loop c b => exact .repeatWhile (hrec c) (hrec b) turns
  | seq bodies => exact .evalSeq hrec bodies .nil
  | list elems => exact (Reports.evalAll hrec elems []).bind fun _ => .make
  | dict entries => exact (Reports.evalEntries hrec entries []).bind fun _ => .make

theorem eval_reports (hhost : m.host = Host.none) (turns depth : Nat) (e : Expr) :
    Reports (Exec.eval m turns depth e) := by
  induction depth generalizing e with
  | zero => exact .fault rfl
  | succ depth ih =>
    rw [Exec.eval]
    split
    · exact .fault rfl
    · exact step_reports hhost ih turns e

/-- A program does not crash, and reports its fault as a problem of the run time. -/
theorem runProgram_reports (hhost : m.host = Host.none) (turns : Nat) (p : Program) :
    Reports (m.runProgram turns p) := by
  have hhost' : (m.defineAll p.defs).host = Host.none := (m.host_defineAll p.defs).trans hhost
  exact (Reports.evalSeq (eval_reports hhost' turns _) p.exprs .nil).withFile p.file

end Machines

end TreeLang
