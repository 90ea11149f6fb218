import Mathlib
import TreeLang.Proofs.Eval.Writes
import TreeLang.Proofs.Session.Refusal
import TreeLang.Proofs.Typing.Programs

/-!
# Runs that fail

An entry that checks may fail while it runs, after some of its assignments. The checker has then
bound all names that the entry assigns on any way, and the run has assigned some of them. Rolling
back takes the others back: `rollBack_inStep` says this of scopes and tables alone.

Main statement: `failed_run_rolledBack`. If the checker knows the variables that there are, it
does so again after a run that fails; every name that the run assigned is among them, and all
others have the values and the types that they had.
-/

namespace TreeLang.Session

open Exec (written)

/-! ## Scopes -/

theorem get?_restoreVariable (scope earlier : Scope) (name other : String) :
    (scope.restoreVariable earlier name).vars.get? other =
      if name = other then earlier.vars.get? other else scope.vars.get? other := by
  unfold Scope.restoreVariable
  by_cases hname : name = other
  · subst hname
    split
    · next t ht => simp [Scope.define, ht]
    · next hnone => simp [hnone]
  · split
    · simp [Scope.define, hname]
    · simp [hname]

/-- Looking at one variable gives it its earlier type if it was not touched. -/
theorem get?_rollBack_step (earlier scope : Scope) (before after : Table Value) (n name : String) :
    (if untouched before after n then scope.restoreVariable earlier n else scope).vars.get? name =
      if n = name ∧ untouched before after name = true then earlier.vars.get? name
      else scope.vars.get? name := by
  by_cases hn : n = name
  · subst hn
    by_cases huntouched : untouched before after n = true
    · simp [huntouched, get?_restoreVariable]
    · simp [huntouched]
  · split
    · simp [hn, get?_restoreVariable]
    · simp [hn]

/-- Rolling back gives the earlier types to the variables that were not touched. -/
theorem get?_rollBack (earlier current : Scope) (before after : Table Value) (name : String) :
    (rollBack earlier current before after).vars.get? name =
      if current.vars.contains name = true ∧ untouched before after name = true then
        earlier.vars.get? name
      else current.vars.get? name := by
  simp only [← Table.mem_names, rollBack]
  -- The names are looked at one by one; a name that comes again gets the same type again.
  generalize current.vars.names = names
  induction names generalizing current with
  | nil => simp
  | cons n names ih =>
    rw [List.foldl_cons, ih, get?_rollBack_step]
    by_cases hn : n = name
    · by_cases huntouched : untouched before after name = true
      · simp [hn, huntouched]
      · simp [huntouched]
    · simp [hn, Ne.symm hn]

theorem untouched_written_of_not_mem {before : Table Value} {ws : List (String × Value)}
    {name : String} (h : name ∉ ws.map (·.1)) :
    untouched before (written before ws) name = true := by
  unfold untouched
  rw [Exec.get?_written_of_not_mem h]
  cases before.get? name with
  | none => rfl
  | some v => exact v.sameObject_self

/-- A variable that was not touched and is there was there before. -/
theorem contains_of_untouched {before after : Table Value} {name : String}
    (h : untouched before after name = true) (hafter : after.contains name = true) :
    before.contains name = true := by
  unfold untouched at h
  unfold Table.contains at hafter ⊢
  cases hbefore : before.get? name with
  | none =>
    obtain ⟨now, hnow⟩ := Option.isSome_iff_exists.mp hafter
    rw [hbefore, hnow] at h
    cases h
  | some v => rfl

/-- Where the checker knew the variables that there were and has bound all that were written since,
rolling back makes it know the variables that there are now. Those that were not written have their
earlier types. -/
theorem rollBack_inStep {earlier current : Scope} {before : Table Value}
    {ws : List (String × Value)} (hstep : ∀ n, earlier.vars.contains n = before.contains n)
    (hbinds : Binds (ws.map (·.1)) earlier current) :
    (∀ n, (rollBack earlier current before (written before ws)).vars.contains n =
      (written before ws).contains n) ∧
    ∀ n ∉ ws.map (·.1), (rollBack earlier current before (written before ws)).vars.get? n =
      earlier.vars.get? n := by
  have hkept : ∀ n ∉ ws.map (·.1),
      (rollBack earlier current before (written before ws)).vars.get? n = earlier.vars.get? n := by
    intro n hn
    rw [get?_rollBack]
    by_cases hcurrent : current.vars.contains n = true
    · rw [if_pos ⟨hcurrent, untouched_written_of_not_mem hn⟩]
    · -- Checking forgets no variable.
      have hearlier : ¬ earlier.vars.contains n = true := fun h => hcurrent (hbinds n (.inl h))
      rw [if_neg fun h => hcurrent h.1]
      rw [Table.contains, Option.not_isSome_iff_eq_none] at hcurrent hearlier
      rw [hcurrent, hearlier]
  refine ⟨fun n => ?_, hkept⟩
  by_cases hn : n ∈ ws.map (·.1)
  · have hafter : (written before ws).contains n = true := Exec.contains_written.mpr (.inr hn)
    have hcurrent : current.vars.contains n = true := hbinds n (.inr hn)
    rw [hafter, Table.contains, get?_rollBack]
    split
    · next h =>
      -- The run assigned the object that was there before, so the variable had a type before.
      have hbefore := contains_of_untouched h.2 hafter
      rw [← hstep n] at hbefore
      exact hbefore
    · exact hcurrent
  · rw [Table.contains, hkept n hn, Table.contains, Exec.get?_written_of_not_mem hn]
    exact hstep n

/-! ## Sessions -/

/-- The checker knows the variables that there are. -/
def InStep (s : Session) : Prop := ∀ n, s.checker.scope.vars.contains n = s.globals.contains n

/-- After a run that assigned the names, the checker knows the variables that there are, the names
are among them, and all others have the values and the types that they had. -/
structure RolledBack (s : Session) (names : List String) (s' : Session) : Prop where
  inStep : s'.InStep
  assigned : ∀ n ∈ names, s'.globals.contains n = true ∧ s'.checker.scope.vars.contains n = true
  kept : ∀ n ∉ names, s'.globals.get? n = s.globals.get? n ∧
    s'.checker.scope.vars.get? n = s.checker.scope.vars.get? n

theorem RolledBack.refl {s : Session} (h : s.InStep) : RolledBack s [] s := by
  constructor
  · exact h
  · simp
  · exact fun _ _ => ⟨rfl, rfl⟩

/-- Only the variables and their types count. -/
theorem RolledBack.congr {s s' s'' : Session} {names : List String} (h : RolledBack s names s')
    (hglobals : s''.globals = s'.globals) (hscope : s''.checker.scope = s'.checker.scope) :
    RolledBack s names s'' := by
  obtain ⟨hinStep, hassigned, hkept⟩ := h
  constructor
  · unfold InStep
    rw [hglobals, hscope]
    exact hinStep
  · rw [hglobals, hscope]
    exact hassigned
  · rw [hglobals, hscope]
    exact hkept

/-- What a failed run leaves: the variables are those before with the assignments written. -/
theorem exec_globals {s : Session} {x : Exec Value} {l : Exec.Log} (hl : Exec.Logs x l) :
    (s.exec x).2.globals = written s.globals (l s.start) := by
  have hframe := hl s.start
  unfold exec
  dsimp only
  split <;> exact hframe

theorem runChecked_failed {s : Session} {earlier : Scope} {x : Exec Value} {d : Diagnostic}
    (hfail : (s.runChecked earlier x).1 = .error (.report d)) :
    (s.runChecked earlier x).2.globals = (s.exec x).2.globals ∧
      (s.runChecked earlier x).2.checker.scope =
        rollBack earlier s.checker.scope s.globals (s.exec x).2.globals := by
  have hchecker := s.exec_checker x
  unfold runChecked at hfail ⊢
  split
  · next heq =>
    rw [heq] at hchecker ⊢
    dsimp only at hchecker ⊢
    rw [hchecker]
    exact ⟨rfl, rfl⟩
  · next hne =>
    -- Any other ending is answered as it is, and is not this report.
    rcases hexec : s.exec x with ⟨r, s'⟩
    rw [hexec] at hfail
    cases r with
    | ok v => cases hfail
    | error p =>
      cases p with
      | report d' => exact absurd hexec (hne d' s')
      | _ => cases hfail

/-- A failed run is rolled back, if the check before it has bound all that the run assigned. -/
theorem runChecked_rolledBack {s s₀ : Session} {x : Exec Value} {l : Exec.Log} {d : Diagnostic}
    (hl : Exec.Logs x l) (hfail : (s.runChecked s₀.checker.scope x).1 = .error (.report d))
    (hglobals : s.globals = s₀.globals) (hstep : s₀.InStep)
    (hbinds : Binds ((l s.start).map (·.1)) s₀.checker.scope s.checker.scope) :
    RolledBack s₀ ((l s.start).map (·.1)) (s.runChecked s₀.checker.scope x).2 := by
  obtain ⟨hglobals', hscope'⟩ := runChecked_failed hfail
  rw [exec_globals hl, hglobals] at hglobals' hscope'
  obtain ⟨hinStep, hkept⟩ := rollBack_inStep hstep hbinds
  constructor
  · intro n
    rw [hglobals', hscope']
    exact hinStep n
  · intro n hn
    have hafter : (written s₀.globals (l s.start)).contains n = true :=
      Exec.contains_written.mpr (.inr hn)
    rw [hglobals', hscope', hinStep n]
    exact ⟨hafter, hafter⟩
  · intro n hn
    rw [hglobals', hscope']
    exact ⟨Exec.get?_written_of_not_mem hn _, hkept n hn⟩

theorem checkAndRun_ok {α : Type} {s : Session} (check : Checker → Except Halt α × Checker)
    (run : Session → Session × Exec Value) {a : α} {c : Checker}
    (hcheck : check s.checker = (.ok a, c)) :
    s.checkAndRun check run = (run { s with checker := c }).1.runChecked s.checker.scope
      (run { s with checker := c }).2 := by
  unfold checkAndRun
  rw [hcheck]

/-! ## Entries -/

/-- The assignments that evaluating an expression makes in a session. -/
def exprWrites (s : Session) (e : Expr) : List (String × Value) :=
  Exec.writes s.machine s.turns s.machine.depth e s.start

/-- The assignments that running a program makes in a session. -/
def programWrites (s : Session) (p : Program) : List (String × Value) :=
  let m := s.machine.defineAll p.defs
  Exec.logAll (m.evalExpr s.turns) (Exec.writes m s.turns m.depth) p.exprs s.start

theorem evalExpr_rolledBack {s : Session} {e : Expr} {t : Ty} {c : Checker} {d : Diagnostic}
    (hcheck : s.skipCheck = false) (hstep : s.InStep) (hok : s.checker.checkExpr 0 e = (.ok t, c))
    (hfail : (s.evalExpr e).1 = .error (.report d)) :
    RolledBack s ((s.exprWrites e).map (·.1)) (s.evalExpr e).2 := by
  have hbinds : Binds (e.assigned .some) s.checker.scope c.scope :=
    Typed.accumulates Binds.accumulates e (Checker.checkExpr_typed hok)
  have hwithin := Exec.writes_within s.machine s.turns s.machine.depth e
  rw [evalExpr, if_neg (by simp [hcheck]), checkAndRun_ok (·.checkExpr 0 e) _ hok] at hfail ⊢
  exact runChecked_rolledBack (Exec.eval_logs s.machine s.turns s.machine.depth e) hfail rfl hstep
    (hbinds.mono (hwithin.names_subset _))

/-- A check of a program that succeeds has bound all names that its expressions assign. -/
theorem checkProgram_binds {c c' : Checker} {p : Program} {t : Ty}
    (h : c.checkProgram p = (.ok t, c')) :
    Binds (Expr.assignedAll .some p.exprs) c.scope c'.scope := by
  unfold Checker.checkProgram at h
  extract_lets c₀ at h
  have hstart : c₀.scope = c.scope := by
    unfold c₀
    split <;> rfl
  split at h
  · cases h
  · next c₁ hdeclare =>
    obtain ⟨-, rfl⟩ := Checker.declareAll_iff.mp hdeclare
    split at h
    · cases h
    · next c₂ hbodies =>
      have hscope : c₂.scope.vars = c.scope.vars := by
        rw [(Checker.checkFunctions_renewed hbodies).scope, ← hstart]
        exact Scope.vars_defineAll c₀.scope p.defs
      obtain ⟨ts, hts, -⟩ := Checker.checkExprs_typed h
      intro n hn
      refine hts.binds n ?_
      rw [Checker.setting, hscope]
      exact hn

theorem takeProgram_rolledBack {s : Session} {p : Program} {t : Ty} {c : Checker} {d : Diagnostic}
    (hcheck : s.skipCheck = false) (hstep : s.InStep)
    (hok : s.checker.checkProgram p = (.ok t, c))
    (hfail : (s.takeProgram p).1 = .error (.report d)) :
    RolledBack s ((s.programWrites p).map (·.1)) (s.takeProgram p).2 := by
  have hbinds := checkProgram_binds hok
  have hwithin := Exec.runExprs_within (s.machine.defineAll p.defs) s.turns p.exprs
  rw [takeProgram, if_neg (by simp [hcheck]), checkAndRun_ok (·.checkProgram p) _ hok] at hfail ⊢
  have hrun := runChecked_rolledBack (Exec.runExprs_logs _ s.turns p) hfail rfl hstep
    (hbinds.mono (hwithin.names_subset _))
  exact hrun.congr rfl rfl

/-! ## Requests -/

/-- The assignments that the entry in a text makes. -/
def sourceWrites (s : Session) (source : String) : List (String × Value) :=
  match Reader.readEntry source with
  | .ok (.expression e) => s.exprWrites e
  | _ => []

/-- The assignments that the program in a text makes. -/
def programSourceWrites (s : Session) (source file : String) : List (String × Value) :=
  match Reader.readProgram source file with
  | .ok p => s.programWrites p
  | _ => []

/-- The assignments to global variables that a request makes, if it is not turned down. -/
def assignments (s : Session) : Request → List (String × Value)
  | .eval source | .evalObject source => s.sourceWrites source
  | .evalProgram source file | .evalProgramObject source file => s.programSourceWrites source file
  | _ => []

theorem answer_error {α : Type} {r : Step α} {f : α → Answer} {p : Problem} :
    (r.answer f).1 = .error p ↔ r.1 = .error p := by
  unfold Step.answer
  cases r.1 with
  | ok a => simp [Except.map]
  | error q => simp [Except.map]

/-- Converting a value for the host is never reported. -/
theorem toHost_ne_report (v : Value) (d : Diagnostic) : toHost v ≠ .error (.report d) := by
  unfold toHost
  split <;> simp

theorem evalForHost_report {s : Session} {source : String} {d : Diagnostic}
    (h : (s.evalForHost source).1 = .error (.report d)) :
    (s.eval source).1 = .error (.report d) := by
  unfold evalForHost at h
  split at h
  · exact absurd h (toHost_ne_report _ d)
  · cases h
  · next heq =>
    cases h
    rw [heq]

theorem evalProgramForHost_report {s : Session} {source file : String} {d : Diagnostic}
    (h : (s.evalProgramForHost source file).1 = .error (.report d)) :
    (s.evalProgram source file).1 = .error (.report d) := by
  unfold evalProgramForHost at h
  split at h
  · exact absurd h (toHost_ne_report _ d)
  · next heq =>
    cases h
    rw [heq]

theorem ok_of_problem? {α : Type} {r : Except Halt α} (h : problem? r = none) : ∃ a, r = .ok a := by
  cases r with
  | ok a => exact ⟨a, rfl⟩
  | error halt => cases h

theorem define_ne_error {s : Session} {d : FunctionDef} (hcheck : s.skipCheck = false)
    (h : problem? (s.checker.define d).1 = none) (p : Problem) : (s.define d).1 ≠ .error p := by
  obtain ⟨u, hu⟩ := ok_of_problem? h
  unfold define
  rw [if_neg (by simp [hcheck])]
  rcases hdefine : s.checker.define d with ⟨r, c⟩
  rw [hdefine] at hu
  subst hu
  exact nofun

theorem take_rolledBack {s : Session} (hcheck : s.skipCheck = false) (hstep : s.InStep)
    {entry : Reader.Entry} (hok : s.entryProblem? entry = none) {d : Diagnostic}
    (hfail : (s.take entry).1 = .error (.report d)) :
    ∃ e, entry = .expression e ∧ RolledBack s ((s.exprWrites e).map (·.1)) (s.take entry).2 := by
  cases entry with
  | definition f =>
    have hdefine := define_ne_error hcheck hok
    rw [take] at hfail
    split at hfail
    · cases hfail
    · next heq =>
      rw [heq] at hdefine
      exact absurd rfl (hdefine _)
  | expression e =>
    obtain ⟨t, ht⟩ := ok_of_problem? hok
    rcases hverdict : s.checker.checkExpr 0 e with ⟨r, c⟩
    rw [hverdict] at ht
    subst ht
    have hrun := evalExpr_rolledBack (d := d) hcheck hstep hverdict
    refine ⟨e, rfl, ?_⟩
    rw [take] at hfail ⊢
    split at hfail
    · cases hfail
    · next heq =>
      cases hfail
      rw [heq] at hrun
      exact hrun rfl

theorem sourceProblem?_of_read {s : Session} {source : String} {entry : Reader.Entry}
    (h : Reader.readEntry source = .ok entry) :
    s.sourceProblem? source = s.entryProblem? entry := by
  unfold sourceProblem?
  rw [h]

theorem sourceWrites_of_read {s : Session} {source : String} {e : Expr}
    (h : Reader.readEntry source = .ok (.expression e)) :
    s.sourceWrites source = s.exprWrites e := by
  unfold sourceWrites
  rw [h]

theorem eval_of_read {s : Session} {source : String} {entry : Reader.Entry}
    (h : Reader.readEntry source = .ok entry) : s.eval source = s.take entry := by
  unfold eval
  rw [h]

theorem eval_rolledBack {s : Session} (hcheck : s.skipCheck = false) (hstep : s.InStep)
    (source : String) (hok : s.sourceProblem? source = none) {d : Diagnostic}
    (hfail : (s.eval source).1 = .error (.report d)) :
    RolledBack s ((s.sourceWrites source).map (·.1)) (s.eval source).2 := by
  cases hread : Reader.readEntry source with
  | error f =>
    unfold sourceProblem? at hok
    rw [hread] at hok
    cases hok
  | ok entry =>
    rw [sourceProblem?_of_read hread] at hok
    rw [eval_of_read hread] at hfail ⊢
    obtain ⟨e, rfl, h⟩ := take_rolledBack hcheck hstep hok hfail
    rw [sourceWrites_of_read hread]
    exact h

theorem evalProgram_rolledBack {s : Session} (hcheck : s.skipCheck = false) (hstep : s.InStep)
    (source file : String) (hok : s.programProblem? source file = none) {d : Diagnostic}
    (hfail : (s.evalProgram source file).1 = .error (.report d)) :
    RolledBack s ((s.programSourceWrites source file).map (·.1))
      (s.evalProgram source file).2 := by
  unfold programProblem? at hok
  unfold evalProgram at hfail ⊢
  unfold programSourceWrites
  generalize Reader.readProgram source file = reading at hok hfail ⊢
  cases reading with
  | error f => cases hok
  | ok p =>
    obtain ⟨t, ht⟩ := ok_of_problem? hok
    rcases hverdict : s.checker.checkProgram p with ⟨r, c⟩
    rw [hverdict] at ht
    subst ht
    exact takeProgram_rolledBack hcheck hstep hverdict hfail

/-- A call by the host assigns no global variables. -/
theorem call_rolledBack {s : Session} (hstep : s.InStep) (name : String) (args : List HostValue) :
    RolledBack s [] (s.call name args).2 := by
  refine (RolledBack.refl hstep).congr ?_ (by rw [call_checker])
  unfold call
  split
  · rfl
  · next f _ =>
    split
    · rfl
    · next vs _ =>
      have hglobals : (s.exec (s.machine.call s.turns f vs)).2.globals = s.globals :=
        exec_globals (Exec.apply_logs s.machine _ vs.length f vs)
      split
      all_goals
        next heq =>
          rw [heq] at hglobals
          exact hglobals

/-- If the checker knows the variables that there are and a request passes the check but its run
fails, then the checker knows the variables that there are then. Every name that the run assigned is
among them, and every other variable has the value and the type that it had. -/
theorem failed_run_rolledBack {s : Session} (hcheck : s.skipCheck = false) (hstep : s.InStep)
    {r : Request} (hok : s.refusal? r = none) {d : Diagnostic}
    (hfail : (s.perform r).1 = .error (.report d)) :
    RolledBack s ((s.assignments r).map (·.1)) (s.perform r).2 := by
  unfold perform at hfail ⊢
  cases r with
  | eval source =>
    rw [answer_error] at hfail
    rw [answer_session, evalForHost_session]
    exact eval_rolledBack hcheck hstep source hok (evalForHost_report hfail)
  | evalObject source =>
    rw [answer_error] at hfail
    rw [answer_session]
    exact eval_rolledBack hcheck hstep source hok hfail
  | evalProgram source file =>
    rw [answer_error] at hfail
    rw [answer_session, evalProgramForHost_session]
    exact evalProgram_rolledBack hcheck hstep source file hok (evalProgramForHost_report hfail)
  | evalProgramObject source file =>
    rw [answer_error] at hfail
    rw [answer_session]
    exact evalProgram_rolledBack hcheck hstep source file hok hfail
  | define f =>
    rw [answer_error] at hfail
    exact absurd hfail (define_ne_error hcheck hok _)
  | call name args =>
    rw [answer_session]
    exact call_rolledBack hstep name args
  | typeOf source | get name =>
    rw [answer_session]
    exact .refl hstep
  | bind name f =>
    rw [answer_error] at hfail
    unfold bind at hfail
    split at hfail <;> cases hfail
  | bindValue name x =>
    rw [answer_error] at hfail
    unfold bindValue bind at hfail
    split at hfail
    · dsimp only at hfail
      split at hfail <;> cases hfail
    · cases hfail
  | set name x =>
    rw [answer_error] at hfail
    unfold set at hfail
    split at hfail <;> cases hfail
  | setScoping name =>
    rw [answer_error] at hfail
    unfold setScoping at hfail
    split at hfail <;> cases hfail
  | setSkipCheck | setInput | setCancelled => cases hfail

/-- An entry that binds `x` and `y` when it is checked. Its run assigns `x` alone and then asks for
`y`. -/
def lopsided : Expr :=
  .seq [.ite (.bool false) (.assign "y" (.text "a")) (.assign "x" (.text "a")), .ref "y"]

/-- The request to evaluate this entry. -/
def askLopsided : Request := .evalObject "[seq, [if, false, [<-, y, a], [<-, x, a]], [ref, y]]"

set_option maxRecDepth 10000 in
theorem lopsided_rolledBack :
    ({} : Session).refusal? askLopsided = none ∧
      (∃ d, (({} : Session).perform askLopsided).1 = .error (.report d)) ∧
      RolledBack {} ["x"] (({} : Session).perform askLopsided).2 := by
  have hread : Reader.readEntry "[seq, [if, false, [<-, y, a], [<-, x, a]], [ref, y]]" =
      .ok (.expression lopsided) := by cbv
  have hok : ({} : Session).refusal? askLopsided = none := by
    refine (sourceProblem?_of_read hread).trans ?_
    decide
  have hnames : (({} : Session).assignments askLopsided).map (·.1) = ["x"] := by
    refine (congrArg _ (sourceWrites_of_read hread)).trans ?_
    decide
  have hrun : ∃ d, (({} : Session).take (.expression lopsided)).1 = .error (.report d) := ⟨_, rfl⟩
  obtain ⟨d, hd⟩ := hrun
  have hfail : (({} : Session).perform askLopsided).1 = .error (.report d) := by
    refine answer_error.mpr ?_
    rw [eval_of_read hread]
    exact hd
  refine ⟨hok, ⟨d, hfail⟩, ?_⟩
  rw [← hnames]
  exact failed_run_rolledBack rfl (fun _ => rfl) hok hfail

end TreeLang.Session
