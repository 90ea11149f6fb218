import TreeLang.Proofs.Typing.Frame
import TreeLang.Session

/-!
# Entries that are turned down

An entry is turned down if it cannot be read or does not check. There are three ways back to the
state before: what cannot be read is not looked at further, an expression or a program is undone
by restoring the scope, and a definition by setting or removing its function symbol. `Orderly` is
what this relies on, and all sessions that the host can bring about are orderly.

Main statement: `refused_unchanged`. An entry that is turned down leaves the session as it was, but
for the supply of type variables and the record of types.
-/

namespace TreeLang.Session

/-- The sessions that the host can bring about. It may change the channels at any time. -/
inductive Reachable : Session → Prop
  | start (turns : Nat) : Reachable { turns }
  | step {s : Session} (r : Request) (h : Reachable s) : Reachable (s.perform r).2
  | connect {s : Session} (channels : Channels) (h : Reachable s) : Reachable { s with channels }

/-- Between requests every function is known under its own name, and no file is named. -/
structure Orderly (s : Session) : Prop where
  named : s.checker.scope.Named
  file : s.checker.file = ""

theorem Orderly.of_checker {s s' : Session} (h : s.Orderly) (hchecker : s'.checker = s.checker) :
    s'.Orderly := by
  constructor
  · rw [hchecker]
    exact h.named
  · rw [hchecker]
    exact h.file

/-! ## One request -/

theorem exec_checker (s : Session) (x : Exec Value) : (s.exec x).2.checker = s.checker := by
  unfold exec
  dsimp only
  split <;> rfl

theorem restoreVariable_funcs (scope earlier : Scope) (name : String) :
    (scope.restoreVariable earlier name).funcs = scope.funcs := by
  unfold Scope.restoreVariable
  split
  · rfl
  · rfl

/-- Rolling back changes variables only. -/
theorem rollBack_funcs (earlier current : Scope) (before after : Table Value) :
    (rollBack earlier current before after).funcs = current.funcs := by
  unfold rollBack
  generalize current.vars.names = names
  induction names generalizing current with
  | nil => rfl
  | cons name names ih =>
    rw [List.foldl_cons, ih]
    split
    · exact restoreVariable_funcs current earlier name
    · rfl

theorem runChecked_kept (s : Session) (earlier : Scope) (x : Exec Value) :
    (s.runChecked earlier x).2.checker.file = s.checker.file ∧
      (s.runChecked earlier x).2.checker.scope.funcs = s.checker.scope.funcs := by
  have hexec := s.exec_checker x
  unfold runChecked
  split
  · next d s' heq =>
    rw [heq] at hexec
    constructor
    · show s'.checker.file = s.checker.file
      rw [hexec]
    · show (rollBack earlier s'.checker.scope s.globals s'.globals).funcs = s.checker.scope.funcs
      rw [rollBack_funcs, hexec]
  · rw [hexec]
    exact ⟨rfl, rfl⟩

/-- A session after a check and a run has the checker that the check left, up to variables. -/
theorem checkAndRun_kept {α : Type} {s : Session} (check : Checker → Except Halt α × Checker)
    (run : Session → Session × Exec Value) (hrun : ∀ s, (run s).1.checker = s.checker)
    {r : Except Halt α} {c : Checker} (hcheck : check s.checker = (r, c))
    (hs : s.checker.scope.Named) (hc : c.scope.Named) :
    (s.checkAndRun check run).2.checker.file = c.file ∧
      (s.checkAndRun check run).2.checker.scope.Named := by
  unfold checkAndRun
  rw [hcheck]
  cases r with
  | error halt => exact ⟨rfl, hs⟩
  | ok a =>
    dsimp only
    obtain ⟨hfile, hfuncs⟩ := (run { s with checker := c }).1.runChecked_kept s.checker.scope
      (run { s with checker := c }).2
    rw [hrun] at hfile hfuncs
    refine ⟨hfile, ?_⟩
    rwa [Scope.Named, hfuncs]

/-- A check that fails is undone. -/
theorem checkAndRun_refused {α : Type} {s : Session} (check : Checker → Except Halt α × Checker)
    (run : Session → Session × Exec Value) {halt : Halt} {c : Checker}
    (hkind : c.scope.kind = s.checker.scope.kind) (hcheck : check s.checker = (.error halt, c)) :
    s.checkAndRun check run =
      (.error (.ofHalt halt), { s with checker := { c with scope := s.checker.scope } }) := by
  unfold checkAndRun
  rw [hcheck]
  dsimp only
  rw [Scope.restore_eq hkind]

theorem define_orderly {s : Session} (h : s.Orderly) (d : FunctionDef) :
    (s.define d).2.Orderly := by
  unfold define
  split
  · exact h.of_checker rfl
  · rcases hdefine : s.checker.define d with ⟨halt | _, c⟩
    · -- The symbol before the definition is back in its place.
      rcases Checker.define_cases h.named hdefine with ⟨-, hc⟩ | ⟨hok, -⟩
      · exact ⟨fun n f hf => h.named n f (hc.scope ▸ hf), hc.file.trans h.file⟩
      · cases hok
    · rcases Checker.define_cases h.named hdefine with ⟨⟨_, hfail⟩, -⟩ | ⟨-, hnamed, hfile⟩
      · cases hfail
      · exact ⟨hnamed, hfile.trans h.file⟩

theorem evalExpr_orderly {s : Session} (h : s.Orderly) (e : Expr) : (s.evalExpr e).2.Orderly := by
  unfold evalExpr
  split
  · exact h.of_checker (s.exec_checker _)
  · rcases hcheck : s.checker.checkExpr 0 e with ⟨r, c⟩
    obtain ⟨hext, hfile⟩ := Checker.checkExpr_extends hcheck
    obtain ⟨hfile', hnamed⟩ := checkAndRun_kept (·.checkExpr 0 e)
      (fun s => (s, s.machine.evalExpr s.turns e)) (fun _ => rfl) hcheck h.named
      (h.named.extends hext)
    exact ⟨hnamed, (hfile'.trans hfile).trans h.file⟩

theorem take_orderly {s : Session} (h : s.Orderly) (entry : Reader.Entry) :
    (s.take entry).2.Orderly := by
  cases entry with
  | definition d =>
    have hdefine := define_orderly h d
    rw [take]
    split
    all_goals
      next heq =>
        rw [heq] at hdefine
        exact hdefine
  | expression e =>
    have hexpr := evalExpr_orderly h e
    rw [take]
    split
    all_goals
      next heq =>
        rw [heq] at hexpr
        exact hexpr

theorem eval_orderly {s : Session} (h : s.Orderly) (source : String) :
    (s.eval source).2.Orderly := by
  unfold eval
  split
  · exact h
  · exact take_orderly h _

theorem takeProgram_orderly {s : Session} (h : s.Orderly) (p : Program) :
    (s.takeProgram p).2.Orderly := by
  unfold takeProgram
  split
  · exact h.of_checker (exec_checker _ _)
  · rcases hcheck : s.checker.checkProgram p with ⟨r, c⟩
    have hnamed := (Checker.checkProgram_kept hcheck).2 h.named
    have hkept := checkAndRun_kept (·.checkProgram p) (·.enter p) (fun _ => rfl) hcheck h.named
      hnamed
    exact ⟨hkept.2, rfl⟩

theorem evalProgram_orderly {s : Session} (h : s.Orderly) (source file : String) :
    (s.evalProgram source file).2.Orderly := by
  unfold evalProgram
  split
  · exact h
  · exact takeProgram_orderly h _

theorem evalForHost_session (s : Session) (source : String) :
    (s.evalForHost source).2 = (s.eval source).2 := by
  unfold evalForHost
  split
  all_goals
    next heq => rw [heq]

theorem evalProgramForHost_session (s : Session) (source file : String) :
    (s.evalProgramForHost source file).2 = (s.evalProgram source file).2 := by
  unfold evalProgramForHost
  split
  all_goals
    next heq => rw [heq]

theorem call_checker (s : Session) (name : String) (args : List HostValue) :
    (s.call name args).2.checker = s.checker := by
  unfold call
  split
  · rfl
  · next f _ =>
    split
    · rfl
    · next vs _ =>
      have hexec := s.exec_checker (s.machine.call s.turns f vs)
      split
      all_goals
        next heq =>
          rw [heq] at hexec
          exact hexec

theorem bind_orderly {s : Session} (h : s.Orderly) (name : String) (f : HostFunction) :
    (s.bind name f).2.Orderly := by
  unfold bind
  split
  · exact h
  · exact ⟨h.named.setFunction _, h.file⟩

theorem set_orderly {s : Session} (h : s.Orderly) (name : String) (x : HostValue) :
    (s.set name x).2.Orderly := by
  unfold set
  split
  · exact h
  · exact ⟨h.named.extends (.define _ name _), h.file⟩

@[simp] theorem answer_session {α : Type} (r : Step α) (f : α → Answer) :
    (r.answer f).2 = r.2 := rfl

/-- Every request leaves an orderly session behind. -/
theorem perform_orderly {s : Session} (h : s.Orderly) (r : Request) : (s.perform r).2.Orderly := by
  unfold perform
  cases r with
  | eval source =>
    rw [answer_session, evalForHost_session]
    exact eval_orderly h source
  | evalObject source =>
    rw [answer_session]
    exact eval_orderly h source
  | evalProgram source file =>
    rw [answer_session, evalProgramForHost_session]
    exact evalProgram_orderly h source file
  | evalProgramObject source file =>
    rw [answer_session]
    exact evalProgram_orderly h source file
  | define d =>
    rw [answer_session]
    exact define_orderly h d
  | bind name f =>
    rw [answer_session]
    exact bind_orderly h name f
  | bindValue name x =>
    rw [answer_session]
    unfold bindValue
    split
    · exact bind_orderly h name _
    · exact h
  | set name x =>
    rw [answer_session]
    exact set_orderly h name x
  | call name args =>
    rw [answer_session]
    exact h.of_checker (s.call_checker name args)
  | setScoping name =>
    rw [answer_session]
    unfold setScoping
    split
    · exact h.of_checker rfl
    · exact h
  | typeOf source =>
    rw [answer_session]
    exact h
  | get name =>
    rw [answer_session]
    exact h
  | setSkipCheck | setInput | setCancelled => exact h.of_checker rfl

theorem Reachable.orderly {s : Session} (h : Reachable s) : s.Orderly := by
  induction h with
  | start turns => exact ⟨fun _ _ hf => (nomatch hf), rfl⟩
  | step r _ ih => exact perform_orderly ih r
  | connect channels _ ih => exact ih.of_checker rfl

/-! ## Refusals -/

/-- The problem of a verdict, if there is one. -/
def problem? {α : Type} : Except Halt α → Option Problem
  | .ok _ => none
  | .error h => some (.ofHalt h)

/-- The problem for which an entry does not check. -/
def entryProblem? (s : Session) : Reader.Entry → Option Problem
  | .definition d => problem? (s.checker.define d).1
  | .expression e => problem? (s.checker.checkExpr 0 e).1

/-- The problem for which the entry in a text is turned down: it cannot be read, or does not
check. -/
def sourceProblem? (s : Session) (source : String) : Option Problem :=
  match Reader.readEntry source with
  | .error f => some (.report (f.diagnostic entryFile))
  | .ok entry => s.entryProblem? entry

/-- The problem for which the program in a text is turned down. -/
def programProblem? (s : Session) (source file : String) : Option Problem :=
  match Reader.readProgram source file with
  | .error f => some (.report (f.diagnostic file))
  | .ok p => problem? (s.checker.checkProgram p).1

/-- The problem for which a request is turned down before anything runs. -/
def refusal? (s : Session) : Request → Option Problem
  | .eval source | .evalObject source => s.sourceProblem? source
  | .evalProgram source file | .evalProgramObject source file => s.programProblem? source file
  | .define d => problem? (s.checker.define d).1
  | _ => none

/-- The answer is the problem, and the session is as it was up to the supply and the record of its
checker. -/
def TurnsDown {α : Type} (s : Session) (p : Problem) (r : Step α) : Prop :=
  ∃ c, s.checker.Renewed c ∧ r = (.error p, { s with checker := c })

theorem turnsDown_refl {α : Type} (s : Session) (p : Problem) :
    s.TurnsDown p ((.error p, s) : Step α) := ⟨s.checker, ⟨rfl, rfl⟩, rfl⟩

theorem TurnsDown.answer {α : Type} {s : Session} {p : Problem} {r : Step α} (h : s.TurnsDown p r)
    (f : α → Answer) : s.TurnsDown p (r.answer f) := by
  obtain ⟨c, hc, rfl⟩ := h
  exact ⟨c, hc, rfl⟩

theorem define_refused {s : Session} (hs : s.Orderly) (hcheck : s.skipCheck = false)
    {d : FunctionDef} {p : Problem} (h : problem? (s.checker.define d).1 = some p) :
    s.TurnsDown p (s.define d) := by
  unfold define
  rw [if_neg (by simp [hcheck])]
  rcases hdefine : s.checker.define d with ⟨halt | _, c⟩
  · rw [hdefine] at h
    cases h
    rcases Checker.define_cases hs.named hdefine with ⟨-, hc⟩ | ⟨hok, -⟩
    · exact ⟨c, hc, rfl⟩
    · cases hok
  · rw [hdefine] at h
    cases h

theorem evalExpr_refused {s : Session} (hcheck : s.skipCheck = false) {e : Expr} {p : Problem}
    (h : problem? (s.checker.checkExpr 0 e).1 = some p) : s.TurnsDown p (s.evalExpr e) := by
  unfold evalExpr
  rw [if_neg (by simp [hcheck])]
  rcases hverdict : s.checker.checkExpr 0 e with ⟨halt | t, c⟩
  · rw [hverdict] at h
    cases h
    obtain ⟨hext, hfile⟩ := Checker.checkExpr_extends hverdict
    rw [checkAndRun_refused (·.checkExpr 0 e) _ hext.kind hverdict]
    exact ⟨{ c with scope := s.checker.scope }, ⟨rfl, hfile⟩, rfl⟩
  · rw [hverdict] at h
    cases h

theorem take_refused {s : Session} (hs : s.Orderly) (hcheck : s.skipCheck = false)
    {entry : Reader.Entry} {p : Problem} (h : s.entryProblem? entry = some p) :
    s.TurnsDown p (s.take entry) := by
  cases entry with
  | definition d =>
    obtain ⟨c, hc, hdefine⟩ := define_refused hs hcheck h
    rw [take, hdefine]
    exact ⟨c, hc, rfl⟩
  | expression e =>
    obtain ⟨c, hc, hexpr⟩ := evalExpr_refused hcheck h
    rw [take, hexpr]
    exact ⟨c, hc, rfl⟩

theorem takeProgram_refused {s : Session} (hs : s.Orderly) (hcheck : s.skipCheck = false)
    {program : Program} {p : Problem} (h : problem? (s.checker.checkProgram program).1 = some p) :
    s.TurnsDown p (s.takeProgram program) := by
  unfold takeProgram
  rw [if_neg (by simp [hcheck])]
  rcases hverdict : s.checker.checkProgram program with ⟨halt | t, c⟩
  · rw [hverdict] at h
    cases h
    -- The scope is restored, and the file is named only while the program is looked at.
    have hkind := (Checker.checkProgram_kept hverdict).1
    rw [checkAndRun_refused (·.checkProgram program) _ hkind hverdict]
    exact ⟨{ c with scope := s.checker.scope, file := "" }, ⟨rfl, hs.file.symm⟩, rfl⟩
  · rw [hverdict] at h
    cases h

theorem eval_refused {s : Session} (hs : s.Orderly) (hcheck : s.skipCheck = false)
    (source : String) {p : Problem} (h : s.sourceProblem? source = some p) :
    s.TurnsDown p (s.eval source) := by
  unfold sourceProblem? at h
  unfold eval
  generalize Reader.readEntry source = reading at h ⊢
  cases reading with
  | error f =>
    cases h
    exact s.turnsDown_refl _
  | ok entry => exact take_refused hs hcheck h

theorem evalProgram_refused {s : Session} (hs : s.Orderly) (hcheck : s.skipCheck = false)
    (source file : String) {p : Problem} (h : s.programProblem? source file = some p) :
    s.TurnsDown p (s.evalProgram source file) := by
  unfold programProblem? at h
  unfold evalProgram
  generalize Reader.readProgram source file = reading at h ⊢
  cases reading with
  | error f =>
    cases h
    exact s.turnsDown_refl _
  | ok program => exact takeProgram_refused hs hcheck h

/-- An entry that cannot be read or does not check is answered with its problem, and all else stays
as it was: variables, functions, bindings, what was printed and what is left to read. -/
theorem refused_unchanged {s : Session} (hs : Reachable s) (hcheck : s.skipCheck = false)
    {r : Request} {p : Problem} (h : s.refusal? r = some p) : s.TurnsDown p (s.perform r) := by
  have horderly := hs.orderly
  unfold perform
  cases r with
  | eval source =>
    have hhost : s.TurnsDown p (s.evalForHost source) := by
      obtain ⟨c, hc, heval⟩ := eval_refused horderly hcheck source h
      unfold evalForHost
      rw [heval]
      exact ⟨c, hc, rfl⟩
    exact hhost.answer _
  | evalObject source => exact (eval_refused horderly hcheck source h).answer _
  | evalProgram source file =>
    have hhost : s.TurnsDown p (s.evalProgramForHost source file) := by
      obtain ⟨c, hc, heval⟩ := evalProgram_refused horderly hcheck source file h
      unfold evalProgramForHost
      rw [heval]
      exact ⟨c, hc, rfl⟩
    exact hhost.answer _
  | evalProgramObject source file =>
    exact (evalProgram_refused horderly hcheck source file h).answer _
  | define d => exact (define_refused horderly hcheck h).answer _
  | _ => cases h

/-- A function that gives back its argument. -/
def echo : FunctionDef :=
  { name := "f", params := [⟨"x", .number⟩], result := .number, body := .ref "x" }

/-- The same function with a body of another type. -/
def muddled : FunctionDef := { echo with body := .text "x" }

theorem echo_stays :
    ∃ p, (({} : Session).perform (.define echo)).2.refusal? (.define muddled) = some p ∧
      (({} : Session).perform (.define echo)).2.TurnsDown p
        ((({} : Session).perform (.define echo)).2.perform (.define muddled)) := by
  have hrefused :
      ((({} : Session).perform (.define echo)).2.refusal? (.define muddled)).isSome = true := by
    decide
  obtain ⟨p, hp⟩ := Option.isSome_iff_exists.mp hrefused
  exact ⟨p, hp, refused_unchanged (.step _ (.start loopTurns)) rfl hp⟩

end TreeLang.Session
