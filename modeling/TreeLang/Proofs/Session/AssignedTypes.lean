import TreeLang.Proofs.Eval.Places
import TreeLang.Proofs.Session.RollBack

/-!
# The types that failed runs leave

The check of an entry binds a name to the type of the last assignment in the text, and a run that
fails may stop between two assignments to one name. Rolling back looks at the names alone: it keeps
the type of the check for each name that was assigned, whichever of the assignments ran, or takes
the earlier one if the variable holds the object that it held before (`overtaken_mistyped`). Main
statement: `assignedType_iff`, which says when the type is that of the assignment that ran last.
-/

namespace TreeLang.Session

/-- The assignments that evaluating an expression makes in a session, with their paths. -/
def exprPlaces (s : Session) (e : Expr) : List (Path × String × Value) :=
  Exec.places s.machine s.turns s.machine.depth [0] e s.start

/-- The assignment to a name that ran last. -/
def lastPlace (s : Session) (e : Expr) (name : String) : Option Path :=
  ((s.exprPlaces e).reverse.find? (·.2.1 = name)).map (·.1)

/-! ## Places of a checked expression -/

/-- The assignment to an assigned name that ran last is one that the text makes. -/
theorem exists_lastPlace {s : Session} {e : Expr} {name : String}
    (h : name ∈ (s.exprWrites e).map (·.1)) :
    ∃ path, s.lastPlace e name = some path ∧ (path, name) ∈ e.sites [0] := by
  obtain ⟨hwrites, hsites⟩ :=
    Exec.places_placed s.machine s.turns s.machine.depth [0] e s.start
  rw [exprWrites, ← hwrites, List.map_map] at h
  obtain ⟨w, hw, rfl, hlast⟩ := exists_last (fun w : Path × String × Value => w.2.1) h
  refine ⟨w.1, ?_, hsites w hw⟩
  rw [lastPlace, exprPlaces, hlast]
  rfl

/-! ## Runs that fail -/

theorem runChecked_record (s : Session) (earlier : Scope) (x : Exec Value) :
    (s.runChecked earlier x).2.checker.record = s.checker.record := by
  have hchecker := s.exec_checker x
  unfold runChecked
  split
  · next s' heq =>
    rw [heq] at hchecker
    show s'.checker.record = s.checker.record
    exact congrArg Checker.record hchecker
  · exact congrArg Checker.record hchecker

/-- The type that an assigned name is left with: its earlier one if the variable holds the object
that it held before, else the one recorded for the last assignment in the text. -/
theorem evalExpr_assigned {s : Session} {e : Expr} {t : Ty} {c : Checker} {d : Diagnostic}
    (hcheck : s.skipCheck = false) (hok : s.checker.checkExpr 0 e = (.ok t, c))
    (hfail : (s.evalExpr e).1 = .error (.report d)) {path : Path} {name : String}
    (hsite : (path, name) ∈ e.sites [0]) :
    (s.evalExpr e).2.checker.record = c.record ∧
      (s.evalExpr e).2.checker.scope.vars.get? name =
        if untouched s.globals (s.evalExpr e).2.globals name then s.checker.scope.vars.get? name
        else (e.lastSite [0] name).bind (typeAt c.record) := by
  rw [evalExpr, if_neg (by simp [hcheck]), checkAndRun_ok (·.checkExpr 0 e) _ hok] at hfail ⊢
  obtain ⟨hglobals, hscope⟩ := runChecked_failed hfail
  obtain ⟨last, hlast, hmem⟩ := Expr.exists_lastSite hsite
  obtain ⟨u, hu⟩ := Checker.checkExpr_recorded hok hmem
  -- The check has bound the name, so rolling back looks at it.
  have hchecked : c.scope.vars.get? name = some u := by
    rw [Checker.checkExpr_vars hok, hlast, Option.bind_some, hu]
    rfl
  have hbound : c.scope.vars.contains name = true := by
    rw [Table.contains, hchecked]
    rfl
  refine ⟨runChecked_record _ _ _, ?_⟩
  rw [hscope, get?_rollBack, hglobals]
  simp only [hbound, true_and]
  rw [hchecked, hlast, Option.bind_some, hu]

/-! ## Requests -/

/-- The text of a request to evaluate an entry. -/
def Request.entry? : Request → Option String
  | .eval source | .evalObject source => some source
  | _ => none

theorem take_expression (s : Session) (e : Expr) :
    s.take (.expression e) = ((s.evalExpr e).1.map some, (s.evalExpr e).2) := by
  rw [take]
  split
  · next heq => rw [heq]; rfl
  · next heq => rw [heq]; rfl

/-- A request to evaluate an expression does so, and fails with its reports. -/
theorem perform_expression {s : Session} {r : Request} {source : String} {e : Expr}
    (hr : r.entry? = some source) (hread : Reader.readEntry source = .ok (.expression e)) :
    s.refusal? r = problem? (s.checker.checkExpr 0 e).1 ∧ s.assignments r = s.exprWrites e ∧
      (s.perform r).2 = (s.evalExpr e).2 ∧
      ∀ d, (s.perform r).1 = .error (.report d) → (s.evalExpr e).1 = .error (.report d) := by
  have hsession : (s.eval source).2 = (s.evalExpr e).2 := by
    rw [eval_of_read hread, take_expression]
  have hreport : ∀ d, (s.eval source).1 = .error (.report d) →
      (s.evalExpr e).1 = .error (.report d) := by
    intro d h
    rw [eval_of_read hread, take_expression] at h
    cases hresult : (s.evalExpr e).1 with
    | ok v =>
      rw [hresult] at h
      cases h
    | error p =>
      rw [hresult] at h
      cases h
      rfl
  have hrefusal : s.sourceProblem? source = problem? (s.checker.checkExpr 0 e).1 := by
    rw [sourceProblem?_of_read hread]
    rfl
  have hwrites := sourceWrites_of_read (s := s) hread
  cases r with
  | eval source' =>
    cases hr
    refine ⟨hrefusal, hwrites, ?_, fun d h => ?_⟩
    · rw [perform, answer_session, evalForHost_session, hsession]
    · exact hreport d (evalForHost_report (answer_error.mp h))
  | evalObject source' =>
    cases hr
    refine ⟨hrefusal, hwrites, ?_, fun d h => ?_⟩
    · rw [perform, answer_session, hsession]
    · exact hreport d (answer_error.mp h)
  | _ => cases hr

/-- If an entry passes the check but its run fails, then a type is recorded for the assignment that
ran last to any name that was assigned. The name has this type exactly if the last assignment in the
text has it too, or, where the variable holds the object that it held before, if it had the type
before. -/
theorem assignedType_iff {s : Session} (hcheck : s.skipCheck = false) {r : Request}
    {source : String} (hr : r.entry? = some source) {e : Expr}
    (hread : Reader.readEntry source = .ok (.expression e)) (hok : s.refusal? r = none)
    {d : Diagnostic} (hfail : (s.perform r).1 = .error (.report d)) {name : String}
    (hname : name ∈ (s.assignments r).map (·.1)) :
    ∃ path ran, s.lastPlace e name = some path ∧
      typeAt (s.perform r).2.checker.record path = some ran ∧
      ((s.perform r).2.checker.scope.vars.get? name = some ran ↔
        if untouched s.globals (s.perform r).2.globals name then
          s.checker.scope.vars.get? name = some ran
        else ∃ last ∈ e.lastSite [0] name,
          typeAt (s.perform r).2.checker.record last = some ran) := by
  obtain ⟨hrefusal, hwrites, hsession, hreport⟩ := perform_expression (s := s) hr hread
  rw [hrefusal] at hok
  rw [hwrites] at hname
  obtain ⟨t, ht⟩ := ok_of_problem? hok
  rcases hverdict : s.checker.checkExpr 0 e with ⟨result, c⟩
  rw [hverdict] at ht
  subst ht
  obtain ⟨path, hpath, hsite⟩ := exists_lastPlace hname
  obtain ⟨ran, hran⟩ := Checker.checkExpr_recorded hverdict hsite
  obtain ⟨hrecord, hvars⟩ := evalExpr_assigned hcheck hverdict (hreport d hfail) hsite
  rw [hsession, hrecord, hvars]
  refine ⟨path, ran, hpath, hran, ?_⟩
  split
  · exact Iff.rfl
  · exact Option.bind_eq_some_iff

/-! ## An assignment that did not run -/

/-- An entry that assigns `x` twice, at different types, and fails in between. -/
def overtaken : Expr :=
  .seq [.assign "x" (.bool true), .call "len" [.bool true], .assign "x" (.text "a")]

/-- The request to evaluate this entry. -/
def askOvertaken : Request :=
  .evalObject "[seq, [<-, x, true], [call, len, true], [<-, x, a]]"

set_option maxRecDepth 10000 in
theorem read_overtaken :
    Reader.readEntry "[seq, [<-, x, true], [call, len, true], [<-, x, a]]" =
      .ok (.expression overtaken) := by cbv

theorem askOvertaken_checked : ({} : Session).refusal? askOvertaken = none := by
  rw [(perform_expression rfl read_overtaken).1]
  decide

theorem askOvertaken_assigns :
    (({} : Session).assignments askOvertaken).map (·.1) = ["x"] := by
  rw [(perform_expression rfl read_overtaken).2.1]
  decide

theorem askOvertaken_fails :
    ∃ d, (({} : Session).perform askOvertaken).1 = .error (.report d) := by
  have hrun : ∃ d, (({} : Session).take (.expression overtaken)).1 = .error (.report d) := ⟨_, rfl⟩
  obtain ⟨d, hd⟩ := hrun
  refine ⟨d, answer_error.mpr ?_⟩
  rw [eval_of_read read_overtaken]
  exact hd

theorem overtaken_assignedType :
    ({} : Session).refusal? askOvertaken = none ∧
      (∃ d, (({} : Session).perform askOvertaken).1 = .error (.report d)) ∧
      "x" ∈ (({} : Session).assignments askOvertaken).map (·.1) ∧
      ∃ path ran, ({} : Session).lastPlace overtaken "x" = some path ∧
        typeAt (({} : Session).perform askOvertaken).2.checker.record path = some ran ∧
        ((({} : Session).perform askOvertaken).2.checker.scope.vars.get? "x" = some ran ↔
          if untouched ∅ (({} : Session).perform askOvertaken).2.globals "x" then
            ({} : Session).checker.scope.vars.get? "x" = some ran
          else ∃ last ∈ overtaken.lastSite [0] "x",
            typeAt (({} : Session).perform askOvertaken).2.checker.record last = some ran) := by
  obtain ⟨d, hd⟩ := askOvertaken_fails
  have hx : "x" ∈ (({} : Session).assignments askOvertaken).map (·.1) := by
    rw [askOvertaken_assigns]
    exact List.mem_singleton_self "x"
  refine ⟨askOvertaken_checked, ⟨d, hd⟩, hx, ?_⟩
  exact assignedType_iff rfl rfl read_overtaken askOvertaken_checked hd hx

/-- The run assigns a truth value to `x` and then fails. After it the checker has `x` as a text, by
the assignment that did not run. -/
theorem overtaken_mistyped :
    ({} : Session).refusal? askOvertaken = none ∧
      (∃ d, (({} : Session).perform askOvertaken).1 = .error (.report d)) ∧
      ({} : Session).lastPlace overtaken "x" = some [0, 0] ∧
      typeAt (({} : Session).perform askOvertaken).2.checker.record [0, 0] = some .boolean ∧
      (({} : Session).perform askOvertaken).2.checker.scope.vars.get? "x" = some .text := by
  refine ⟨askOvertaken_checked, askOvertaken_fails, ?_, ?_, ?_⟩
  · decide
  · rw [(perform_expression rfl read_overtaken).2.2.1]
    rfl
  · have hok : ({} : Session).checker.checkExpr 0 overtaken =
        (.ok .text, (({} : Session).checker.checkExpr 0 overtaken).2) := rfl
    have hsite : ([0, 0], "x") ∈ overtaken.sites [0] := by decide
    obtain ⟨d, hd⟩ := askOvertaken_fails
    have hfail := (perform_expression rfl read_overtaken).2.2.2 d hd
    rw [(perform_expression rfl read_overtaken).2.2.1, (evalExpr_assigned rfl hok hfail hsite).2]
    rfl

end TreeLang.Session
