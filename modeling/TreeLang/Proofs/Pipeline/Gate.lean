import TreeLang.Service
import TreeLang.Proofs.Eval.Reports
import TreeLang.Proofs.Typing.Frame

/-!
# The checker as a gate

Checking decides whether a program runs, and nothing else: a program that is turned down has printed
and read nothing, and one that is let through runs as if it had not been checked. A task stops at
one report, so it has a result just when it has no report, unless it does not end. A service that is
asked to check answers what it would answer to the same request to run, as far as checking goes.
Main statements: `Task.runWith_cases` and `Task.evaluate_cases`, which say all that can come of a
task, and `check_gates`, which follows from them.
-/

namespace TreeLang

namespace Task

variable {t : Task}

/-- The checks and the run of a task, as far as they take place, come to an end. -/
structure Returns (t : Task) : Prop where
  check : ∀ p, t.read = .ok p → t.settings.skipCheck = false → t.check p ≠ .error .endless
  run : ∀ p, t.read = .ok p → t.settings.skipCheck = true ∨ (∃ type, t.check p = .ok type) →
    (t.machine.runProgram t.turns p { channels := t.channels }).1 ≠ .unfinished

/-- The task without checking. -/
def unchecked (t : Task) : Task := { t with settings := { t.settings with skipCheck := true } }

/-! ## What can come of a task -/

/-- A report that was made before the program ran. -/
structure Stops (t : Task) (r : Report) : Prop where
  type : r.type = none
  result : r.result = none
  channels : r.channels = t.channels
  errors : (∃ d, r.errors = [d] ∧ (d.phase = .parse ∨ d.phase = .check)) ∨
    r.errors = [] ∧ ∃ p, t.read = .ok p ∧ t.settings.skipCheck = false ∧
      t.check p = .error .endless

/-- The program is let through, with its type if it was checked. -/
def Passes (t : Task) (p : Program) (type : Option Ty) : Prop :=
  t.read = .ok p ∧
    (t.settings.skipCheck = true ∧ type = none ∨
      t.settings.skipCheck = false ∧ ∃ ty, t.check p = .ok ty ∧ type = some ty)

theorem read_reports {d : Diagnostic} (h : t.read = .error d) : d.phase = .parse := by
  unfold read at h
  split at h
  · cases h
    rfl
  · cases h
  · next text _ =>
    cases hread : Reader.readProgram text t.file with
    | ok p =>
      rw [hread] at h
      cases h
    | error f =>
      rw [hread] at h
      cases h
      rfl

theorem check_reports {p : Program} {d : Diagnostic} (h : t.check p = .error (.fault d)) :
    d.phase = .check :=
  Checker.checkProgram_reports (Prod.ext h rfl)

/-- A task stops with a report, whatever it was to finish with, or it finishes. -/
theorem runWith_cases (t : Task) :
    (∃ r, t.Stops r ∧ ∀ finish, t.runWith finish = r) ∨
      ∃ p type, t.Passes p type ∧ ∀ finish, t.runWith finish = finish p type := by
  cases hread : t.read with
  | error d =>
    refine .inl ⟨{ channels := t.channels, errors := [d] },
      ⟨rfl, rfl, rfl, .inl ⟨d, rfl, .inl (read_reports hread)⟩⟩, ?_⟩
    intro finish
    simp only [runWith, hread]
  | ok p =>
    cases hskip : t.settings.skipCheck with
    | true =>
      refine .inr ⟨p, none, ⟨hread, .inl ⟨hskip, rfl⟩⟩, ?_⟩
      intro finish
      simp [runWith, hread, hskip]
    | false =>
      cases hcheck : t.check p with
      | ok ty =>
        refine .inr ⟨p, some ty, ⟨hread, .inr ⟨hskip, ty, hcheck, rfl⟩⟩, ?_⟩
        intro finish
        simp [runWith, hread, hskip, hcheck]
      | error halt =>
        cases halt with
        | fault d =>
          have hphase : (d.withFile t.file).phase = .check :=
            (d.phase_withFile t.file).trans (check_reports hcheck)
          refine .inl ⟨{ program := some p, channels := t.channels, errors := [d.withFile t.file] },
            ⟨rfl, rfl, rfl, .inl ⟨_, rfl, .inr hphase⟩⟩, ?_⟩
          intro finish
          simp [runWith, hread, hskip, hcheck]
        | endless =>
          refine .inl ⟨{ program := some p, channels := t.channels },
            ⟨rfl, rfl, rfl, .inr ⟨rfl, p, hread, hskip, hcheck⟩⟩, ?_⟩
          intro finish
          simp [runWith, hread, hskip, hcheck]

/-- A run gives a result, or stops at a problem of the run time, or does not end. -/
theorem evaluate_cases (t : Task) (p : Program) (type : Option Ty) :
    (∃ v channels, t.evaluate p type =
        { program := some p, type, result := some v, channels }) ∨
      (∃ d channels, d.phase = .runtime ∧ t.evaluate p type =
        { program := some p, type, channels, errors := [d] }) ∨
      ∃ channels, t.evaluate p type = { program := some p, type, channels } ∧
        (t.machine.runProgram t.turns p { channels := t.channels }).1 = .unfinished := by
  have hreports : Exec.Reports (t.machine.runProgram t.turns p) := runProgram_reports rfl _ p
  unfold evaluate
  rcases hreports.outcome (s := { channels := t.channels }) trivial with
    ⟨v, s, hrun, -⟩ | ⟨d, s, hrun, hphase⟩ | ⟨s, hrun, -⟩
  · rw [hrun]
    exact .inl ⟨v, s.channels, rfl⟩
  · rw [hrun]
    refine .inr (.inl ⟨d.withFile t.file, s.channels, ?_, rfl⟩)
    exact (d.phase_withFile t.file).trans hphase
  · rw [hrun]
    exact .inr (.inr ⟨s.channels, rfl, rfl⟩)

/-- A run does not depend on the type. -/
theorem evaluate_type (t : Task) (p : Program) (type type' : Option Ty) :
    t.evaluate p type = { t.evaluate p type' with type } := by
  unfold evaluate
  rcases t.machine.runProgram t.turns p { channels := t.channels } with ⟨_ | _ | _ | _, s⟩ <;> rfl

/-! ## Whole tasks -/

theorem run_errors_le_one (t : Task) : t.run.errors.length ≤ 1 := by
  unfold run
  rcases t.runWith_cases with ⟨r, hstops, hrun⟩ | ⟨p, type, -, hrun⟩
  · rw [hrun]
    rcases hstops.errors with ⟨d, herrors, -⟩ | ⟨herrors, -⟩ <;> simp [herrors]
  · rw [hrun]
    rcases t.evaluate_cases p type with ⟨v, c, h⟩ | ⟨d, c, -, h⟩ | ⟨c, h, -⟩ <;> simp [h]

theorem run_result_iff (hreturns : t.Returns) :
    t.run.result.isSome = true ↔ t.run.errors = [] := by
  unfold run
  rcases t.runWith_cases with ⟨r, hstops, hrun⟩ | ⟨p, type, ⟨hread, hpass⟩, hrun⟩
  · rw [hrun, hstops.result]
    rcases hstops.errors with ⟨d, herrors, -⟩ | ⟨-, p, hread, hskip, hcheck⟩
    · simp [herrors]
    · exact absurd hcheck (hreturns.check p hread hskip)
  · rw [hrun]
    rcases t.evaluate_cases p type with ⟨v, c, h⟩ | ⟨d, c, -, h⟩ | ⟨c, -, hendless⟩
    · simp [h]
    · simp [h]
    · refine absurd hendless (hreturns.run p hread ?_)
      rcases hpass with ⟨hskip, -⟩ | ⟨-, ty, hcheck, -⟩
      · exact .inl hskip
      · exact .inr ⟨ty, hcheck⟩

theorem run_channels {d : Diagnostic} (hd : d ∈ t.run.errors)
    (hphase : d.phase = .parse ∨ d.phase = .check) : t.run.channels = t.channels := by
  unfold run at hd ⊢
  rcases t.runWith_cases with ⟨r, hstops, hrun⟩ | ⟨p, type, -, hrun⟩
  · rw [hrun]
    exact hstops.channels
  · rw [hrun] at hd ⊢
    -- What stops a run is no problem of reading or checking.
    rcases t.evaluate_cases p type with ⟨v, c, h⟩ | ⟨d', c, hruntime, h⟩ | ⟨c, h, -⟩
    · simp [h] at hd
    · rw [h, List.mem_singleton] at hd
      rw [hd, hruntime] at hphase
      rcases hphase with hphase | hphase <;> cases hphase
    · simp [h] at hd

/-- A program that is let through runs as if it had not been checked. -/
theorem run_unchecked {p : Program} {type : Ty} (hread : t.read = .ok p)
    (hcheck : t.check p = .ok type) :
    ∃ type', t.run = { t.unchecked.run with type := type' } := by
  have hfree : t.unchecked.run = t.evaluate p none := by
    have hread' : t.unchecked.read = .ok p := hread
    simp only [run, runWith, hread']
    rfl
  have hrun : ∃ type', t.run = t.evaluate p type' := by
    cases hskip : t.settings.skipCheck with
    | true => exact ⟨none, by simp [run, runWith, hread, hskip]⟩
    | false => exact ⟨some type, by simp [run, runWith, hread, hskip, hcheck]⟩
  rcases hrun with ⟨type', hrun⟩
  refine ⟨type', ?_⟩
  rw [hrun, hfree]
  exact t.evaluate_type p type' none

end Task

/-! ## Requests -/

namespace Service

/-- The report is one of reading or of checking. -/
def beforeRun (d : Diagnostic) : Bool := d.phase = .parse || d.phase = .check

/-- The first answer is the second one as far as checking goes, or both are refused alike. -/
def ChecksAlike : Except Refusal Response → Except Refusal Response → Prop
  | .ok checked, .ok full =>
    checked.type = full.type ∧ checked.diagnostics = full.diagnostics.filter beforeRun ∧
      checked.output = "" ∧ checked.result = ""
  | .error e, .error e' => e = e'
  | _, _ => False

theorem respond_checksAlike (t : Task) (hout : t.channels.out = "") :
    ChecksAlike (.ok (respond t.checkOnly)) (.ok (respond t.run)) := by
  unfold Task.checkOnly Task.run
  rcases t.runWith_cases with ⟨r, hstops, hrun⟩ | ⟨p, type, -, hrun⟩
  · rw [hrun, hrun]
    refine ⟨rfl, ?_, ?_, ?_⟩
    · rcases hstops.errors with ⟨d, herrors, hphase | hphase⟩ | ⟨herrors, -⟩
      · simp [respond, herrors, beforeRun, hphase]
      · simp [respond, herrors, beforeRun, hphase]
      · simp [respond, herrors]
    · simp [respond, hstops.channels, hout]
    · simp [respond, hstops.result]
  · rw [hrun, hrun]
    have hruntime : (t.evaluate p type).errors.filter beforeRun = [] := by
      rcases t.evaluate_cases p type with ⟨v, c, h⟩ | ⟨d, c, hphase, h⟩ | ⟨c, h, -⟩
      · simp [h]
      · simp [h, beforeRun, hphase]
      · simp [h]
    have htype : (t.evaluate p type).type = type := by
      rw [t.evaluate_type p type none]
    refine ⟨?_, hruntime.symm, hout, rfl⟩
    rw [respond, respond, htype]

theorem execute_checksAlike (base : Settings) (r : Request) :
    ChecksAlike (execute base "Check" r) (execute base "Run" r) := by
  unfold execute
  cases settingsFor base r with
  | error e => rfl
  | ok settings => exact respond_checksAlike _ rfl

end Service

/-- The checker is a pure gate. A task records at most one report, and has a result just when it
records none; nothing was printed or read when the report is one of reading or checking; a program
that is read and checked comes to what it comes to without checking. A service that checks answers
what it answers when it runs, as far as checking goes. -/
theorem check_gates (t : Task) (base : Settings) (r : Request) :
    t.run.errors.length ≤ 1 ∧
      (t.Returns → (t.run.result.isSome = true ↔ t.run.errors = [])) ∧
      (∀ d ∈ t.run.errors, d.phase = .parse ∨ d.phase = .check →
        t.run.channels = t.channels) ∧
      (∀ p type, t.read = .ok p → t.check p = .ok type →
        t.run.result = t.unchecked.run.result ∧ t.run.channels = t.unchecked.run.channels ∧
          t.run.errors = t.unchecked.run.errors) ∧
      Service.ChecksAlike (Service.execute base "Check" r) (Service.execute base "Run" r) := by
  refine ⟨t.run_errors_le_one, Task.run_result_iff, fun d hd => Task.run_channels hd, ?_,
    Service.execute_checksAlike base r⟩
  intro p type hread hcheck
  rcases Task.run_unchecked hread hcheck with ⟨type', hrun⟩
  rw [hrun]
  exact ⟨rfl, rfl, rfl⟩

/-- Prints a line. -/
def announcing : Task := { origin := .program { exprs := [.call "print" [.text "ready"]] } }

theorem announcing_gated :
    announcing.Returns ∧ announcing.run.result.isSome = true ∧
      announcing.run.result = announcing.unchecked.run.result := by
  have hcheck (p : Program) (hread : announcing.read = .ok p) :
      announcing.check p = .ok .text := by
    cases hread
    exact Checker.checkProgram_of_acceptsAt (by decide +kernel)
  have hrun (p : Program) (hread : announcing.read = .ok p) :
      ∃ v s, announcing.machine.runProgram announcing.turns p {} = (.value v, s) := by
    cases hread
    exact ⟨_, _, rfl⟩
  have hreturns : announcing.Returns := by
    refine ⟨fun p hread _ => ?_, fun p hread _ => ?_⟩
    · rw [hcheck p hread]
      nofun
    · rcases hrun p hread with ⟨v, s, h⟩
      change (announcing.machine.runProgram announcing.turns p {}).1 ≠ _
      rw [h]
      nofun
  have hgates := check_gates announcing {} {}
  refine ⟨hreturns, (hgates.2.1 hreturns).mpr rfl, ?_⟩
  exact (hgates.2.2.2.1 _ _ rfl (hcheck _ rfl)).1

end TreeLang
