import TreeLang.Proofs.Eval.Hearing
import TreeLang.Proofs.Session.AssignedTypes

/-!
# The lines that a session reads

The host can set a text to read lines from at any time, and every call of `input` should answer with
the next line of the text that was set last (`promised`). But the reader that is made for the first
line stays for good. So all lines of a session come from one text, the one that was set last before
the first line was read, and the promise is kept if no text is set after that.

Main statement: `heardEach_lines`.
-/

namespace TreeLang.Session

open Exec (Hearing Hears hearing hearAll hearApply)
open Text (Octets firstLines behindLines)

/-! ## What a request reads -/

/-- A run follows, because nothing is checked or because the check succeeds. -/
def passes {α : Type} (s : Session) (verdict : Except Halt α) : Bool :=
  s.skipCheck || (problem? verdict).isNone

/-- The lines that an expression reads. -/
def exprHeard (s : Session) (e : Expr) : List String :=
  if s.passes (s.checker.checkExpr 0 e).1 then
    hearing s.machine s.turns s.machine.depth e s.start
  else []

/-- The lines that a program reads. -/
def programHeard (s : Session) (p : Program) : List String :=
  let m := s.machine.defineAll p.defs
  if s.passes (s.checker.checkProgram p).1 then
    hearAll (m.evalExpr s.turns) (hearing m s.turns m.depth) p.exprs s.start
  else []

/-- The lines that a call by name reads. -/
def callHeard (s : Session) (name : String) (args : List HostValue) : List String :=
  match s.callee? name, callArguments name 1 args with
  | some f, .ok vs =>
    let m := s.machine
    hearApply m (m.evalExpr s.turns) (hearing m s.turns m.depth) vs.length f vs s.start
  | _, _ => []

/-- The lines that an entry reads. -/
def entryHeard (s : Session) : Reader.Entry → List String
  | .definition _ => []
  | .expression e => s.exprHeard e

/-- The lines that the entry in a text reads. -/
def sourceHeard (s : Session) (source : String) : List String :=
  match Reader.readEntry source with
  | .ok entry => s.entryHeard entry
  | .error _ => []

/-- The lines that the program in a text reads. -/
def programSourceHeard (s : Session) (source file : String) : List String :=
  match Reader.readProgram source file with
  | .ok p => s.programHeard p
  | .error _ => []

/-- What the calls of `input` answer while a request is carried out, in order. -/
def heard (s : Session) : Request → List String
  | .eval source | .evalObject source => s.sourceHeard source
  | .evalProgram source file | .evalProgramObject source file => s.programSourceHeard source file
  | .call name args => s.callHeard name args
  | _ => []

/-- The text that a request sets to read from. -/
def Request.input? : Request → Option String
  | .setInput text => some text
  | _ => none

/-! ## One request -/

section

variable {s : Session} (hworks : s.channels.inFailure = none)

include hworks

theorem exec_heard {x : Exec Value} {l : Hearing} (hl : Hears x l) :
    s.channels.Heard (l s.start) (s.exec x).2.channels := by
  have hrun := hl s.start hworks
  unfold exec
  dsimp only
  split <;> exact hrun

theorem runChecked_heard (earlier : Scope) {x : Exec Value} {l : Hearing} (hl : Hears x l) :
    s.channels.Heard (l s.start) (s.runChecked earlier x).2.channels := by
  have hrun := exec_heard hworks hl
  unfold runChecked
  split
  · next heq =>
    rw [heq] at hrun
    exact hrun
  · exact hrun

/-- What does not check does not read. -/
theorem checkAndRun_heard {α : Type} (check : Checker → Except Halt α × Checker)
    (run : Session → Session × Exec Value) {l : Hearing}
    (hstart : ∀ c, (run { s with checker := c }).1.start = s.start)
    (hl : ∀ c, Hears (run { s with checker := c }).2 l) :
    s.channels.Heard (if (problem? (check s.checker).1).isNone then l s.start else [])
      (s.checkAndRun check run).2.channels := by
  unfold checkAndRun
  rcases check s.checker with ⟨verdict, c⟩
  cases verdict with
  | error halt => exact .refl hworks
  | ok a =>
    have hchannels : (run { s with checker := c }).1.channels = s.channels :=
      congrArg RunState.channels (hstart c)
    have hworks' : (run { s with checker := c }).1.channels.inFailure = none := by
      rw [hchannels, hworks]
    have hrun := runChecked_heard hworks' s.checker.scope (hl c)
    rw [hstart, hchannels] at hrun
    exact hrun

theorem evalExpr_heard (e : Expr) :
    s.channels.Heard (s.exprHeard e) (s.evalExpr e).2.channels := by
  have hl := Exec.eval_hears s.machine s.turns s.machine.depth e
  unfold evalExpr exprHeard passes
  cases s.skipCheck with
  | true => exact exec_heard hworks hl
  | false =>
    exact checkAndRun_heard hworks (·.checkExpr 0 e) (fun s => (s, s.machine.evalExpr s.turns e))
      (fun _ => rfl) fun _ => hl

theorem takeProgram_heard (p : Program) :
    s.channels.Heard (s.programHeard p) (s.takeProgram p).2.channels := by
  have hl := Exec.runExprs_hears (s.machine.defineAll p.defs) s.turns p
  unfold takeProgram programHeard passes
  cases s.skipCheck with
  | true => exact exec_heard (s := (s.enter p).1) hworks hl
  | false =>
    exact checkAndRun_heard hworks (·.checkProgram p) (·.enter p) (fun _ => rfl) fun _ => hl

theorem define_heard (d : FunctionDef) : s.channels.Heard [] (s.define d).2.channels := by
  unfold define
  split
  · exact .refl hworks
  · split <;> exact .refl hworks

theorem take_heard (entry : Reader.Entry) :
    s.channels.Heard (s.entryHeard entry) (s.take entry).2.channels := by
  cases entry with
  | definition d =>
    have hdefine := define_heard hworks d
    rw [take]
    split
    all_goals
      next heq =>
        rw [heq] at hdefine
        exact hdefine
  | expression e =>
    have heval := evalExpr_heard hworks e
    rw [take]
    split
    all_goals
      next heq =>
        rw [heq] at heval
        exact heval

theorem eval_heard (source : String) :
    s.channels.Heard (s.sourceHeard source) (s.eval source).2.channels := by
  unfold eval sourceHeard
  cases Reader.readEntry source with
  | error f => exact .refl hworks
  | ok entry => exact take_heard hworks entry

theorem evalProgram_heard (source file : String) :
    s.channels.Heard (s.programSourceHeard source file) (s.evalProgram source file).2.channels := by
  unfold evalProgram programSourceHeard
  cases Reader.readProgram source file with
  | error f => exact .refl hworks
  | ok p => exact takeProgram_heard hworks p

theorem call_heard (name : String) (args : List HostValue) :
    s.channels.Heard (s.callHeard name args) (s.call name args).2.channels := by
  unfold call callHeard
  cases s.callee? name with
  | none => exact .refl hworks
  | some f =>
    cases callArguments name 1 args with
    | error p => exact .refl hworks
    | ok vs =>
      have hl := Exec.apply_hears (Exec.eval_hears s.machine s.turns s.machine.depth) s.machine
        vs.length f vs
      have hrun : s.channels.Heard _ (s.exec (s.machine.call s.turns f vs)).2.channels :=
        exec_heard hworks hl
      dsimp only
      split
      all_goals
        next heq =>
          rw [heq] at hrun
          exact hrun

theorem bind_heard (name : String) (f : HostFunction) :
    s.channels.Heard [] (s.bind name f).2.channels := by
  unfold bind
  split <;> exact .refl hworks

/-- A request reads the next lines and does nothing else to the input, unless it sets a text. -/
theorem perform_heard {r : Request} (hr : r.input? = none) :
    s.channels.Heard (s.heard r) (s.perform r).2.channels := by
  unfold perform
  cases r with
  | eval source =>
    rw [answer_session, evalForHost_session]
    exact eval_heard hworks source
  | evalObject source =>
    rw [answer_session]
    exact eval_heard hworks source
  | evalProgram source file =>
    rw [answer_session, evalProgramForHost_session]
    exact evalProgram_heard hworks source file
  | evalProgramObject source file =>
    rw [answer_session]
    exact evalProgram_heard hworks source file
  | define d =>
    rw [answer_session]
    exact define_heard hworks d
  | bind name f =>
    rw [answer_session]
    exact bind_heard hworks name f
  | bindValue name x =>
    rw [answer_session]
    unfold bindValue
    split
    · exact bind_heard hworks name _
    · exact .refl hworks
  | set name x =>
    rw [answer_session, set]
    split <;> exact .refl hworks
  | call name args =>
    rw [answer_session]
    exact call_heard hworks name args
  | setScoping name =>
    rw [answer_session, setScoping]
    split <;> exact .refl hworks
  | setInput text => cases hr
  | typeOf | get | setSkipCheck | setCancelled => exact .refl hworks

end

/-- Setting a text matters to a session without a reader only. -/
theorem setInput_pending (s : Session) (text : String) :
    (s.setInput text).channels.pending =
      if s.channels.reader = none then .ofText text else s.channels.pending := by
  unfold setInput Channels.pending
  cases s.channels.reader <;> rfl

/-! ## Sequences of requests -/

/-- What the calls of `input` answer, request by request. -/
def heardEach (s : Session) : List Request → List (List String)
  | [] => []
  | r :: rs => s.heard r :: (s.perform r).2.heardEach rs

/-- What the calls of `input` should answer, request by request: each the next line of the text that
was set last, of which `unread` is left. -/
def promised (s : Session) (unread : Octets) : List Request → List (List String)
  | [] => []
  | r :: rs =>
    match r.input? with
    | some text => [] :: (s.perform r).2.promised (.ofText text) rs
    | none =>
      let count := (s.heard r).length
      firstLines count unread :: (s.perform r).2.promised (behindLines count unread) rs

/-- The requests up to the first one that reads a line. -/
def quiet (s : Session) : List Request → List Request
  | [] => []
  | r :: rs => if s.heard r = [] then r :: (s.perform r).2.quiet rs else []

/-- The text that was set last, or else the source. -/
def lastInput (source : Octets) (rs : List Request) : Octets :=
  rs.foldl (fun os r => (r.input?.map Octets.ofText).getD os) source

theorem heard_of_input {r : Request} {text : String} (h : r.input? = some text) (s : Session) :
    s.heard r = [] := by
  cases r with
  | setInput => rfl
  | _ => cases h

theorem perform_of_input {r : Request} {text : String} (h : r.input? = some text) (s : Session) :
    (s.perform r).2 = s.setInput text := by
  cases r with
  | setInput => cases h; rfl
  | _ => cases h

theorem lines_append {c c' : Channels} {ls later : List String} (h : c.Heard ls c')
    (hlater : later = firstLines later.length c'.pending) :
    ls ++ later = firstLines (ls ++ later).length c.pending := by
  rw [List.length_append, Text.firstLines_add, ← h.lines, ← h.pending, ← hlater]

/-- A session with a reader reads on in it, whatever is set. -/
theorem heardEach_of_reader {s : Session} (hworks : s.channels.inFailure = none)
    (hreader : s.channels.reader ≠ none) (rs : List Request) :
    (s.heardEach rs).flatten = firstLines (s.heardEach rs).flatten.length s.channels.pending := by
  induction rs generalizing s with
  | nil => rfl
  | cons r rs ih =>
    rw [heardEach, List.flatten_cons]
    cases hr : r.input? with
    | some text =>
      -- The text becomes the source, which a session with a reader no longer looks at.
      have hlater := ih (s := s.setInput text) hworks hreader
      rw [setInput_pending, if_neg hreader] at hlater
      rwa [heard_of_input hr, perform_of_input hr]
    | none =>
      have hfirst := perform_heard hworks hr
      exact lines_append hfirst (ih hfirst.works fun h => hreader (hfirst.reader.mp h).1)

/-- The promise is kept as long as no text is set. -/
theorem heardEach_of_unset {s : Session} (hworks : s.channels.inFailure = none)
    {rs : List Request} (hunset : ∀ r ∈ rs, r.input? = none) :
    s.heardEach rs = s.promised s.channels.pending rs := by
  induction rs generalizing s with
  | nil => rfl
  | cons r rs ih =>
    have hr := hunset r List.mem_cons_self
    have hfirst := perform_heard hworks hr
    have hlater := ih hfirst.works fun r' hr' => hunset r' (List.mem_cons_of_mem _ hr')
    rw [heardEach, promised, hr]
    dsimp only
    rw [hlater, hfirst.pending, ← hfirst.lines]

/-- A request that reads nothing leaves a session without a reader that way. The text that it sets,
if it sets one, is the new source. -/
theorem perform_quiet {s : Session} (hworks : s.channels.inFailure = none)
    (hreader : s.channels.reader = none) {r : Request} (hquiet : s.heard r = []) :
    (s.perform r).2.channels.inFailure = none ∧ (s.perform r).2.channels.reader = none ∧
      (s.perform r).2.channels.source =
        (r.input?.map Octets.ofText).getD s.channels.source := by
  cases hr : r.input? with
  | some text =>
    rw [perform_of_input hr]
    exact ⟨hworks, hreader, rfl⟩
  | none =>
    have hheard := perform_heard hworks hr
    exact ⟨hheard.works, hheard.reader.mpr ⟨hreader, hquiet⟩, hheard.source⟩

theorem promised_quiet {s : Session} {r : Request} (hquiet : s.heard r = []) (unread : Octets)
    (rs : List Request) :
    s.promised unread (r :: rs) =
      [] :: (s.perform r).2.promised ((r.input?.map Octets.ofText).getD unread) rs := by
  rw [promised]
  cases r.input? with
  | some text => rfl
  | none =>
    dsimp only
    rw [hquiet]
    rfl

/-- All lines that a session reads come, one after the other, from the text that was set last before
the first of them was read. If no text is set after that, each call of `input` answers with the next
line of the text that was set last. -/
theorem heardEach_lines {s : Session} (hworks : s.channels.inFailure = none)
    (hreader : s.channels.reader = none) (rs : List Request) :
    (s.heardEach rs).flatten = firstLines (s.heardEach rs).flatten.length
        (lastInput s.channels.source (s.quiet rs)) ∧
      ((∀ r ∈ rs.drop (s.quiet rs).length, r.input? = none) →
        s.heardEach rs = s.promised s.channels.source rs) := by
  induction rs generalizing s with
  | nil => exact ⟨rfl, fun _ => rfl⟩
  | cons r rs ih =>
    by_cases hquiet : s.heard r = []
    · -- Nothing has been read yet, so a text that is set takes the place of the source.
      obtain ⟨hworks', hreader', hsource⟩ := perform_quiet hworks hreader hquiet
      obtain ⟨hlines, hkept⟩ := ih hworks' hreader'
      rw [quiet, if_pos hquiet, heardEach, hquiet]
      rw [hsource] at hlines hkept
      refine ⟨hlines, fun hunset => ?_⟩
      rw [promised_quiet hquiet, hkept hunset]
    · -- The first line makes the reader that all later lines come from.
      have hr : r.input? = none := by
        cases hr : r.input? with
        | none => rfl
        | some text => exact absurd (heard_of_input hr s) hquiet
      have hfirst := perform_heard hworks hr
      have hpending : s.channels.pending = s.channels.source := by
        rw [Channels.pending, hreader]
        rfl
      rw [quiet, if_neg hquiet, lastInput, List.foldl_nil, ← hpending]
      refine ⟨?_, heardEach_of_unset hworks⟩
      have hlater := heardEach_of_reader hfirst.works (fun h => hquiet (hfirst.reader.mp h).2) rs
      exact lines_append hfirst hlater

/-! ## Reading line by line -/

theorem sourceHeard_of_read {s : Session} {source : String} {e : Expr}
    (h : Reader.readEntry source = .ok (.expression e)) : s.sourceHeard source = s.exprHeard e := by
  unfold sourceHeard
  rw [h]
  rfl

/-- The request to read a line. -/
def askLine : Request := .evalObject "[call, input]"

set_option maxRecDepth 10000 in
theorem read_askLine : Reader.readEntry "[call, input]" = .ok (.expression (.call "input" [])) := by
  cbv

theorem heard_askLine (s : Session) : s.heard askLine = s.exprHeard (.call "input" []) := by
  show s.sourceHeard "[call, input]" = s.exprHeard (.call "input" [])
  exact sourceHeard_of_read read_askLine

theorem perform_askLine (s : Session) :
    (s.perform askLine).2 = (s.evalExpr (.call "input" [])).2 :=
  (perform_expression rfl read_askLine).2.2.1

/-- Two texts are set, and then the lines of the second one are read, and one more. -/
def inTime : List Request := [.setInput "x", .setInput "a\r\nb", askLine, askLine, askLine]

theorem heardEach_inTime :
    ({} : Session).heardEach inTime = [[], [], ["a"], ["b"], [""]] ∧
      (({} : Session).quiet inTime).length = 2 := by
  simp only [inTime, heardEach, quiet, heard_askLine, perform_askLine]
  decide

theorem inTime_promised :
    ({} : Session).channels.inFailure = none ∧ ({} : Session).channels.reader = none ∧
      (({} : Session).heardEach inTime).flatten =
        firstLines (({} : Session).heardEach inTime).flatten.length
          (lastInput [] (({} : Session).quiet inTime)) ∧
      (∀ r ∈ inTime.drop (({} : Session).quiet inTime).length, r.input? = none) ∧
      ({} : Session).heardEach inTime = ({} : Session).promised [] inTime := by
  have hunset : ∀ r ∈ inTime.drop (({} : Session).quiet inTime).length, r.input? = none := by
    rw [heardEach_inTime.2]
    intro r hr
    obtain rfl | rfl | rfl : r = askLine ∨ r = askLine ∨ r = askLine := by simpa [inTime] using hr
    all_goals rfl
  obtain ⟨hlines, hpromised⟩ := heardEach_lines (s := {}) rfl rfl inTime
  exact ⟨rfl, rfl, hlines, hunset, hpromised hunset⟩

/-- The second text is set too late: its line is not read. -/
theorem not_heardEach_promised :
    ¬∀ (s : Session) (rs : List Request), s.channels.inFailure = none →
      s.channels.reader = none → s.heardEach rs = s.promised s.channels.source rs := by
  intro h
  let late : List Request := [.setInput "a\n", askLine, .setInput "b\n", askLine]
  have hheard : ({} : Session).heardEach late = [[], ["a"], [], [""]] := by
    simp only [late, heardEach, heard_askLine, perform_askLine]
    decide
  have hpromised : ({} : Session).promised [] late = [[], ["a"], [], ["b"]] := by
    simp only [late, promised, heard_askLine, perform_askLine]
    decide
  have heq := h {} late rfl rfl
  rw [hheard, hpromised] at heq
  exact absurd heq (by decide)

end TreeLang.Session
