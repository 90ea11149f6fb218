import TreeLang.Proofs.Session.Prediction
import TreeLang.Proofs.Typing.Resolution

/-!
# What a name stands for

Definitions and bindings register functions. The checker keeps one function under a name, the last
one registered. The machine keeps the functions of the language and those of the host apart, and
looks among the former first. `Recorded` follows a session with a log of its registrations; one step
is `perform_adds`, and `Reflects` is the invariant that says what the tables hold.

Main statement: `function_agrees`. Checker and machine always find a function under the same names,
and it is the last one registered, except where a function of the host has been bound over one of
the language (`overbound_differs`).
-/

namespace TreeLang

/-- A function that becomes known under a name: one that is defined in the language, or one of the
host, which the machine knows as a callable. -/
inductive Registration where
  | user (d : FunctionDef)
  | host (b : Builtin) (f : HostFunction)

namespace Registration

def name : Registration → String
  | .user d => d.name
  | .host b _ => b.name

/-- What the checker knows of the function. -/
def symbol : Registration → FnSymbol
  | .user d => .ofDef d
  | .host b _ => { name := b.name, type := b.type, builtin := true }

/-- The machine with the function. -/
def install (m : Machine) : Registration → Machine
  | .user d => m.define d
  | .host b _ => m.defineBuiltin b

/-- The definition, if it is one of this name. -/
def definition? (name : String) : Registration → Option FunctionDef
  | .user d => if d.name = name then some d else none
  | .host .. => none

/-- The callable of a function of the host, if it is one of this name. -/
def builtin? (name : String) : Registration → Option Builtin
  | .host b _ => if b.name = name then some b else none
  | .user _ => none

/-- The function of the host. -/
def function? : Registration → Option HostFunction
  | .host _ f => some f
  | .user _ => none

/-- The value is this function, among these functions of the host. -/
def Denotes (functions : List HostFunction) : Registration → Value → Prop
  | .user d, v => ∃ stamp, v = .function ⟨stamp, d⟩
  | .host b f, v => v = .builtin b ∧ f.signature = .ok b.type ∧
      ∃ id, b.callee = .host id ∧ functions[id]? = some f

end Registration

/-! ## Tables -/

/-- The scope with functions registered one after the other. -/
def Scope.registerAll (scope : Scope) (regs : List Registration) : Scope :=
  regs.foldl (fun scope reg => scope.setFunction reg.symbol) scope

/-- The machine with functions installed one after the other. -/
def Machine.installAll (m : Machine) (regs : List Registration) : Machine :=
  regs.foldl Registration.install m

/-- Definitions alone are registered as those of a program are. -/
theorem Scope.registerAll_user (scope : Scope) (defs : List FunctionDef) :
    scope.registerAll (defs.map .user) = scope.defineAll defs := by
  rw [registerAll, List.foldl_map]
  rfl

theorem Machine.installAll_user (m : Machine) (defs : List FunctionDef) :
    m.installAll (defs.map .user) = m.defineAll defs := by
  rw [installAll, List.foldl_map]
  rfl

/-- The tables of a checker and a machine hold what has been registered, the last one first. -/
structure Reflects (regs : List Registration) (funcs : Table FnSymbol) (m : Machine) : Prop where
  symbols : ∀ n, funcs.get? n = (regs.find? (·.name = n)).map Registration.symbol
  users : ∀ n, (m.functions.get? n).map (·.definition) = regs.findSome? (·.definition? n)
  builtins : ∀ n, m.builtins.get? n =
    (regs.findSome? (·.builtin? n)).or (Machine.prelude.get? n)

namespace Reflects

variable {regs : List Registration} {scope : Scope} {m : Machine}

theorem initial : Reflects [] ∅ Machine.initial := ⟨fun _ => rfl, fun _ => rfl, fun _ => rfl⟩

theorem add (h : Reflects regs scope.funcs m) (reg : Registration) :
    Reflects (reg :: regs) (scope.setFunction reg.symbol).funcs (reg.install m) := by
  have hname : reg.symbol.name = reg.name := by cases reg <;> rfl
  constructor
  · intro n
    rw [Scope.setFunction, Table.get?_insert, List.find?_cons, hname]
    by_cases hn : reg.name = n
    · simp [hn]
    · simp [hn, h.symbols n]
  · intro n
    cases reg with
    | user d =>
      rw [Registration.install, Machine.define, Table.get?_insert, List.findSome?_cons,
        Registration.definition?]
      by_cases hn : d.name = n
      · simp [hn]
      · simp [hn, h.users n]
    | host b f => exact h.users n
  · intro n
    cases reg with
    | user d => exact h.builtins n
    | host b f =>
      rw [Registration.install, Machine.defineBuiltin, Table.get?_insert, List.findSome?_cons,
        Registration.builtin?]
      by_cases hn : b.name = n
      · simp [hn]
      · simp [hn, h.builtins n]

theorem addAll (h : Reflects regs scope.funcs m) (news : List Registration) :
    Reflects (news.reverse ++ regs) (scope.registerAll news).funcs (m.installAll news) := by
  induction news generalizing regs scope m with
  | nil => exact h
  | cons reg news ih =>
    rw [List.reverse_cons, List.append_assoc]
    exact ih (h.add reg)

end Reflects

/-! ## One request -/

namespace Session

/-- What binding a function of the host registers. -/
def bindRegistrations (s : Session) (name : String) (f : HostFunction) : List Registration :=
  match f.signature with
  | .error _ => []
  | .ok type => [.host { name, type, callee := .host s.functions.length } f]

/-- What an entry registers. -/
def entryRegistrations : Reader.Entry → List Registration
  | .definition d => [.user d]
  | .expression _ => []

/-- What the entry in a text registers. -/
def sourceRegistrations (source : String) : List Registration :=
  match Reader.readEntry source with
  | .ok entry => entryRegistrations entry
  | .error _ => []

/-- What the program in a text registers. -/
def programRegistrations (source file : String) : List Registration :=
  match Reader.readProgram source file with
  | .ok p => p.defs.map .user
  | .error _ => []

/-- What a request registers, in order. A request that is turned down registers nothing. -/
def registrations (s : Session) (r : Request) : List Registration :=
  if (s.refusal? r).isSome then []
  else match r with
    | .eval source | .evalObject source => sourceRegistrations source
    | .evalProgram source file | .evalProgramObject source file => programRegistrations source file
    | .define d => [.user d]
    | .bind name f => s.bindRegistrations name f
    | .bindValue name (.function params variadic results) =>
      s.bindRegistrations name { params, variadic, results, run := fun _ => none }
    | _ => []

theorem registrations_refused {s : Session} {r : Request} {p : Problem}
    (h : s.refusal? r = some p) : s.registrations r = [] := by
  unfold registrations
  rw [if_pos (by rw [h]; rfl)]

/-- The second session has the functions of the first one and those registered after it. -/
structure Adds (s : Session) (regs : List Registration) (s' : Session) : Prop where
  symbols : s'.checker.scope.funcs = (s.checker.scope.registerAll regs).funcs
  users : s'.machine.functions = (s.machine.installAll regs).functions
  builtins : s'.machine.builtins = (s.machine.installAll regs).builtins
  functions : s'.functions = s.functions ++ regs.filterMap Registration.function?
  skipCheck : s'.skipCheck = s.skipCheck

/-- Nothing has been registered. -/
structure Same (s s' : Session) : Prop where
  symbols : s'.checker.scope.funcs = s.checker.scope.funcs
  users : s'.machine.functions = s.machine.functions
  builtins : s'.machine.builtins = s.machine.builtins
  functions : s'.functions = s.functions
  skipCheck : s'.skipCheck = s.skipCheck

theorem Same.refl (s : Session) : s.Same s := ⟨rfl, rfl, rfl, rfl, rfl⟩

theorem Same.adds {s s' : Session} (h : s.Same s') : s.Adds [] s' := by
  obtain ⟨hsymbols, husers, hbuiltins, hfunctions, hskip⟩ := h
  exact ⟨hsymbols, husers, hbuiltins, by simpa using hfunctions, hskip⟩

theorem Same.trans {s s' s'' : Session} (h : s.Same s') (h' : s'.Same s'') : s.Same s'' :=
  ⟨h'.symbols.trans h.symbols, h'.users.trans h.users, h'.builtins.trans h.builtins,
    h'.functions.trans h.functions, h'.skipCheck.trans h.skipCheck⟩

theorem exec_same (s : Session) (x : Exec Value) : s.Same (s.exec x).2 := by
  unfold exec
  dsimp only
  split <;> exact ⟨rfl, rfl, rfl, rfl, rfl⟩

theorem runChecked_same (s : Session) (earlier : Scope) (x : Exec Value) :
    s.Same (s.runChecked earlier x).2 := by
  have hexec := s.exec_same x
  unfold runChecked
  split
  · next heq =>
    rw [heq] at hexec
    exact { hexec with symbols := (rollBack_funcs _ _ _ _).trans hexec.symbols }
  · exact hexec

theorem evalExpr_same {s : Session} (hcheck : s.skipCheck = false) (e : Expr) :
    s.Same (s.evalExpr e).2 := by
  unfold evalExpr
  rw [if_neg (by simp [hcheck])]
  rcases hverdict : s.checker.checkExpr 0 e with ⟨halt | t, c⟩
  · have hkind := (Checker.checkExpr_extends hverdict).1.kind
    rw [checkAndRun_refused (·.checkExpr 0 e) _ hkind hverdict]
    exact ⟨rfl, rfl, rfl, rfl, rfl⟩
  · have hchecked : s.Same { s with checker := c } :=
      ⟨(Checker.checkExpr_extends hverdict).1.funcs, rfl, rfl, rfl, rfl⟩
    rw [checkAndRun_ok (·.checkExpr 0 e) _ hverdict]
    exact hchecked.trans (runChecked_same _ _ _)

theorem call_same (s : Session) (name : String) (args : List HostValue) :
    s.Same (s.call name args).2 := by
  unfold call
  split
  · exact .refl s
  · next f _ =>
    split
    · exact .refl s
    · next vs _ =>
      have hexec := s.exec_same (s.machine.call s.turns f vs)
      split
      all_goals
        next heq =>
          rw [heq] at hexec
          exact hexec

theorem set_same (s : Session) (name : String) (x : HostValue) : s.Same (s.set name x).2 := by
  unfold set
  split <;> exact ⟨rfl, rfl, rfl, rfl, rfl⟩

theorem setScoping_same (s : Session) (name : String) : s.Same (s.setScoping name).2 := by
  unfold setScoping
  split <;> exact ⟨rfl, rfl, rfl, rfl, rfl⟩

theorem TurnsDown.same {α : Type} {s : Session} {p : Problem} {r : Step α}
    (h : s.TurnsDown p r) : s.Same r.2 := by
  obtain ⟨c, hc, rfl⟩ := h
  exact ⟨congrArg Scope.funcs hc.scope, rfl, rfl, rfl, rfl⟩

/-- A request that is turned down leaves all functions as they are. -/
theorem perform_same {s : Session} (hs : s.Orderly) (hcheck : s.skipCheck = false) {r : Request}
    {p : Problem} (h : s.refusal? r = some p) : s.Same (s.perform r).2 := by
  unfold perform
  cases r with
  | eval source =>
    rw [answer_session, evalForHost_session]
    exact (eval_refused hs hcheck source h).same
  | evalObject source =>
    rw [answer_session]
    exact (eval_refused hs hcheck source h).same
  | evalProgram source file =>
    rw [answer_session, evalProgramForHost_session]
    exact (evalProgram_refused hs hcheck source file h).same
  | evalProgramObject source file =>
    rw [answer_session]
    exact (evalProgram_refused hs hcheck source file h).same
  | define d =>
    rw [answer_session]
    exact (define_refused hs hcheck h).same
  | _ => cases h

/-- A definition that is accepted is registered on both sides. -/
theorem define_adds {s : Session} (hcheck : s.skipCheck = false) {d : FunctionDef}
    (hok : problem? (s.checker.define d).1 = none) : s.Adds [.user d] (s.define d).2 := by
  obtain ⟨u, hu⟩ := ok_of_problem? hok
  unfold define
  rw [if_neg (by simp [hcheck])]
  rcases hdefine : s.checker.define d with ⟨r, c⟩
  rw [hdefine] at hu
  subst hu
  have hscope := (Checker.define_typed hdefine).2
  exact ⟨congrArg Scope.funcs hscope, rfl, rfl, by simp [Registration.function?], rfl⟩

/-- The functions of a program that is accepted are registered on both sides, however its run
ends. -/
theorem takeProgram_adds {s : Session} (hcheck : s.skipCheck = false) {p : Program}
    (hok : problem? (s.checker.checkProgram p).1 = none) :
    s.Adds (p.defs.map .user) (s.takeProgram p).2 := by
  obtain ⟨t, ht⟩ := ok_of_problem? hok
  rcases hverdict : s.checker.checkProgram p with ⟨r, c⟩
  rw [hverdict] at ht
  subst ht
  obtain ⟨supply, ts, -, hts⟩ := Checker.checkProgram_typed hverdict
  have hfuncs : c.scope.funcs = (s.checker.scope.defineAll p.defs).funcs :=
    (hts.accumulates Grown.accumulates fun e _ => Typed.grown e).funcs
  unfold takeProgram
  rw [if_neg (by simp [hcheck]), checkAndRun_ok (·.checkProgram p) _ hverdict]
  dsimp only [enter]
  obtain ⟨hsymbols, husers, hbuiltins, hfunctions, hskip⟩ :=
    runChecked_same { s with checker := c, machine := s.machine.defineAll p.defs } s.checker.scope
      ((s.machine.defineAll p.defs).runExprs s.turns p)
  refine ⟨?_, ?_, ?_, ?_, hskip⟩
  · rw [Scope.registerAll_user, ← hfuncs]
    exact hsymbols
  · rw [Machine.installAll_user]
    exact husers
  · rw [Machine.installAll_user]
    exact hbuiltins
  · have hnone : (p.defs.map Registration.user).filterMap Registration.function? = [] := by
      rw [List.filterMap_map]
      exact List.filterMap_eq_nil_iff.mpr fun _ _ => rfl
    rw [hnone, List.append_nil]
    exact hfunctions

theorem bind_adds (s : Session) (name : String) (f : HostFunction) :
    s.Adds (s.bindRegistrations name f) (s.bind name f).2 := by
  unfold bind bindRegistrations
  cases f.signature with
  | error why => exact Same.adds ⟨rfl, rfl, rfl, rfl, rfl⟩
  | ok type => exact ⟨rfl, rfl, rfl, rfl, rfl⟩

theorem take_adds {s : Session} (hcheck : s.skipCheck = false) {entry : Reader.Entry}
    (hok : s.entryProblem? entry = none) : s.Adds (entryRegistrations entry) (s.take entry).2 := by
  cases entry with
  | definition d =>
    have hdefine := define_adds hcheck hok
    rw [take]
    split
    all_goals
      next heq =>
        rw [heq] at hdefine
        exact hdefine
  | expression e =>
    have hexpr := (evalExpr_same hcheck e).adds
    rw [take]
    split
    all_goals
      next heq =>
        rw [heq] at hexpr
        exact hexpr

theorem eval_adds {s : Session} (hcheck : s.skipCheck = false) {source : String}
    (hok : s.sourceProblem? source = none) :
    s.Adds (sourceRegistrations source) (s.eval source).2 := by
  unfold sourceProblem? at hok
  unfold sourceRegistrations eval
  generalize Reader.readEntry source = reading at hok ⊢
  cases reading with
  | error f => cases hok
  | ok entry => exact take_adds hcheck hok

theorem evalProgram_adds {s : Session} (hcheck : s.skipCheck = false) {source file : String}
    (hok : s.programProblem? source file = none) :
    s.Adds (programRegistrations source file) (s.evalProgram source file).2 := by
  unfold programProblem? at hok
  unfold programRegistrations evalProgram
  generalize Reader.readProgram source file = reading at hok ⊢
  cases reading with
  | error f => cases hok
  | ok p => exact takeProgram_adds hcheck hok

/-- Every request registers what `registrations` lists, and nothing else. -/
theorem perform_adds {s : Session} (hs : Reachable s) (hcheck : s.skipCheck = false) {r : Request}
    (hr : r ≠ .setSkipCheck true) : s.Adds (s.registrations r) (s.perform r).2 := by
  cases hrefusal : s.refusal? r with
  | some p =>
    rw [registrations_refused hrefusal]
    exact (perform_same hs.orderly hcheck hrefusal).adds
  | none =>
    have hsame : s.Adds [] s := (Same.refl s).adds
    unfold registrations perform
    rw [hrefusal, if_neg (by simp)]
    cases r with
    | eval source =>
      rw [answer_session, evalForHost_session]
      exact eval_adds hcheck hrefusal
    | evalObject source =>
      rw [answer_session]
      exact eval_adds hcheck hrefusal
    | evalProgram source file =>
      rw [answer_session, evalProgramForHost_session]
      exact evalProgram_adds hcheck hrefusal
    | evalProgramObject source file =>
      rw [answer_session]
      exact evalProgram_adds hcheck hrefusal
    | define d =>
      rw [answer_session]
      exact define_adds hcheck hrefusal
    | bind name f =>
      rw [answer_session]
      exact s.bind_adds name f
    | bindValue name x =>
      rw [answer_session]
      cases x with
      | function params variadic results => exact s.bind_adds name _
      | _ => exact hsame
    | set name x =>
      rw [answer_session]
      exact (s.set_same name x).adds
    | call name args =>
      rw [answer_session]
      exact (s.call_same name args).adds
    | setScoping name =>
      rw [answer_session]
      exact (s.setScoping_same name).adds
    | typeOf source =>
      rw [answer_session]
      exact hsame
    | get name =>
      rw [answer_session]
      exact hsame
    | setSkipCheck skip =>
      cases skip with
      | true => exact absurd rfl hr
      | false => exact Same.adds ⟨rfl, rfl, rfl, rfl, hcheck.symm⟩
    | setInput | setCancelled => exact Same.adds ⟨rfl, rfl, rfl, rfl, rfl⟩

/-! ## Whole sessions -/

/-- A registration with the session right after the request that made it. -/
structure Registered where
  registration : Registration
  mark : Session

/-- The sessions that the host can bring about without turning checking off, with what has been
registered on the way, the last one first. -/
inductive Recorded : List Registered → Session → Prop
  | start (turns : Nat) : Recorded [] { turns }
  | step {log : List Registered} {s : Session} (r : Request) (hr : r ≠ .setSkipCheck true)
      (h : Recorded log s) :
      Recorded (((s.registrations r).map (⟨·, (s.perform r).2⟩)).reverse ++ log) (s.perform r).2
  | connect {log : List Registered} {s : Session} (channels : Channels) (h : Recorded log s) :
      Recorded log { s with channels }

theorem Recorded.reachable {log : List Registered} {s : Session} (h : Recorded log s) :
    Reachable s ∧ s.skipCheck = false := by
  induction h with
  | start turns => exact ⟨.start turns, rfl⟩
  | step r hr _ ih => exact ⟨.step r ih.1, (perform_adds ih.1 ih.2 hr).skipCheck.trans ih.2⟩
  | connect channels _ ih => exact ⟨.connect channels ih.1, ih.2⟩

/-- The step from before a request, for the invariants of recorded sessions. -/
theorem Recorded.adds {log : List Registered} {s : Session} (h : Recorded log s) {r : Request}
    (hr : r ≠ .setSkipCheck true) : s.Adds (s.registrations r) (s.perform r).2 :=
  perform_adds h.reachable.1 h.reachable.2 hr

theorem Recorded.reflects {log : List Registered} {s : Session} (h : Recorded log s) :
    Reflects (log.map (·.registration)) s.checker.scope.funcs s.machine := by
  induction h with
  | start turns => exact .initial
  | @step log s r hr h ih =>
    obtain ⟨hsymbols, husers, hbuiltins, -⟩ := h.adds hr
    have hall := ih.addAll (s.registrations r)
    rw [← hsymbols] at hall
    rw [List.map_append, List.map_reverse, List.map_map]
    have hmap : (s.registrations r).map
        ((·.registration) ∘ fun reg => ({ registration := reg, mark := (s.perform r).2 } :
          Registered)) = s.registrations r := List.map_id _
    rw [hmap]
    refine ⟨hall.symbols, fun n => ?_, fun n => ?_⟩
    · rw [husers]
      exact hall.users n
    · rw [hbuiltins]
      exact hall.builtins n
  | connect channels _ ih => exact ih

/-- A binding registers one function, which gets the next number among those of the host. -/
theorem registrations_host {s : Session} {r : Request} {b : Builtin} {f : HostFunction}
    (h : .host b f ∈ s.registrations r) :
    s.registrations r = [.host b f] ∧ f.signature = .ok b.type ∧
      b.callee = .host s.functions.length := by
  have hbind {name : String} {g : HostFunction} (hmem : .host b f ∈ s.bindRegistrations name g) :
      s.bindRegistrations name g = [.host b f] ∧ f.signature = .ok b.type ∧
        b.callee = .host s.functions.length := by
    unfold bindRegistrations at hmem ⊢
    cases hsignature : g.signature with
    | error why =>
      rw [hsignature] at hmem
      cases hmem
    | ok type =>
      rw [hsignature] at hmem
      obtain ⟨rfl, rfl⟩ := Registration.host.inj (List.mem_singleton.mp hmem)
      exact ⟨rfl, hsignature, rfl⟩
  have hsource (source : String) : .host b f ∉ sourceRegistrations source := by
    unfold sourceRegistrations entryRegistrations
    split
    · split <;> simp
    · simp
  have hprogram (source file : String) : .host b f ∉ programRegistrations source file := by
    unfold programRegistrations
    split <;> simp
  cases hrefusal : s.refusal? r with
  | some p =>
    rw [registrations_refused hrefusal] at h
    cases h
  | none =>
    unfold registrations at h ⊢
    rw [hrefusal, if_neg (by simp)] at h ⊢
    cases r with
    | eval source | evalObject source => exact absurd h (hsource source)
    | evalProgram source file | evalProgramObject source file =>
      exact absurd h (hprogram source file)
    | define d => simp at h
    | bind name g => exact hbind h
    | bindValue name x =>
      cases x with
      | function params variadic results => exact hbind h
      | _ => cases h
    | _ => cases h

/-- Every function of the host that has been registered has its number and its type. -/
theorem Recorded.sound {log : List Registered} {s : Session} (h : Recorded log s) {b : Builtin}
    {f : HostFunction} (hmem : .host b f ∈ log.map (·.registration)) :
    f.signature = .ok b.type ∧ ∃ id, b.callee = .host id ∧ s.functions[id]? = some f := by
  induction h with
  | start turns => cases hmem
  | @step log s r hr h ih =>
    have hfunctions := (h.adds hr).functions
    rw [List.map_append, List.mem_append] at hmem
    rcases hmem with hnew | hold
    · have hnew' : .host b f ∈ s.registrations r := by simpa using hnew
      obtain ⟨hregs, hsignature, hcallee⟩ := registrations_host hnew'
      refine ⟨hsignature, _, hcallee, ?_⟩
      rw [hfunctions, hregs]
      simp [Registration.function?]
    · obtain ⟨hsignature, id, hcallee, hid⟩ := ih hold
      refine ⟨hsignature, id, hcallee, ?_⟩
      rw [hfunctions, List.getElem?_append_left (List.getElem?_eq_some_iff.mp hid).1]
      exact hid
  | connect channels _ ih => exact ih hmem

/-- The function that was registered last under a name. -/
def latest (log : List Registered) (name : String) : Option Registered :=
  log.find? (·.registration.name = name)

/-- A function of the host is the last one under the name, and one of the language came before. -/
def BoundOver (log : List Registered) (name : String) : Prop :=
  (∃ b f mark, latest log name = some ⟨.host b f, mark⟩) ∧
    ∃ r ∈ log, (r.registration.definition? name).isSome = true

/-- The symbol and the value are those of the function that was registered last under a name, or
else of the builtin function. -/
def Known (log : List Registered) (functions : List HostFunction) (name : String) (f : FnSymbol)
    (v : Value) : Prop :=
  match latest log name with
  | some r => f = r.registration.symbol ∧ r.registration.Denotes functions v
  | none =>
    ∃ p, Primitive.named? name = some p ∧ f = .ofPrimitive p ∧ v = .builtin (.ofPrimitive p)

section

variable {log : List Registered} {name : String}

theorem latest_cons (r : Registered) (log : List Registered) (name : String) :
    latest (r :: log) name = if r.registration.name = name then some r else latest log name := by
  unfold latest
  rw [List.find?_cons]
  by_cases h : r.registration.name = name <;> simp [h]

theorem latest_user {d : FunctionDef} {mark : Session}
    (h : latest log name = some ⟨.user d, mark⟩) :
    log.findSome? (·.registration.definition? name) = some d := by
  induction log with
  | nil => cases h
  | cons r log ih =>
    obtain ⟨reg, mark'⟩ := r
    rw [latest_cons] at h
    rw [List.findSome?_cons]
    by_cases hname : reg.name = name
    · rw [if_pos hname] at h
      cases h
      have hd : d.name = name := hname
      simp [Registration.definition?, hd]
    · rw [if_neg hname] at h
      cases reg with
      | user d' =>
        have hd : ¬ d'.name = name := hname
        simp only [Registration.definition?, if_neg hd]
        exact ih h
      | host b f => exact ih h

theorem latest_host {b : Builtin} {f : HostFunction} {mark : Session}
    (h : latest log name = some ⟨.host b f, mark⟩) :
    log.findSome? (·.registration.builtin? name) = some b := by
  induction log with
  | nil => cases h
  | cons r log ih =>
    obtain ⟨reg, mark'⟩ := r
    rw [latest_cons] at h
    rw [List.findSome?_cons]
    by_cases hname : reg.name = name
    · rw [if_pos hname] at h
      cases h
      have hb : b.name = name := hname
      simp [Registration.builtin?, hb]
    · rw [if_neg hname] at h
      cases reg with
      | user d => exact ih h
      | host b' f' =>
        have hb : ¬ b'.name = name := hname
        simp only [Registration.builtin?, if_neg hb]
        exact ih h

theorem latest_none (h : latest log name = none) :
    log.findSome? (·.registration.definition? name) = none ∧
      log.findSome? (·.registration.builtin? name) = none := by
  have hname : ∀ r ∈ log, r.registration.name ≠ name := by
    simpa [latest, List.find?_eq_none] using h
  constructor
  · refine List.findSome?_eq_none_iff.mpr fun r hr => ?_
    have hne := hname r hr
    cases hreg : r.registration with
    | host b f => rfl
    | user d =>
      rw [hreg] at hne
      exact if_neg hne
  · refine List.findSome?_eq_none_iff.mpr fun r hr => ?_
    have hne := hname r hr
    cases hreg : r.registration with
    | user d => rfl
    | host b f =>
      rw [hreg] at hne
      exact if_neg hne

/-- What the tables of a recorded session hold, in terms of its log. -/
theorem Recorded.tables {s : Session} (h : Recorded log s) (name : String) :
    s.checker.scope.funcs.get? name = (latest log name).map (·.registration.symbol) ∧
      (s.machine.functions.get? name).map (·.definition) =
        log.findSome? (·.registration.definition? name) ∧
      s.machine.builtins.get? name =
        (log.findSome? (·.registration.builtin? name)).or (Machine.prelude.get? name) := by
  obtain ⟨hsymbols, husers, hbuiltins⟩ := h.reflects
  refine ⟨?_, ?_, ?_⟩
  · rw [hsymbols, List.find?_map, Option.map_map]
    rfl
  · rw [husers, List.findSome?_map]
    rfl
  · rw [hbuiltins, List.findSome?_map]
    rfl

/-- A function of the language is found before those of the host. -/
theorem Recorded.function?_eq {s : Session} (h : Recorded log s) (name : String) :
    (∃ u, s.machine.function? name = some (.function u) ∧
        log.findSome? (·.registration.definition? name) = some u.definition) ∨
      log.findSome? (·.registration.definition? name) = none ∧
        s.machine.function? name =
          ((log.findSome? (·.registration.builtin? name)).or (Machine.prelude.get? name)).map
            .builtin := by
  obtain ⟨-, husers, hbuiltins⟩ := h.tables name
  unfold Machine.function?
  cases hu : s.machine.functions.get? name with
  | some u =>
    rw [hu] at husers
    exact .inl ⟨u, rfl, husers.symm⟩
  | none =>
    rw [hu] at husers
    refine .inr ⟨husers.symm, ?_⟩
    rw [hbuiltins]

theorem sight_findFunction (s : Session) (name : String) :
    s.sight.findFunction name =
      (s.checker.scope.funcs.get? name).or (Scope.prelude.funcs.get? name) := by
  simp only [sight, ScopeChain.findFunction]
  cases s.checker.scope.funcs.get? name with
  | some f => rfl
  | none => cases Scope.prelude.funcs.get? name <;> rfl

/-- Checker and machine find a function under the same names. What they find is the function that
was registered last under the name, or else the builtin one, unless the last one is a function of
the host that has been bound over one of the language. -/
theorem function_agrees {s : Session} (h : Recorded log s) (name : String) :
    (s.sight.findFunction name).isSome = (s.machine.function? name).isSome ∧
      ∀ f v, s.sight.findFunction name = some f → s.machine.function? name = some v →
        (Known log s.functions name f v ↔ ¬ BoundOver log name) := by
  have hsymbol := (h.tables name).1
  have hfunction := h.function?_eq name
  rw [sight_findFunction, hsymbol]
  unfold Known BoundOver
  cases hlatest : latest log name with
  | none =>
    -- Nothing has been registered: both find the builtin function, if there is one.
    obtain ⟨hdefinition, hbuiltin⟩ := latest_none hlatest
    rw [hdefinition, hbuiltin] at hfunction
    rcases hfunction with ⟨u, -, hnone⟩ | ⟨-, hv⟩
    · cases hnone
    · rw [hv, Option.map_none, Option.none_or, Option.none_or, prelude_get?, prelude_funcs_get?]
      refine ⟨by simp, fun f v hf hv' => ?_⟩
      obtain ⟨p, hp, rfl⟩ := Option.map_eq_some_iff.mp hf
      rw [hp] at hv'
      cases hv'
      exact iff_of_true ⟨p, hp, rfl, rfl⟩ (by simp)
  | some r =>
    obtain ⟨reg, mark⟩ := r
    rw [Option.map_some, Option.some_or]
    cases reg with
    | user d =>
      rw [latest_user hlatest] at hfunction
      rcases hfunction with ⟨u, hv, hdefinition⟩ | ⟨hnone, -⟩
      · rw [hv]
        cases hdefinition
        refine ⟨rfl, fun f v hf hv' => ?_⟩
        cases hf
        cases hv'
        exact iff_of_true ⟨rfl, u.stamp, rfl⟩ (by simp)
      · cases hnone
    | host b f =>
      have hmem : .host b f ∈ log.map (·.registration) :=
        List.mem_map.mpr ⟨_, List.mem_of_find?_eq_some hlatest, rfl⟩
      rcases hfunction with ⟨u, hv, hdefinition⟩ | ⟨hnone, hv⟩
      · -- The machine still finds the function of the language.
        rw [hv]
        refine ⟨rfl, fun g v hg hv' => iff_of_false ?_ ?_⟩
        · cases hv'
          rintro ⟨-, hvalue, -⟩
          cases hvalue
        · obtain ⟨r, hr, hsome⟩ := List.exists_of_findSome?_eq_some hdefinition
          exact fun hnot => hnot ⟨⟨b, f, mark, rfl⟩, r, hr, by rw [hsome]; rfl⟩
      · rw [latest_host hlatest] at hv
        rw [hv]
        refine ⟨rfl, fun g v hg hv' => iff_of_true ?_ ?_⟩
        · cases hg
          cases hv'
          exact ⟨rfl, rfl, h.sound hmem⟩
        · rintro ⟨-, r, hr, hsome⟩
          have hno := List.findSome?_eq_none_iff.mp hnone r hr
          rw [hno] at hsome
          cases hsome

end

/-- The session after `f` has been defined. -/
def echoing : Session := (({} : Session).perform (.define echo)).2

theorem echoing_known :
    ∃ log f v, Recorded log echoing ∧ echoing.sight.findFunction "f" = some f ∧
      echoing.machine.function? "f" = some v ∧ Known log echoing.functions "f" f v := by
  have hrecorded : Recorded [⟨.user echo, echoing⟩] echoing :=
    .step (.define echo) nofun (.start loopTurns)
  have hsymbol : echoing.sight.findFunction "f" = some (.ofDef echo) := rfl
  have hvalue : echoing.machine.function? "f" = some (.function ⟨0, echo⟩) := rfl
  have hnot : ¬ BoundOver [⟨.user echo, echoing⟩] "f" := by
    rintro ⟨⟨b, f, mark, hlatest⟩, -⟩
    cases hlatest
  exact ⟨_, _, _, hrecorded, hsymbol, hvalue,
    ((function_agrees hrecorded "f").2 _ _ hsymbol hvalue).mpr hnot⟩

/-- A function that gives a truth value. -/
def affirming : FunctionDef := { name := "f", result := .boolean, body := .bool true }

/-- A function of the host that gives a text. -/
def naming : HostFunction := { results := [.text], run := fun _ => some [.text "a"] }

/-- The session after one has been defined and the other one bound under its name. -/
def overbound : Session :=
  ((({} : Session).perform (.define affirming)).2.perform (.bind "f" naming)).2

/-- The checker takes `f` for the function of the host, which gives a text. The machine calls the
other one. -/
theorem overbound_differs :
    (∃ log, Recorded log overbound) ∧
      (overbound.sight.findFunction "f").map (·.type.result.shown) = some "String" ∧
      overbound.machine.function? "f" = some (.function ⟨0, affirming⟩) := by
  have hstart : Recorded [] ({} : Session) := .start loopTurns
  have hdefined := hstart.step (.define affirming) nofun
  exact ⟨⟨_, hdefined.step (.bind "f" naming) nofun⟩, rfl, rfl⟩

end Session

end TreeLang
