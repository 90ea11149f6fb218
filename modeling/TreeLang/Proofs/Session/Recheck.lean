import TreeLang.Proofs.Session.Registration
import TreeLang.Proofs.Typing.Bodies

/-!
# Functions that are checked again

A function is checked when it is registered, and not when a function that it calls is replaced
later. So it may no longer check (`undermined_rejected`). Its verdict depends only on the types and
type parameters under the names in its body (`BodyTyped.transfer`): as long as these are those of
the time when it was registered, it would be accepted again.

Main statement: `recheck_accepted`, for every function of the language that the checker knows in a
session of any length. It is about functions whose type variables do not end in a digit, since the
new variables of a supply do.
-/

namespace TreeLang.Session

/-- The definition has been checked with all functions in the scope known. -/
def Accepted (globals : Scope) (d : FunctionDef) : Prop :=
  ∃ supply supply', BodyTyped globals supply d supply'

theorem define_accepted {s : Session} {d : FunctionDef}
    (hok : problem? (s.checker.define d).1 = none) :
    Accepted (s.checker.scope.registerAll [.user d]) d := by
  obtain ⟨u, hu⟩ := ok_of_problem? hok
  rcases hverdict : s.checker.define d with ⟨verdict, c⟩
  rw [hverdict] at hu
  subst hu
  exact ⟨_, _, (Checker.define_typed hverdict).1⟩

theorem source_accepted {s : Session} {source : String} (hok : s.sourceProblem? source = none)
    {d : FunctionDef} (h : .user d ∈ sourceRegistrations source) :
    Accepted (s.checker.scope.registerAll (sourceRegistrations source)) d := by
  unfold sourceProblem? at hok
  unfold sourceRegistrations at h ⊢
  generalize Reader.readEntry source = reading at h hok ⊢
  cases reading with
  | error f => cases hok
  | ok entry =>
    cases entry with
    | expression e => cases h
    | definition f =>
      obtain rfl := Registration.user.inj (List.mem_singleton.mp h)
      exact define_accepted hok

theorem program_accepted {s : Session} {source file : String}
    (hok : s.programProblem? source file = none) {d : FunctionDef}
    (h : .user d ∈ programRegistrations source file) :
    Accepted (s.checker.scope.registerAll (programRegistrations source file)) d := by
  unfold programProblem? at hok
  unfold programRegistrations at h ⊢
  generalize Reader.readProgram source file = reading at h hok ⊢
  cases reading with
  | error f => cases hok
  | ok p =>
    obtain ⟨f, hf, heq⟩ := List.mem_map.mp h
    obtain rfl := Registration.user.inj heq
    obtain ⟨t, ht⟩ := ok_of_problem? hok
    rcases hverdict : s.checker.checkProgram p with ⟨verdict, c⟩
    rw [hverdict] at ht
    subst ht
    obtain ⟨supply, ts, hbodies, -⟩ := Checker.checkProgram_typed hverdict
    dsimp only
    rw [Scope.registerAll_user]
    exact hbodies.bodyTyped f hf

/-- The functions that a request registers have been checked with all of them known. -/
theorem registrations_accepted {s : Session} {r : Request} {d : FunctionDef}
    (h : .user d ∈ s.registrations r) :
    Accepted (s.checker.scope.registerAll (s.registrations r)) d := by
  have hbind {name : String} {f : HostFunction} : .user d ∉ s.bindRegistrations name f := by
    unfold bindRegistrations
    split <;> simp
  cases hrefusal : s.refusal? r with
  | some p =>
    rw [registrations_refused hrefusal] at h
    cases h
  | none =>
    unfold registrations at h ⊢
    rw [hrefusal, if_neg (by simp)] at h ⊢
    cases r with
    | eval source | evalObject source => exact source_accepted hrefusal h
    | evalProgram source file | evalProgramObject source file => exact program_accepted hrefusal h
    | define f =>
      obtain rfl := Registration.user.inj (List.mem_singleton.mp h)
      exact define_accepted hrefusal
    | bind name f => exact absurd h hbind
    | bindValue name x =>
      cases x with
      | function params variadic results => exact absurd h hbind
      | _ => cases h
    | _ => cases h

/-- Every function of the language was accepted when it was registered, with the functions that were
known right after. -/
theorem Recorded.accepted {log : List Registered} {s : Session} (h : Recorded log s)
    {d : FunctionDef} {mark : Session} (hmem : ⟨.user d, mark⟩ ∈ log) :
    ∃ globals, globals.funcs = mark.checker.scope.funcs ∧ Accepted globals d := by
  induction h with
  | start turns => cases hmem
  | @step log s r hr h ih =>
    rcases List.mem_append.mp hmem with hnew | hold
    · obtain ⟨reg, hreg, heq⟩ := List.mem_map.mp (List.mem_reverse.mp hnew)
      obtain ⟨rfl, rfl⟩ := Registered.mk.inj heq
      exact ⟨_, (h.adds hr).symbols.symm, registrations_accepted hreg⟩
    · exact ih hold
  | connect channels _ ih => exact ih hmem

/-- The names in the body of a function have the types and type parameters that they had in an
earlier session. -/
def Keeps (earlier s : Session) (d : FunctionDef) : Prop :=
  ∀ n ∈ d.body.names, (s.sight.findFunction n).map FnSymbol.scheme =
    (earlier.sight.findFunction n).map FnSymbol.scheme

theorem findFunction_of_funcs {globals globals' : Scope} (h : globals'.funcs = globals.funcs)
    (name : String) : ScopeChain.findFunction name [globals', Scope.prelude] =
      ScopeChain.findFunction name [globals, Scope.prelude] := by
  simp only [ScopeChain.findFunction, h]

/-- Every function of the language that the checker knows would be accepted again, if the functions
that its body names are still of the types that they were of when it was registered. -/
theorem recheck_accepted {log : List Registered} {s : Session} (h : Recorded log s) {name : String}
    {f : FnSymbol} {d : FunctionDef} (hf : s.checker.scope.funcs.get? name = some f)
    (hd : f.definition = some d)
    (hkeeps : ∀ r, latest log name = some r → Keeps r.mark s d)
    (hplain : d.Unnumbered s.checker.scope) (unit : Nat) :
    (s.checker.checkFunction unit d).1 = .ok () := by
  -- The symbol in the table is that of the last registration, which is this definition.
  rw [(h.tables name).1] at hf
  obtain ⟨⟨reg, mark⟩, hlatest, rfl⟩ := Option.map_eq_some_iff.mp hf
  cases reg with
  | host b f => cases hd
  | user d' =>
    obtain rfl : d = d' := (Option.some.inj hd).symm
    obtain ⟨globals, hfuncs, supply, supply', hbody⟩ :=
      h.accepted (List.mem_of_find?_eq_some hlatest)
    have hsame : SameFor d.body (bodySight globals d) (bodySight s.checker.scope d) := by
      refine bodySight_sameFor fun n hn => (hkeeps _ hlatest n hn).trans ?_
      rw [findFunction_of_funcs hfuncs]
      rfl
    have hplain' : d.Unnumbered globals := by
      refine ⟨fun n hn x hx => hplain.body n hn x ?_, hplain.result⟩
      rw [hsame.variables_eq hn]
      exact hx
    exact Checker.checkFunction_iff.mpr (hbody.transfer hplain' hsame s.checker.supply)

/-- A function that calls `f`. -/
def relaying : FunctionDef := { name := "g", result := .boolean, body := .call "f" [] }

/-- The session after `f` has been defined, and `g` after it. -/
def relayed : Session :=
  ((({} : Session).perform (.define affirming)).2.perform (.define relaying)).2

theorem relayed_recorded :
    Recorded [⟨.user relaying, relayed⟩,
      ⟨.user affirming, (({} : Session).perform (.define affirming)).2⟩] relayed :=
  .step (.define relaying) nofun (.step (.define affirming) nofun (.start loopTurns))

/-- Another function of the name `f`, of the same type. -/
def denying : FunctionDef := { affirming with body := .bool false }

/-- The session after `f` has been replaced by a function of the same type. -/
def renewed : Session := (relayed.perform (.define denying)).2

theorem relaying_rechecked :
    ∃ log, Recorded log renewed ∧ renewed.checker.scope.funcs.get? "g" = some (.ofDef relaying) ∧
      (∀ r, latest log "g" = some r → Keeps r.mark renewed relaying) ∧
      relaying.Unnumbered renewed.checker.scope ∧
      (renewed.checker.checkFunction 0 relaying).1 = .ok () := by
  have hrecorded : Recorded [⟨.user denying, renewed⟩, ⟨.user relaying, relayed⟩,
      ⟨.user affirming, (({} : Session).perform (.define affirming)).2⟩] renewed :=
    .step (.define denying) nofun relayed_recorded
  have hsymbol : renewed.checker.scope.funcs.get? "g" = some (.ofDef relaying) := rfl
  have hkeeps : ∀ r, latest [⟨.user denying, renewed⟩, ⟨.user relaying, relayed⟩,
      ⟨.user affirming, (({} : Session).perform (.define affirming)).2⟩] "g" = some r →
      Keeps r.mark renewed relaying := by
    intro r hr
    cases hr
    intro n hn
    obtain rfl : n = "f" := List.mem_singleton.mp hn
    rfl
  have hplain : relaying.Unnumbered renewed.checker.scope := ⟨by decide, by decide⟩
  exact ⟨_, hrecorded, hsymbol, hkeeps, hplain,
    recheck_accepted hrecorded hsymbol rfl hkeeps hplain 0⟩

/-- A function of the name `f` that gives a text. -/
def wording : FunctionDef := { name := "f", result := .text, body := .text "a" }

/-- The session after `f` has been replaced by a function of another type. -/
def undermined : Session := (relayed.perform (.define wording)).2

/-- The checker still knows `g`, which it would not accept any more. -/
theorem undermined_rejected :
    (∃ log, Recorded log undermined) ∧
      undermined.checker.scope.funcs.get? "g" = some (.ofDef relaying) ∧
      (undermined.checker.checkFunction 0 relaying).1.isOk = false :=
  ⟨⟨_, relayed_recorded.step (.define wording) nofun⟩, rfl, rfl⟩

end TreeLang.Session
