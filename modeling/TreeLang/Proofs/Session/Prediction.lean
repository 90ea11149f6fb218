import TreeLang.Proofs.Session.RollBack
import TreeLang.Proofs.Typing.Programs
import TreeLang.Proofs.Typing.Renaming

/-!
# Asking for a type

`typeOf` checks an expression where `eval` would check it, but with a supply of its own, which
starts again at the first variable. So the variables that it takes for new ones may be those that a
variable of the session has in its type, and then it takes different types for the same
(`twins_mistaken`). Main statement: `typeOf_predicts`, by which the answer is that of the check in
`eval`, up to a renaming, wherever both supplies hand out new variables.
-/

namespace TreeLang.Session

/-- What an expression at the top level sees. -/
def sight (s : Session) : ScopeChain := [s.checker.scope, Scope.prelude]

/-- What is read as an entry without being a definition is read the same as an expression. -/
theorem readExpression_of_entry {source : String} {e : Expr}
    (h : Reader.readEntry source = .ok (.expression e)) :
    Reader.readExpression source = .ok e := by
  unfold Reader.readEntry at h
  unfold Reader.readExpression
  rcases hgraph : Reader.readGraph source with f | ⟨g, root⟩
  · rw [hgraph] at h
    cases h
  · rw [hgraph] at h
    simp only [Bind.bind, Except.bind, Pure.pure, Except.pure] at h ⊢
    -- The tests on the root only decide as which of the two it is read.
    rcases ite_eq_iff.mp h with ⟨-, hdefinition⟩ | ⟨-, hexpression⟩
    · split at hdefinition <;> cases hdefinition
    · split at hexpression
      · cases hexpression
      · next e' he =>
        cases hexpression
        exact he

/-- The check by which a session answers for the type of an expression. -/
def probe (s : Session) : Checker := { scope := s.checker.scope }

theorem typeOf_eq_ok {s : Session} {source : String} {e : Expr}
    (hread : Reader.readExpression source = .ok e) {t : Ty} :
    s.typeOf source = .ok t ↔ (s.probe.checkExpr 0 e).1 = .ok t := by
  have hanswer : s.typeOf source = (s.probe.checkExpr 0 e).1.mapError Problem.ofHalt := by
    unfold typeOf
    rw [hread]
    rfl
  rw [hanswer]
  cases (s.probe.checkExpr 0 e).1 with
  | error halt => simp [Except.mapError]
  | ok u => simp [Except.mapError]

theorem answer_ok {α : Type} {r : Step α} {f : α → Answer} {b : Answer} :
    (r.answer f).1 = .ok b ↔ ∃ a, r.1 = .ok a ∧ f a = b := by
  obtain ⟨result, s⟩ := r
  cases result with
  | error p => simp [Step.answer, Except.map]
  | ok a => simp [Step.answer, Except.map]

/-- The session is as it was, and the type of an expression is the one that the check in `eval`
gives, up to a renaming that keeps the variables in sight, provided that both checks get new
variables from their supplies. -/
theorem typeOf_predicts (s : Session) {source : String} {e : Expr}
    (hread : Reader.readEntry source = .ok (.expression e)) (hprobe : NewFor s.sight {} e)
    (hown : NewFor s.sight s.checker.supply e) :
    (s.perform (.typeOf source)).2 = s ∧
      ∃ ρ : Equiv.Perm String, (∀ n ∈ e.names, ∀ x ∈ s.sight.variables n, ρ x = x) ∧
        ∀ t, (s.perform (.typeOf source)).1 = .ok (.type t) ↔
          (s.checker.checkExpr 0 e).1 = .ok (t.rename ρ) := by
  refine ⟨rfl, ?_⟩
  obtain ⟨ρ, hrest, hiff⟩ := exists_typed_iff (σ := s.probe.setting) (τ := s.checker.setting)
    (.refl e s.sight) hprobe hown
  have hkeeps : ∀ n ∈ e.names, ∀ x ∈ s.sight.variables n, ρ x = x :=
    fun n hn x hx => hrest x (hprobe.unseen n hn x hx) (hown.unseen n hn x hx)
  refine ⟨ρ, hkeeps, fun t => ?_⟩
  have hanswer : (s.perform (.typeOf source)).1 = .ok (.type t) ↔ s.typeOf source = .ok t :=
    answer_ok.trans (by simp)
  rw [hanswer, typeOf_eq_ok (readExpression_of_entry hread), Checker.checkExpr_iff,
    Checker.checkExpr_iff]
  exact hiff t

/-! ## A variable taken for a new one -/

/-- The session after `x` has been bound to an empty list. The type of `x` has the first variable of
the supply of the session. -/
def twins : Session := (({} : Session).perform (.evalObject "[<-, x, [list]]")).2

theorem twins_eq :
    twins = (({} : Session).take (.expression (.assign "x" (.list [])))).2 := by
  have hread : Reader.readEntry "[<-, x, [list]]" = .ok (.expression (.assign "x" (.list []))) := by
    cbv
  show (({} : Session).eval "[<-, x, [list]]").2 = _
  rw [eval_of_read hread]

theorem twins_predicted :
    Reader.readEntry "[list]" = .ok (.expression (.list [])) ∧
      NewFor twins.sight {} (.list []) ∧ NewFor twins.sight twins.checker.supply (.list []) ∧
      (twins.perform (.typeOf "[list]")).2 = twins ∧
      ∃ ρ : Equiv.Perm String,
        (∀ n ∈ (Expr.list []).names, ∀ x ∈ twins.sight.variables n, ρ x = x) ∧
          ∀ t, (twins.perform (.typeOf "[list]")).1 = .ok (.type t) ↔
            (twins.checker.checkExpr 0 (.list [])).1 = .ok (t.rename ρ) := by
  have hread : Reader.readEntry "[list]" = .ok (.expression (.list [])) := by cbv
  have hprobe : NewFor twins.sight {} (.list []) := by
    rw [twins_eq]
    decide
  have hown : NewFor twins.sight twins.checker.supply (.list []) := by
    rw [twins_eq]
    decide
  exact ⟨hread, hprobe, hown, typeOf_predicts twins hread hprobe hown⟩

set_option maxRecDepth 10000 in
/-- The elements of this list are `x` and another empty list. The session answers that they have the
same type, and turns the list down when it is to be evaluated. -/
theorem twins_mistaken :
    Reachable twins ∧ twins.skipCheck = false ∧
      (∃ t, (twins.perform (.typeOf "[list, [ref, x], [list]]")).1 = .ok (.type t)) ∧
      ∃ p, twins.refusal? (.evalObject "[list, [ref, x], [list]]") = some p := by
  have hread : Reader.readEntry "[list, [ref, x], [list]]" =
      .ok (.expression (.list [.ref "x", .list []])) := by cbv
  refine ⟨.step _ (.start loopTurns), ?_, ?_, ?_⟩
  · rw [twins_eq]
    rfl
  · refine ⟨.list (.list (.var "T0")), answer_ok.mpr ⟨_, ?_, rfl⟩⟩
    refine (typeOf_eq_ok (readExpression_of_entry hread)).mpr ?_
    rw [twins_eq]
    rfl
  · refine Option.isSome_iff_exists.mp ?_
    rw [refusal?, sourceProblem?_of_read hread, twins_eq]
    decide

end TreeLang.Session
