import TreeLang.Proofs.Eval.Agreement

/-!
# Raising the bound on nesting

The bound on nesting has one effect on a run: at the bound the run faults, and reports that the
nesting is too deep. Nothing stops this report on its way out, since a fault of a part, or of a
callback, is the fault of the whole, and a call only adds its expression. So a run that ends in any
other way has not met the bound, and under every higher one it is the same run. Main statement:
`raised_run_eq`.
-/

namespace TreeLang

/-- The report on nesting beyond the bound. -/
def Diagnostic.IsTooDeep (d : Diagnostic) : Prop :=
  d.code = .runtimeError ∧ d.phase = .runtime ∧ d.text = "maximum recursion depth exceeded"

instance (d : Diagnostic) : Decidable d.IsTooDeep := inferInstanceAs (Decidable (_ ∧ _ ∧ _))

namespace Diagnostic

theorem isTooDeep_faultAt (e : Expr) :
    (faultAt e .runtimeError "maximum recursion depth exceeded").IsTooDeep := ⟨rfl, rfl, rfl⟩

theorem IsTooDeep.withNode {d : Diagnostic} (h : d.IsTooDeep) (node : String) :
    (d.withNode node).IsTooDeep := by
  unfold Diagnostic.withNode
  split <;> exact h

theorem IsTooDeep.withFile {d : Diagnostic} (h : d.IsTooDeep) (file : String) :
    (d.withFile file).IsTooDeep := by
  unfold Diagnostic.withFile
  split <;> exact h

end Diagnostic

/-- The run ended with the report on nesting beyond the bound. -/
def Outcome.IsTooDeep {α : Type} : Outcome α → Prop
  | .fault d => d.IsTooDeep
  | _ => False

instance {α : Type} (r : Outcome α) : Decidable r.IsTooDeep := by
  cases r with
  | fault d => exact inferInstanceAs (Decidable d.IsTooDeep)
  | _ => exact inferInstanceAs (Decidable False)

theorem Value.hereditary_true : Value.Hereditary fun _ => True where
  number _ _ := trivial
  text _ _ := trivial
  bool _ _ := trivial
  nil := trivial
  list := by simp
  empty := trivial
  set _ _ := trivial
  values _ _ _ := trivial
  renew _ := trivial
  numberFrom _ _ := trivial

/-- From every state the evaluations do the same, unless the first one meets the bound. -/
def Exec.Raises {α : Type} (x y : Exec α) : Prop :=
  Exec.Agrees Diagnostic.IsTooDeep (fun _ => True) x y fun _ => True

/-- What the relation says of one run. -/
theorem Exec.Raises.eq {α : Type} {x y : Exec α} (h : Exec.Raises x y) {s : RunState}
    (hs : ¬(x s).1.IsTooDeep) : y s = x s := by
  refine (Exec.Agrees.run h (fun _ _ _ => trivial) fun d hd hdeep => hs ?_).1
  rw [hd]
  exact hdeep

/-- Evaluation with more levels does the same, unless the fewer levels are not enough. -/
theorem Exec.eval_raises (m : Machine) (limit turns : Nat) {depth depth' : Nat}
    (h : depth ≤ depth') (e : Expr) :
    Exec.Raises (Exec.eval m turns depth e)
      (Exec.eval { m with maxDepth := limit } turns depth' e) := by
  have hm : Exec.Supplies (fun _ => True) m :=
    ⟨fun _ _ _ => trivial, fun _ _ _ _ _ _ => trivial⟩
  induction depth generalizing depth' e with
  | zero => exact fun _ _ _ => .inl ⟨_, rfl, Diagnostic.isTooDeep_faultAt e⟩
  | succ depth ih =>
    obtain ⟨more, rfl⟩ := Nat.exists_eq_add_of_lt h
    rw [Exec.eval, Exec.eval]
    split
    · exact .fault _
    · exact Exec.step_agrees hm limit (fun e => ih (Nat.le_add_right depth more) e)
        Value.hereditary_true (fun _ node hd => hd.withNode node) turns e

/-! ## Programs -/

namespace Machine

theorem defineAll_maxDepth (m : Machine) (limit : Nat) (defs : List FunctionDef) :
    Machine.defineAll { m with maxDepth := limit } defs =
      { m.defineAll defs with maxDepth := limit } := by
  induction defs generalizing m with
  | nil => rfl
  | cons d defs ih => exact ih (m.define d)

theorem depth_of_pos (m : Machine) {limit : Nat} (h : 0 < limit) :
    depth { m with maxDepth := limit } = limit := by
  rw [depth, if_neg (Nat.ne_of_gt h)]

theorem runProgram_raises (m : Machine) (p : Program) (turns : Nat) {limit limit' : Nat}
    (hpos : 0 < limit) (hle : limit ≤ limit') :
    Exec.Raises (runProgram { m with maxDepth := limit } turns p)
      (runProgram { m with maxDepth := limit' } turns p) := by
  unfold runProgram runExprs evalExpr
  simp only [defineAll_maxDepth, depth_of_pos _ hpos, depth_of_pos _ (Nat.lt_of_lt_of_le hpos hle)]
  refine Exec.Tracks.onFault (fun _ hd => hd.withFile p.file)
    (Exec.Tracks.evalSeq ?_ ⟨rfl, trivial⟩)
  exact fun e _ => Exec.eval_raises { m.defineAll p.defs with maxDepth := limit } limit' turns hle e

end Machine

/-- A run that does not end with the report on nesting beyond its bound is the same under every
higher bound: the same ending, and the same variables and channels after it. -/
theorem raised_run_eq (m : Machine) (p : Program) (turns limit limit' : Nat) (s : RunState)
    (hpos : 0 < limit) (hle : limit ≤ limit')
    (hends : ¬({ m with maxDepth := limit }.runProgram turns p s).1.IsTooDeep) :
    { m with maxDepth := limit' }.runProgram turns p s =
      { m with maxDepth := limit }.runProgram turns p s :=
  (m.runProgram_raises p turns hpos hle).eq hends

/-- Counts each number of a list down to zero, one call deeper for each step. -/
def countingDown : Program where
  defs :=
    [{ name := "down"
       params := [{ name := "n" }]
       body := .ite (.binary .gt (.ref "n") (.number 0))
         (.call "down" [.binary .sub (.ref "n") (.number 1)])
         (.seq [.call "print" [.text "done"], .assign "m" (.ref "n")]) }]
  exprs :=
    [.assign "ms" (.call "map" [.list [.number 0, .number 1, .number 2], .ref "down"])]

/-- Ten levels are just enough for it. -/
theorem countingDown_raised :
    (0 < 10 ∧ 10 ≤ 10000 ∧
      ¬({ Machine.initial with maxDepth := 10 }.runProgram 0 countingDown {}).1.IsTooDeep) ∧
      { Machine.initial with maxDepth := 10000 }.runProgram 0 countingDown {} =
        { Machine.initial with maxDepth := 10 }.runProgram 0 countingDown {} := by
  have hends :
      ¬({ Machine.initial with maxDepth := 10 }.runProgram 0 countingDown {}).1.IsTooDeep := by
    decide +kernel
  exact ⟨⟨by decide, by decide, hends⟩,
    raised_run_eq Machine.initial countingDown 0 10 10000 {} (by decide) (by decide) hends⟩

end TreeLang
