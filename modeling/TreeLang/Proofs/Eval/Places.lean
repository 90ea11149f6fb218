import TreeLang.Proofs.Eval.Writes
import TreeLang.Proofs.Typing.Sites

/-!
# Where a run assigns

A name may be assigned at several places of a text, and a run may stop between two of them. `places`
lists the assignments that an evaluation makes together with the paths at which they stand. Main
statement: `places_placed`, by which these are the assignments of `writes`, each at a place where
the text assigns its name.
-/

namespace TreeLang.Exec

variable {α : Type}

/-- The assignments that an evaluation makes, from each state, with their paths. -/
abbrev Trail := RunState → List (Path × String × Value)

namespace Trail

/-- Nothing is assigned. -/
def none : Trail := fun _ => []

/-- The trail of one evaluation and, if it has a value, that of the next. -/
def andThen (l : Trail) (x : Exec α) (k : α → Trail) : Trail := fun s =>
  l s ++ match x s with
    | (.value a, s) => k a s
    | _ => []

end Trail

/-! ## Trails of expressions -/

section

variable (rec : Expr → Exec Value) (trail : Path → Expr → Trail)

/-- The trail of expressions, which are the children from `i` on. -/
def trailAll (path : Path) (i : Nat) : List Expr → Trail
  | [] => .none
  | e :: es => (trail (path ++ [i]) e).andThen (rec e) fun _ => trailAll path (i + 1) es

/-- The trail of entries, whose children start at `i`. -/
def trailEntries (path : Path) (i : Nat) : List (Expr × Expr) → Trail
  | [] => .none
  | (k, v) :: es => (trail (path ++ [i]) k).andThen (rec k) fun key =>
    (trail (path ++ [i + 1]) v).andThen (rec v) fun _ =>
      if (Key.ofValue? key).isSome then trailEntries path (i + 2) es else .none

/-- The trail of a loop, which passes the same places in every turn. -/
def trailWhile (path : Path) (c b : Expr) : (turns : Nat) → Trail
  | 0 => .none
  | turns + 1 => (trail (path ++ [0]) c).andThen (rec c) fun v =>
    if v.truthy then
      (trail (path ++ [1]) b).andThen (rec b) fun _ => trailWhile path c b turns
    else .none

/-- The trail of one level of evaluation; `rec` and `trail` are those of the next level. -/
def stepTrail (m : Machine) (turns : Nat) (path : Path) (e : Expr) : Trail :=
  match e with
  | .number _ | .text _ | .bool _ | .ref _ => .none
  | .assign name value =>
    (trail (path ++ [0]) value).andThen (rec value) fun v _ => [(path, name, v)]
  | .binary _ left right =>
    (trail (path ++ [0]) left).andThen (rec left) fun _ => trail (path ++ [1]) right
  | .call name args => Trail.none.andThen (callee m e name) fun _ => trailAll rec trail path 0 args
  | .ite c t f => (trail (path ++ [0]) c).andThen (rec c) fun v =>
    if v.truthy then trail (path ++ [1]) t else trail (path ++ [2]) f
  | .loop c b => trailWhile rec trail path c b turns
  | .seq es | .list es => trailAll rec trail path 0 es
  | .dict entries => trailEntries rec trail path 0 entries

end

/-- The assignments that evaluating an expression at a path makes in the current frame. -/
def places (m : Machine) (turns : Nat) : (depth : Nat) → Path → Expr → Trail
  | 0, _, _ => .none
  | depth + 1, path, e =>
    if m.cancelled then .none
    else stepTrail (eval m turns depth) (places m turns depth) m turns path e

/-! ## The assignments on a trail -/

/-- The trail has the assignments of the log, each at one of these sites. -/
def Placed (l : Trail) (log : Log) (sites : List (Path × String)) : Prop :=
  ∀ s, (l s).map (·.2) = log s ∧ ∀ w ∈ l s, (w.1, w.2.1) ∈ sites

namespace Placed

theorem none (sites : List (Path × String)) : Placed .none .none sites := by
  intro s
  exact ⟨rfl, List.forall_mem_nil _⟩

theorem mono {l : Trail} {log : Log} {sites sites' : List (Path × String)} (h : Placed l log sites)
    (hsub : sites ⊆ sites') : Placed l log sites' := by
  intro s
  exact ⟨(h s).1, fun w hw => hsub ((h s).2 w hw)⟩

theorem andThen {l : Trail} {log : Log} {x : Exec α} {k : α → Trail} {log' : α → Log}
    {sites sites' : List (Path × String)} (hl : Placed l log sites)
    (hk : ∀ a, Placed (k a) (log' a) sites') :
    Placed (l.andThen x k) (log.andThen x log') (sites ++ sites') := by
  intro s
  obtain ⟨hlog, hsites⟩ := hl s
  have hleft : ∀ w ∈ l s, (w.1, w.2.1) ∈ sites ++ sites' := fun w hw =>
    List.mem_append_left _ (hsites w hw)
  unfold Trail.andThen Log.andThen
  rcases x s with ⟨r, s'⟩
  cases r with
  | value a =>
    obtain ⟨hlog', hsites'⟩ := hk a s'
    constructor
    · rw [List.map_append, hlog, hlog']
    · exact List.forall_mem_append.mpr
        ⟨hleft, fun w hw => List.mem_append_right _ (hsites' w hw)⟩
  | fault | crash | unfinished =>
    simp only [List.append_nil]
    exact ⟨hlog, hleft⟩

theorem ite {c : Prop} [Decidable c] {l k : Trail} {log log' : Log} {sites : List (Path × String)}
    (hl : Placed l log sites) (hk : Placed k log' sites) :
    Placed (if c then l else k) (if c then log else log') sites := by
  split
  · exact hl
  · exact hk

end Placed

section

variable {rec : Expr → Exec Value} {log : Expr → Log} {trail : Path → Expr → Trail}
  (h : ∀ path e, Placed (trail path e) (log e) (e.sites path))

include h

theorem trailAll_placed (path : Path) (i : Nat) (es : List Expr) :
    Placed (trailAll rec trail path i es) (logAll rec log es) (Expr.sitesAll path i es) := by
  induction es generalizing i with
  | nil => exact .none _
  | cons e es ih => exact (h _ e).andThen fun _ => ih (i + 1)

theorem trailEntries_placed (path : Path) (i : Nat) (es : List (Expr × Expr)) :
    Placed (trailEntries rec trail path i es) (logEntries rec log es)
      (Expr.sitesEntries path i es) := by
  induction es generalizing i with
  | nil => exact .none _
  | cons e es ih =>
    refine (h _ e.1).andThen fun key => (h _ e.2).andThen fun _ => ?_
    exact .ite (ih (i + 2)) (.none _)

theorem trailWhile_placed (path : Path) (c b : Expr) (turns : Nat) :
    Placed (trailWhile rec trail path c b turns) (logWhile rec log c b turns)
      ((Expr.loop c b).sites path) := by
  induction turns with
  | zero => exact .none _
  | succ turns ih =>
    -- One turn more passes the sites of the condition and the body once more.
    have hbody : Placed
        ((trail (path ++ [1]) b).andThen (rec b) fun _ => trailWhile rec trail path c b turns)
        ((log b).andThen (rec b) fun _ => logWhile rec log c b turns)
        (b.sites (path ++ [1]) ++ (Expr.loop c b).sites path) := (h _ b).andThen fun _ => ih
    have hturn : Placed (trailWhile rec trail path c b (turns + 1))
        (logWhile rec log c b (turns + 1))
        (c.sites (path ++ [0]) ++ (b.sites (path ++ [1]) ++ (Expr.loop c b).sites path)) :=
      (h _ c).andThen fun _ => .ite hbody (.none _)
    refine hturn.mono ?_
    rw [Expr.sites]
    simp

theorem stepTrail_placed (m : Machine) (turns : Nat) (path : Path) (e : Expr) :
    Placed (stepTrail rec trail m turns path e) (stepLog rec log m turns e) (e.sites path) := by
  cases e with
  | number | text | bool | ref => exact .none _
  | assign name value =>
    refine (h _ value).andThen fun v s => ?_
    simp
  | binary op l r => exact (h _ l).andThen fun _ => h _ r
  | call name args =>
    have hcallee : Placed .none .none [] := .none _
    exact hcallee.andThen fun _ => trailAll_placed h path 0 args
  | ite c t f =>
    refine (h _ c).andThen fun v => .ite ?_ ?_
    · exact (h _ t).mono (List.subset_append_left ..)
    · exact (h _ f).mono (List.subset_append_right ..)
  | loop c b => exact trailWhile_placed h path c b turns
  | seq bodies => exact trailAll_placed h path 0 bodies
  | list elems => exact trailAll_placed h path 0 elems
  | dict entries => exact trailEntries_placed h path 0 entries

end

/-- The places of an evaluation are those of its assignments, and the text assigns the names there.
-/
theorem places_placed (m : Machine) (turns depth : Nat) (path : Path) (e : Expr) :
    Placed (places m turns depth path e) (writes m turns depth e) (e.sites path) := by
  induction depth generalizing path e with
  | zero => exact .none _
  | succ depth ih => exact .ite (.none _) (stepTrail_placed ih m turns path e)

end TreeLang.Exec
