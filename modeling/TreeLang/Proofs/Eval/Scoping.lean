import TreeLang.Proofs.Eval.Lockstep
import TreeLang.Proofs.Names.Programs

/-!
# The two scoping policies

Under the dynamic policy a called function sees the variables of its caller as well. When variables
and functions have different names, a name that a function finds under the static policy means the
same under the dynamic one, so a run that finds all its names is the same run under both policies
(`dynamic_run_eq`). In called functions the variables under the dynamic policy are those under the
static one and more; at the top they are the same.
-/

namespace TreeLang

/-- The names of parameters and of assigned variables in a program. -/
def Program.variableNames (p : Program) : List String :=
  (p.defs.flatMap fun d => d.paramNames ++ d.body.assigned .some) ++
    Expr.assignedAll .some p.exprs

/-- No variable has the name of a function. -/
def Program.separate (p : Program) : Bool := p.variableNames.all fun x => !p.isFunction x

/-! ## Variables -/

/-- The second variables are the first ones and more, and none has the name of a function. -/
structure Widens (m : Machine) (f f' : Table Value) : Prop where
  found : ∀ x v, f.get? x = some v → v.Closed m.Knows ∧ f'.get? x = some v
  separate : ∀ x v, f'.get? x = some v → m.function? x = none

namespace Widens

variable {m : Machine} {f f' : Table Value}

theorem insert (h : Widens m f f') {x : String} (hx : m.function? x = none) {v : Value}
    (hv : v.Closed m.Knows) : Widens m (f.insert x v) (f'.insert x v) := by
  constructor
  · intro y w hy
    rw [Table.get?_insert] at hy ⊢
    by_cases hxy : x = y
    · rw [if_pos hxy] at hy ⊢
      cases hy
      exact ⟨hv, rfl⟩
    · rw [if_neg hxy] at hy ⊢
      exact h.found y w hy
  · intro y w hy
    rw [Table.get?_insert] at hy
    by_cases hxy : x = y
    · rw [← hxy]
      exact hx
    · rw [if_neg hxy] at hy
      exact h.separate y w hy

/-- A static call starts without variables, a dynamic one with those of its caller. -/
theorem empty (h : Widens m f f') : Widens m ∅ f' := by
  refine ⟨?_, h.separate⟩
  intro x v hx
  cases hx

end Widens

/-! ## Machines -/

/-- A static machine in whose functions no variable has the name of a function. -/
structure SeparateMachine (m : Machine) : Prop where
  static : m.scoping = .static
  builtins : m.builtins = Machine.prelude
  names : ∀ {g : UserFunction}, m.Knows (.function g) →
    ∀ x ∈ g.definition.paramNames ++ g.definition.body.assigned .some, m.function? x = none

namespace SeparateMachine

variable {m : Machine}

/-- The two policies are compared on runs that miss no name. -/
def course (m : Machine) : Course where
  recast := .id
  excused d := ¬d.code.IsNamed
  assignable x := m.function? x = none

theorem bears (hm : SeparateMachine m) {R : Table Value → Table Value → Prop}
    (hwidens : ∀ {f f'}, R f f' → Widens m f f')
    (hassign : ∀ {f f' x v}, R f f' → m.function? x = none → v.Closed m.Knows →
      R (f.insert x v) (f'.insert x v)) :
    (course m).Bears m { m with scoping := .dynamic } R (Widens m) where
  found {f f' x v} h hx := by
    rw [course, Value.recast_id]
    exact (hwidens h).found x v hx
  missing {f f' x} h hx := by
    cases hx' : f'.get? x with
    | none => exact .inl rfl
    | some w => exact .inr ⟨(hwidens h).separate x w hx', fun _ hd => hd⟩
  assign h hx hv := by
    rw [course, Value.recast_id]
    exact hassign h hx hv
  call h := by
    rw [hm.static]
    exact (hwidens h).empty

/-- The machine runs in lockstep with itself under the dynamic policy. -/
def lockstep (hm : SeparateMachine m) : Lockstep m { m with scoping := .dynamic } where
  toCourse := course m
  inner := Widens m
  inner_bears := hm.bears (fun h => h) fun h hx hv => h.insert hx hv
  function? x := by
    rw [course, funext Value.recast_id, Option.map_id']
    rfl
  known := Machine.function?_closed hm.builtins
  cancelled := rfl
  withNode node hd := by simpa [course] using hd
  assigns := hm.names

theorem bears_top (hm : SeparateMachine m) :
    hm.lockstep.Bears fun f f' => Widens m f f' ∧ f' = f := by
  apply hm.bears
  · intro f f' h
    exact h.1
  · rintro f _ x v ⟨hf, rfl⟩ hx hv
    exact ⟨hf.insert hx hv, rfl⟩

/-- A run of expressions that misses no name is the same under the dynamic policy. -/
theorem runExprs_eq (hm : SeparateMachine m) {p : Program}
    (hassigned : ∀ x ∈ Expr.assignedAll .some p.exprs, m.function? x = none) (turns : Nat)
    (channels : Channels)
    (hnamed : ∀ code ∈ (m.runExprs turns p { channels }).1.code?, code.IsNamed) :
    Machine.runExprs { m with scoping := .dynamic } turns p { channels } =
      m.runExprs turns p { channels } := by
  have htracks := hm.lockstep.runExprs_tracks hm.bears_top rfl (p := p)
    (fun d hd => by simpa [lockstep, course] using hd) hassigned turns
  have hstart : Widens m ∅ ∅ := ⟨nofun, nofun⟩
  have hends := htracks { channels } { channels } ⟨⟨hstart, rfl⟩, rfl, rfl⟩
  generalize m.runExprs turns p { channels } = ended,
    Machine.runExprs { m with scoping := .dynamic } turns p { channels } = ended' at *
  rcases ended with ⟨r, ⟨frame, channels, made⟩⟩
  rcases ended' with ⟨r', ⟨frame', channels', made'⟩⟩
  rcases hends with ⟨d, rfl, hd⟩ | ⟨hr, ⟨-, rfl⟩, rfl, rfl⟩
  · exact absurd (hnamed d.code rfl) hd
  · have hsame : Outcome.Rel (fun v w => w = v) r r' :=
      hr.mono fun v w h => h.2.trans v.recast_id
    cases hsame with
    | value h => rw [h]
    | _ => rfl

end SeparateMachine

/-! ## Programs -/

theorem Machine.defineAll_scoping (m : Machine) (s : Scoping) (defs : List FunctionDef) :
    Machine.defineAll { m with scoping := s } defs = { m.defineAll defs with scoping := s } := by
  induction defs generalizing m with
  | nil => rfl
  | cons d defs ih => exact ih (m.define d)

theorem Program.separate_iff {p : Program} :
    p.separate = true ↔
      (∀ d ∈ p.defs, ∀ x ∈ d.paramNames ++ d.body.assigned .some, p.isFunction x = false) ∧
        ∀ x ∈ Expr.assignedAll .some p.exprs, p.isFunction x = false := by
  simp only [separate, variableNames, List.all_append, Bool.and_eq_true, List.all_flatMap,
    List.all_eq_true, Bool.not_eq_true', List.forall_mem_append]

/-- A name that is not that of a function leads to none. -/
theorem Program.function?_eq_none {m : Machine} {p : Program} (hempty : m.functions = ∅)
    (hbuiltins : m.builtins = Machine.prelude) {name : String} (h : p.isFunction name = false) :
    (m.defineAll p.defs).function? name = none := by
  rw [p.isFunction_eq hempty hbuiltins, Option.isSome_eq_false_iff] at h
  exact Option.isNone_iff_eq_none.mp h

/-- A machine without functions of its own, for a program that keeps its names apart. -/
theorem separateMachine_defineAll {m : Machine} {p : Program} (hempty : m.functions = ∅)
    (hstatic : m.scoping = .static) (hbuiltins : m.builtins = Machine.prelude)
    (hseparate : p.separate = true) : SeparateMachine (m.defineAll p.defs) := by
  refine ⟨(m.scoping_defineAll _).trans hstatic, (m.builtins_defineAll _).trans hbuiltins, ?_⟩
  rintro g ⟨name, hg⟩ x hx
  have hmem := (Machine.holds_defineAll hempty p.defs name g hg).1
  exact Program.function?_eq_none hempty hbuiltins
    ((Program.separate_iff.mp hseparate).1 _ hmem x hx)

/-- In a program whose variables do not share names with functions, a run under the static policy
that finds all its names is the same run under the dynamic one: the same ending, and the same
variables and channels after it. -/
theorem dynamic_run_eq (p : Program) (maxDepth turns : Nat) (cancelled : Bool)
    (channels : Channels) (hseparate : p.separate = true)
    (hnamed : ∀ code ∈ ({ Machine.initial with scoping := .static, maxDepth, cancelled }.runProgram
      turns p { channels }).1.code?, code.IsNamed) :
    { Machine.initial with scoping := .dynamic, maxDepth, cancelled }.runProgram turns p
        { channels } =
      { Machine.initial with scoping := .static, maxDepth, cancelled }.runProgram turns p
        { channels } := by
  let m : Machine := { Machine.initial with scoping := .static, maxDepth, cancelled }
  have hm : SeparateMachine (m.defineAll p.defs) := separateMachine_defineAll rfl rfl rfl hseparate
  have hassigned : ∀ x ∈ Expr.assignedAll .some p.exprs,
      (m.defineAll p.defs).function? x = none := by
    intro x hx
    exact Program.function?_eq_none rfl rfl ((Program.separate_iff.mp hseparate).2 x hx)
  have heq := hm.runExprs_eq hassigned turns channels hnamed
  rw [← Machine.defineAll_scoping] at heq
  exact heq

/-- Calls a function back for each element. Under the dynamic policy it sees `names` as well. -/
def greeting : Program where
  defs :=
    [{ name := "greet"
       params := [{ name := "name" }]
       body := .seq
        [.assign "line" (.binary .add (.text "hello ") (.ref "name")),
          .call "print" [.ref "line"]] }]
  exprs :=
    [.assign "names" (.list [.text "ada", .text "bob"]), .call "map" [.ref "names", .ref "greet"]]

theorem greeting_run_eq :
    greeting.separate = true ∧
      { Machine.initial with scoping := .dynamic }.runProgram 0 greeting {} =
        Machine.initial.runProgram 0 greeting {} := by
  have hseparate : greeting.separate = true := by decide +kernel
  have hnamed : (Machine.initial.runProgram 0 greeting {}).1.code? = none := by decide +kernel
  refine ⟨hseparate, dynamic_run_eq greeting 0 0 false {} hseparate ?_⟩
  intro code hcode
  change code ∈ (Machine.initial.runProgram 0 greeting {}).1.code? at hcode
  rw [hnamed] at hcode
  cases hcode

end TreeLang
