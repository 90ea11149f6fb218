import TreeLang.Proofs.Sample.Typing
import TreeLang.Proofs.Soundness.Calls

/-!
# Samples run

Every expression that is drawn gives a value of its kind and keeps the variables (`Shape.runs`), if
the bound on nesting leaves room for its levels: two for each, and three more for a leaf or for the
body of a function. Main statement: `Sampled.runProgram`, by which a whole sample gives a value; with
the reading and the typing of samples this is all that is promised of them.
-/

namespace TreeLang

/-- Every run has to give a value. -/
def Endings.none : Endings := ⟨fun _ => False, False⟩

namespace Sample

open Document (Item)

/-- The machine that runs samples. -/
def machine : Machine := Machine.initial.defineAll definitions

theorem eval_machine (turns depth : Nat) (e : Expr) :
    Exec.eval machine turns (depth + 1) e =
      Exec.step machine turns (Exec.eval machine turns depth) e := by
  rw [Exec.eval, if_neg]
  decide

/-- The variables have values of their kinds. -/
def Holds (vars : Vars) : Table Value → Prop :=
  Binds (fun kind v => v.Fits machine.Knows kind.type) vars

/-- The evaluation gives a value of the type and keeps the variables. -/
abbrev Gives (P : Table Value → Prop) (x : Exec Value) (t : Ty) : Prop :=
  Exec.GivesType Endings.none P machine x t

/-! ## Functions -/

section Functions

variable {turns depth : Nat} {frame : Table Value}

theorem gives_param {name : String} {t : Ty} {v : Value} (hget : frame.get? name = some v)
    (hv : v.Fits machine.Knows t) :
    Gives (· = frame) (Exec.eval machine turns (depth + 1) (.ref name)) t := by
  rw [eval_machine]
  refine Exec.GivesType.ref ?_
  rintro _ rfl
  exact ⟨v, hget, hv⟩

theorem gives_number {P : Table Value → Prop} (x : Float) :
    Gives P (Exec.eval machine turns (depth + 1) (.number x)) .number := by
  rw [eval_machine]
  exact Exec.GivesType.number x

/-- The body of every function gives the declared result. -/
theorem definition_gives {d : FunctionDef} (hd : d ∈ definitions) {args : List Value}
    (hargs : List.Forall₂ (Value.Fits machine.Knows) args d.signature.params)
    (caller : Table Value) :
    Gives (· = Scoping.static.callFrame caller d.paramNames args)
      (Exec.eval machine turns (depth + 2) d.body) d.result := by
  rw [eval_machine]
  simp only [definitions, List.mem_cons, List.not_mem_nil, or_false] at hd
  rcases hd with rfl | rfl | rfl | rfl
  · rcases forall₂_two hargs with ⟨a, b, rfl, ha, hb⟩
    exact .binary (gives_param rfl ha) (gives_param rfl hb) (.numeric (by simp))
  · rcases forall₂_one hargs with ⟨n, rfl, hn⟩
    exact .binary (gives_param rfl hn) (gives_number _) (.numeric (by simp))
  · rcases forall₂_one hargs with ⟨n, rfl, hn⟩
    exact .binary (gives_param rfl hn) (gives_number _) (.comparison (by simp))
  · rcases forall₂_one hargs with ⟨s, rfl, hs⟩
    exact .callPlain (p := .toUpperCase) (τ := .var) (fun _ _ h => h) rfl rfl
      (.cons (gives_param rfl hs) .nil)

theorem bodies_meet : BodiesMeet Endings.none machine (Exec.eval machine turns (depth + 2)) := by
  rintro f ⟨name, hf⟩ args caller hargs
  have hmem := (Machine.holds_defineAll (m := Machine.initial) rfl definitions name f hf).1
  exact (definition_gives hmem hargs caller).post fun v f hv => hv.2

end Functions

/-! ## Expressions -/

section Expressions

variable {vars : Vars} {turns depth : Nat}

/-- A call of a function of one argument. -/
theorem gives_unary {name : String} {k kind : Kind} (hname : (name, k, kind) ∈ unary) {e : Expr}
    {P : Table Value → Prop}
    (he : Gives P (Exec.eval machine turns (depth + 2) e) k.type) :
    Gives P (Exec.eval machine turns (depth + 3) (.call name [e])) kind.type := by
  rw [eval_machine]
  simp only [Sample.unary, List.mem_cons, List.not_mem_nil, or_false, Prod.mk.injEq] at hname
  rcases hname with ⟨rfl, rfl, rfl⟩ | ⟨rfl, rfl, rfl⟩ | ⟨rfl, rfl, rfl⟩ | ⟨rfl, rfl, rfl⟩ |
    ⟨rfl, rfl, rfl⟩
  · refine .callBuiltin (p := .len) (fun _ _ h => h) rfl (.cons he .nil) (fun _ vs hvs => ?_)
      (by simp)
    cases hvs with
    | cons hv hrest =>
      cases hrest
      rcases Value.fits_text_iff.mp hv with ⟨s, id, rfl⟩
      exact Primitive.givesType_of_pureResult rfl rfl
  · exact .callUser (u := ⟨1, twice⟩) (fun _ _ h => h) rfl bodies_meet rfl (.cons he .nil)
  · exact .callUser (u := ⟨3, shout⟩) (fun _ _ h => h) rfl bodies_meet rfl (.cons he .nil)
  · exact .callPlain (p := .not) (τ := .var) (fun _ _ h => h) rfl rfl (.cons he .nil)
  · exact .callUser (u := ⟨2, positive⟩) (fun _ _ h => h) rfl bodies_meet rfl (.cons he .nil)

/-- A reference to a function, which no variable hides. -/
theorem gives_function {name : String} {u : UserFunction}
    (hu : machine.functions.get? name = some u) (hname : name.toList.head? ≠ some 'v') :
    Exec.Ensures Endings.none (Holds vars) (Exec.eval machine turns (depth + 1) (.ref name))
      fun v f => Holds vars f ∧ v = .function u := by
  intro s hs
  have hfun : machine.function? name = some (.function u) := by simp [Machine.function?, hu]
  simpa only [eval_machine, Exec.step, Exec.reference, hs.get?_none hname, hfun, and_true] using hs

/-- A call of a function of the sample by a builtin function. -/
theorem gives_callback {name : String} {u : UserFunction}
    (hu : machine.functions.get? name = some u) {P : Table Value → Prop} {level : Nat}
    {vs : List Value}
    (hvs : List.Forall₂ (Value.Fits machine.Knows) vs u.definition.signature.params) :
    Gives P (Exec.apply machine (Exec.eval machine turns (depth + 2)) level (.function u) vs)
      u.definition.result := by
  rw [Exec.apply]
  exact callUser_fits rfl bodies_meet ⟨name, hu⟩ hvs

section Lists

variable {e start : Expr}
  (he : Gives (Holds vars) (Exec.eval machine turns (depth + 2) e) (.list .number))
include he

theorem gives_map :
    Gives (Holds vars) (Exec.eval machine turns (depth + 3) (.call "map" [e, .ref "twice"]))
      (.list .number) := by
  have htwice : machine.functions.get? "twice" = some ⟨1, twice⟩ := rfl
  rw [eval_machine]
  refine .callBuiltin (p := .map) (fun _ _ h => h) rfl
    (.cons he (.cons (gives_function htwice (by decide)) .nil)) (fun level vs hvs => ?_) (by simp)
  rcases forall₂_two hvs with ⟨a, f, rfl, ha, rfl⟩
  rcases Value.fits_list_iff.mp ha with ⟨xs, id, rfl, hxs⟩
  exact Primitive.run_map rfl fun x hx => gives_callback htwice (.cons (hxs x hx) .nil)

theorem gives_filter :
    Gives (Holds vars) (Exec.eval machine turns (depth + 3) (.call "filter" [e, .ref "positive"]))
      (.list .number) := by
  have hpositive : machine.functions.get? "positive" = some ⟨2, positive⟩ := rfl
  rw [eval_machine]
  refine .callBuiltin (p := .filter) (fun _ _ h => h) rfl
    (.cons he (.cons (gives_function hpositive (by decide)) .nil)) (fun level vs hvs => ?_)
    (by simp)
  rcases forall₂_two hvs with ⟨a, f, rfl, ha, rfl⟩
  rcases Value.fits_list_iff.mp ha with ⟨xs, id, rfl, hxs⟩
  exact Primitive.run_filter rfl hxs fun x hx => gives_callback hpositive (.cons (hxs x hx) .nil)

theorem gives_reduce
    (hstart : Gives (Holds vars) (Exec.eval machine turns (depth + 2) start) .number) :
    Gives (Holds vars)
      (Exec.eval machine turns (depth + 3) (.call "reduce" [e, .ref "plus", start])) .number := by
  have hplus : machine.functions.get? "plus" = some ⟨0, plus⟩ := rfl
  rw [eval_machine]
  refine .callBuiltin (p := .reduce) (fun _ _ h => h) rfl
    (.cons he (.cons (gives_function hplus (by decide)) (.cons hstart .nil)))
    (fun level vs hvs => ?_) (by simp)
  rcases forall₂_three hvs with ⟨a, f, x, rfl, ha, rfl, hx⟩
  rcases Value.fits_list_iff.mp ha with ⟨xs, id, rfl, hxs⟩
  exact Primitive.run_reduce rfl
    (fun acc hacc y hy => gives_callback hplus (.cons hacc (.cons (hxs y hy) .nil))) hx

end Lists

theorem exists_depth {n depth : Nat} (h : 2 * (n + 1) ≤ depth) : ∃ k, depth = k + 2 ∧ 2 * n ≤ k :=
  ⟨depth - 2, by omega, by omega⟩

/-- What is drawn for a kind gives a value of its type. -/
theorem Shape.runs {n : Nat} {kind : Kind} {i : Item} {e : Expr} (h : Shape vars n kind i e)
    (hdepth : 2 * n ≤ depth) :
    Gives (Holds vars) (Exec.eval machine turns (depth + 3) e) kind.type := by
  induction h generalizing depth with
  | number _ => exact gives_number _
  | text =>
    rw [eval_machine]
    exact .text _
  | bool =>
    rw [eval_machine]
    exact .bool _
  | pair _ _ =>
    rw [eval_machine]
    exact .list (by simp [gives_number])
  | ref hname =>
    rw [eval_machine]
    exact .ref fun f hf => hf.bound hname
  | arithmetic hop _ _ iha ihb =>
    rcases exists_depth hdepth with ⟨k, rfl, hk⟩
    rw [eval_machine]
    exact .binary (iha (by omega)) (ihb (by omega)) (.numeric hop)
  | append _ _ iha ihb =>
    rcases exists_depth hdepth with ⟨k, rfl, hk⟩
    rw [eval_machine]
    exact .binary (iha (by omega)) (ihb (by omega)) .text
  | comparison hop _ _ iha ihb =>
    rcases exists_depth hdepth with ⟨k, rfl, hk⟩
    rw [eval_machine]
    exact .binary (iha (by omega)) (ihb (by omega)) (comparison_types hop _ _)
  | choice _ _ _ ihc iht ihf =>
    rcases exists_depth hdepth with ⟨k, rfl, hk⟩
    rw [eval_machine]
    exact .ite (ihc (by omega)) (iht (by omega)) (ihf (by omega))
  | triple _ _ _ iha ihb ihc =>
    rcases exists_depth hdepth with ⟨k, rfl, hk⟩
    rw [eval_machine]
    refine .list ?_
    simp only [List.forall_mem_cons]
    exact ⟨iha (by omega), ihb (by omega), ihc (by omega), List.forall_mem_nil _⟩
  | unary hname _ iha =>
    rcases exists_depth hdepth with ⟨k, rfl, hk⟩
    exact gives_unary hname (iha (by omega))
  | both _ _ iha ihb =>
    rcases exists_depth hdepth with ⟨k, rfl, hk⟩
    rw [eval_machine]
    exact .callPlain (p := .and) (τ := .var) (fun _ _ h => h) rfl rfl
      (.cons (iha (by omega)) (.cons (ihb (by omega)) .nil))
  | rejoin _ iha =>
    rcases exists_depth hdepth with ⟨k, rfl, hk⟩
    have htext : ∀ depth x,
        Gives (Holds vars) (Exec.eval machine turns (depth + 1) (.text x)) .text := by
      intro depth x
      rw [eval_machine]
      exact .text x
    rw [eval_machine]
    -- A call in a call: this is why every level of a sample takes two of the bound.
    refine .callPlain (p := .join) (τ := .var) (fun _ _ h => h) rfl rfl
      (.cons ?_ (.cons (htext _ _) .nil))
    rw [eval_machine]
    exact .callPlain (p := .split) (τ := .var) (fun _ _ h => h) rfl rfl
      (.cons (iha hk) (.cons (htext _ _) .nil))
  | map _ iha =>
    rcases exists_depth hdepth with ⟨k, rfl, hk⟩
    exact gives_map (iha (by omega))
  | filter _ iha =>
    rcases exists_depth hdepth with ⟨k, rfl, hk⟩
    exact gives_filter (iha (by omega))
  | reduce _ _ iha ihb =>
    rcases exists_depth hdepth with ⟨k, rfl, hk⟩
    exact gives_reduce (iha (by omega)) (ihb (by omega))

end Expressions

/-! ## Programs -/

theorem Steps.runs {i turns depth : Nat} {vars vars' : Vars} {items : List Item} {es : List Expr}
    (h : Steps i vars items es vars') (hvars : vars.Below i) (hdepth : 2 * levels ≤ depth)
    {rest : List Expr} {Q : Value → Table Value → Prop}
    (hrest : ∀ last, Exec.Ensures Endings.none (Holds vars')
      (Exec.evalSeq (Exec.eval machine turns (depth + 4)) rest last) Q) (last : Value) :
    Exec.Ensures Endings.none (Holds vars)
      (Exec.evalSeq (Exec.eval machine turns (depth + 4)) (es ++ rest) last) Q := by
  induction h generalizing last with
  | nil => exact hrest last
  | @cons i vars _ kind _ e _ _ hvalue _ ih =>
    -- An assignment takes one more level than its value.
    have hassign : Exec.Ensures Endings.none (Holds vars)
        (Exec.eval machine turns (depth + 4) (.assign (variableName i) e))
        fun _ f => Holds (vars ++ [(kind, variableName i)]) f := by
      rw [eval_machine]
      refine (hvalue.runs hdepth).bind_kept fun v hv => ?_
      exact Exec.Ensures.assign fun f hf => hf.insert hvars hv
    rw [List.cons_append, Exec.evalSeq_cons]
    exact hassign.bind fun v => ih (hvars.snoc kind) hrest v

/-- The expressions of a sample give a value of its kind. -/
theorem Sampled.runs {d : Draft} {kind : Kind} {es : List Expr} (h : Sampled d kind es)
    {turns depth : Nat} (hdepth : 2 * levels ≤ depth) (last : Value) :
    Exec.Ensures Endings.none (Holds [])
      (Exec.evalSeq (Exec.eval machine turns (depth + 4)) es last) fun v _ =>
        v.Fits machine.Knows kind.type := by
  cases h with
  | intro hsteps hlast =>
    refine hsteps.runs (fun _ _ h => absurd h List.not_mem_nil) hdepth (fun last => ?_) last
    rw [Exec.evalSeq_cons]
    exact (hlast.runs (by omega)).bind_kept fun v hv => Exec.Ensures.pure fun _ _ => hv

/-- The run-time type of a value matches the type of its kind. -/
theorem Kind.matches_runtimeType {known : Value → Prop} {kind : Kind} {v : Value}
    (h : v.Fits known kind.type) :
    ∃ b, Ty.matchTypes? kind.type v.runtimeType ∅ = some (true, b) := by
  cases kind with
  | number =>
    rcases Value.fits_number_iff.mp h with ⟨x, id, rfl⟩
    exact ⟨_, rfl⟩
  | text =>
    rcases Value.fits_text_iff.mp h with ⟨s, id, rfl⟩
    exact ⟨_, rfl⟩
  | boolean =>
    rcases Value.fits_boolean_iff.mp h with ⟨b, id, rfl⟩
    exact ⟨_, rfl⟩
  | numberList =>
    rcases Value.fits_list_iff.mp h with ⟨elems, id, rfl, helems⟩
    cases elems with
    -- An empty list has a type variable for its elements, which matches every type.
    | nil => exact ⟨_, rfl⟩
    | cons v vs =>
      rcases Value.fits_number_iff.mp (helems v (by simp)) with ⟨x, id', rfl⟩
      exact ⟨_, rfl⟩

/-- A sample gives a value of its kind, whatever the channels are. -/
theorem Sampled.runProgram {d : Draft} {kind : Kind} {es : List Expr} (h : Sampled d kind es)
    (file : String) (turns : Nat) (channels : Channels) :
    ∃ v s, Machine.initial.runProgram turns ⟨file, definitions, es⟩ { channels } = (.value v, s) ∧
      v.Fits machine.Knows kind.type := by
  have hempty : Holds [] ∅ := .empty fun _ => rfl
  have hexprs : Exec.Ensures Endings.none (Holds [])
      (Exec.evalSeq (machine.evalExpr turns) es .nil)
      fun v _ => v.Fits machine.Knows kind.type := by
    -- The default bound leaves far more room than the levels of a sample need.
    have hdepth : machine.evalExpr turns = Exec.eval machine turns (9996 + 4) := rfl
    rw [hdepth]
    exact h.runs (by decide) .nil
  have hrun : Exec.Ensures Endings.none (Holds [])
      (Machine.initial.runProgram turns ⟨file, definitions, es⟩) _ :=
    Exec.Ensures.runProgram (fun _ h => h) hexprs
  rcases hrun.outcome (s := { channels }) hempty with
    hvalue | ⟨_, _, _, hfault⟩ | ⟨_, _, hunfinished⟩
  · exact hvalue
  · exact absurd hfault id
  · exact absurd hunfinished id

/-- A decoder that finds what the text of a sample denotes makes it a program, which the checker
accepts at a type with the name of its kind, and which runs to a value of that type. -/
theorem sample_runs (bytes : List UInt8) (decode : Reader.Decoder) (g : Document.Graph)
    (file : String) (hdecode : decode (ofBytes bytes).1.source = .ok (some g))
    (hdenotes : g.root.denotes (ofBytes bytes).1.item = true) :
    ∃ program t, Reader.readProgramBy decode (ofBytes bytes).1.source file = .ok program ∧
      (∀ supply, (({ supply } : Checker).checkProgram program).1 = .ok t) ∧
      t.render = (ofBytes bytes).2.name ∧
      ∀ turns channels, ∃ v s b,
        Machine.initial.runProgram turns program { channels } = (.value v, s) ∧
          Ty.matchTypes? t v.runtimeType ∅ = some (true, b) := by
  rcases program_shape bytes with ⟨es, hsample⟩
  refine ⟨⟨file, definitions, es⟩, (ofBytes bytes).2.type, ?_, fun supply => ?_, ?_, ?_⟩
  · exact readProgramBy_sample hsample hdecode hdenotes file
  · exact Checker.checkProgram_iff.mpr (hsample.typed file supply)
  · cases (ofBytes bytes).2 <;> rfl
  · intro turns channels
    rcases hsample.runProgram file turns channels with ⟨v, s, hrun, hv⟩
    rcases Kind.matches_runtimeType hv with ⟨b, hb⟩
    exact ⟨v, s, b, hrun, hb⟩

/-- Assigns a list and adds up the doubles of its elements. -/
def summing : List UInt8 := [0, 3, 0, 4, 3, 0, 1, 3, 1, 0, 0, 0, 0]

/-- Finds the node tree of the text of `summing`, and reads all other texts. -/
def summingDecoder : Reader.Decoder := fun text =>
  if text = (ofBytes summing).1.source then .ok (some ⟨(ofBytes summing).1.item.nodeAt 1, []⟩)
  else Document.read text

theorem summing_runs :
    ∃ program t,
      Reader.readProgramBy summingDecoder (ofBytes summing).1.source "gen.json" = .ok program ∧
      (∀ supply, (({ supply } : Checker).checkProgram program).1 = .ok t) ∧ t.render = "Number" ∧
      ∀ turns channels, ∃ v s b,
        Machine.initial.runProgram turns program { channels } = (.value v, s) ∧
          Ty.matchTypes? t v.runtimeType ∅ = some (true, b) :=
  sample_runs summing summingDecoder _ "gen.json" (if_pos rfl) (Item.denotes_nodeAt 1 _)

end Sample

end TreeLang
