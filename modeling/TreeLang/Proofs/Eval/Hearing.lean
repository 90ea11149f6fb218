import TreeLang.Proofs.Eval.Triples
import TreeLang.Proofs.Text.Lines

/-!
# The lines that a run reads

`hearing` lists what the calls of `input` in an evaluation answer, in order. It goes the way of the
evaluator, through function bodies and callbacks too, and stops where the evaluation does. Main
statement: `eval_hears`. As long as the input does not fail, the list has the next lines of what was
still to be read, one for each call, and the octets behind them are still to be read afterwards.
The same holds of a program (`runExprs_hears`) and of a call from outside (`apply_hears`).
-/

namespace TreeLang

open Text (Octets firstLines behindLines lineAt)

/-! ## Channels -/

namespace Channels

/-- The octets that are still to be read: what the reader has not given out, or the whole source if
there is no reader yet. -/
def pending (c : Channels) : Octets := (c.reader.getD { stream := c.source }).unread

/-- The next lines have been read, and nothing else has happened to the input. A reader is there
after the first line. -/
structure Heard (c : Channels) (ls : List String) (c' : Channels) : Prop where
  works : c'.inFailure = none
  source : c'.source = c.source
  lines : ls = firstLines ls.length c.pending
  pending : c'.pending = behindLines ls.length c.pending
  reader : c'.reader = none ↔ c.reader = none ∧ ls = []

namespace Heard

variable {c c' c'' : Channels} {ls ls' : List String}

theorem nothing (h : c.inFailure = none) (hfailure : c'.inFailure = c.inFailure)
    (hsource : c'.source = c.source) (hreader : c'.reader = c.reader) : c.Heard [] c' := by
  constructor
  · rw [hfailure, h]
  · exact hsource
  · rfl
  · rw [Channels.pending, hreader, hsource]
    rfl
  · simp [hreader]

theorem refl (h : c.inFailure = none) : c.Heard [] c := nothing h rfl rfl rfl

theorem append (h : c.Heard ls c') (h' : c'.Heard ls' c'') : c.Heard (ls ++ ls') c'' := by
  constructor
  · exact h'.works
  · rw [h'.source, h.source]
  · rw [List.length_append, Text.firstLines_add, ← h.pending, ← h.lines, ← h'.lines]
  · rw [List.length_append, Text.behindLines_add, ← h.pending, h'.pending]
  · rw [h'.reader, h.reader, List.append_eq_nil_iff, and_assoc]

end Heard

end Channels

namespace Exec

variable {α β : Type}

/-! ## Hearing -/

/-- The lines that an evaluation reads, from each state. -/
abbrev Hearing := RunState → List String

/-- Whatever the outcome, the evaluation reads these lines and nothing else. -/
def Hears (x : Exec α) (l : Hearing) : Prop :=
  ∀ s : RunState, s.channels.inFailure = none → s.channels.Heard (l s) (x s).2.channels

/-- Nothing is read. -/
def Hearing.none : Hearing := fun _ => []

/-- The lines of one evaluation and, if it has a value, those of the next. -/
def Hearing.andThen (l : Hearing) (x : Exec α) (k : α → Hearing) : Hearing := fun s =>
  l s ++ match x s with
    | (.value a, s) => k a s
    | _ => []

theorem Hearing.andThen_none (l : Hearing) (x : Exec α) :
    (l.andThen x fun _ => .none) = l := by
  funext s
  unfold Hearing.andThen
  split
  · exact List.append_nil _
  · exact List.append_nil _

namespace Hears

theorem pure {a : α} : Hears (Exec.pure a) .none := fun _ h => .refl h

theorem fault {d : Diagnostic} : Hears (Exec.fault d : Exec α) .none := fun _ h => .refl h

theorem make {v : Value} : Hears (Exec.make v) .none := fun _ h => .refl h

theorem assign {name : String} {v : Value} : Hears (Exec.assign name v) .none :=
  fun _ h => .refl h

theorem bind {x : Exec α} {l : Hearing} {f : α → Exec β} {k : α → Hearing} (hx : Hears x l)
    (hf : ∀ a, Hears (f a) (k a)) : Hears (x >>= f) (l.andThen x k) := by
  intro s hs
  have hfirst := hx s hs
  change s.channels.Heard _ (Exec.bind x f s).2.channels
  unfold Exec.bind Hearing.andThen
  rcases hrun : x s with ⟨r, s'⟩
  rw [hrun] at hfirst
  cases r with
  | value a =>
    -- The second evaluation goes on with the lines that the first one has left.
    exact hfirst.append (hf a s' hfirst.works)
  | fault | crash | unfinished =>
    rw [List.append_nil]
    exact hfirst

theorem onFault {g : Diagnostic → Diagnostic} {x : Exec α} {l : Hearing} (hx : Hears x l) :
    Hears (Exec.onFault g x) l := by
  intro s hs
  have hread := hx s hs
  unfold Exec.onFault
  rcases hrun : x s with ⟨r, s'⟩
  rw [hrun] at hread
  cases r with
  | value | fault | crash | unfinished => exact hread

theorem ite {c : Prop} [Decidable c] {x y : Exec α} {l k : Hearing} (hx : Hears x l)
    (hy : Hears y k) : Hears (if c then x else y) (if c then l else k) := by
  split
  · exact hx
  · exact hy

/-- What follows reads nothing more. -/
theorem last {x : Exec α} {l : Hearing} {f : α → Exec β} (hx : Hears x l)
    (hf : ∀ a, Hears (f a) .none) : Hears (x >>= f) l := by
  have hbind := hx.bind hf
  rwa [Hearing.andThen_none] at hbind

/-- Other variables do not matter for the input. -/
theorem within {vars : RunState → Table Value} {x : Exec α} {l : Hearing} (hx : Hears x l) :
    Hears (Exec.within vars x) fun s => l { s with frame := vars s } :=
  fun s hs => hx { s with frame := vars s } hs

end Hears

/-! ## Builtin functions -/

/-- The answer of a call of `input`. -/
def hearInput : Hearing := fun s =>
  match (Primitive.input.run (fun _ _ => Exec.pure .nil) [] s).1 with
  | .value (.text line _) => [line]
  | _ => []

section

variable (call : List Value → Exec Value) (heard : List Value → Hearing)

/-- The lines that a function reads while it is called on each element. -/
def hearEach : List Value → Hearing
  | [] => .none
  | x :: xs => (heard [x]).andThen (call [x]) fun _ => hearEach xs

/-- The lines that a function reads while elements are folded. -/
def hearFold : List Value → (acc : Value) → Hearing
  | [], _ => .none
  | x :: xs, acc => (heard [acc, x]).andThen (call [acc, x]) fun v => hearFold xs v

end

/-- The lines that a builtin function reads; `heard` are those of the functions it calls. -/
def hearPrimitive (call : Value → List Value → Exec Value) (heard : Value → List Value → Hearing)
    (p : Primitive) (args : List Value) : Hearing :=
  match p, args with
  | .input, [] => hearInput
  | .map, [a, f] | .filter, [a, f] =>
    match p.asList a, p.asCallable f with
    | .ok xs, .ok f => hearEach (call f) (heard f) xs
    | _, _ => .none
  | .reduce, [a, f, start] =>
    match p.asList a, p.asCallable f with
    | .ok xs, .ok f => hearFold (call f) (heard f) xs start
    | _, _ => .none
  | _, _ => .none

/-- As long as the input does not fail, `input` answers with the next line. -/
theorem readLine_heard {s : RunState} (hs : s.channels.inFailure = none) :
    (readLine s).1 = .value (lineAt s.channels.pending 0) ∧
      s.channels.Heard [lineAt s.channels.pending 0] (readLine s).2.channels := by
  obtain ⟨hline, hrest⟩ :=
    Text.LineReader.line_unread (s.channels.reader.getD { stream := s.channels.source })
  unfold readLine
  rw [hs]
  dsimp only
  constructor
  · rw [hline, Text.lineAt_zero]
    rfl
  · constructor
    · exact hs
    · rfl
    · rfl
    · exact hrest
    · simp

theorem input_hears (call : Value → List Value → Exec Value) :
    Hears (Primitive.input.run call []) hearInput := by
  intro s hs
  obtain ⟨hvalue, hheard⟩ := readLine_heard hs
  change s.channels.Heard
    (match (Exec.bind readLine (fun line => Exec.pure (Value.text line .fresh)) s).1 with
      | .value (.text line _) => [line]
      | _ => [])
    (Exec.bind readLine (fun line => Exec.pure (Value.text line .fresh)) s).2.channels
  unfold Exec.bind
  rcases hrun : readLine s with ⟨r, s'⟩
  rw [hrun] at hvalue hheard
  dsimp only at hvalue hheard
  subst hvalue
  exact hheard

theorem printLine_hears (line : String) : Hears (printLine line) .none := by
  intro s hs
  unfold printLine
  split
  · exact .refl hs
  · exact .nothing hs rfl rfl rfl

theorem callHost_hears {host : Host} {id : Nat} {name : String} {args : List Value} :
    Hears (callHost host id name args) .none := by
  intro s hs
  unfold callHost
  dsimp only
  split <;> split <;> exact .nothing hs rfl rfl rfl

section

variable {call : List Value → Exec Value} {heard : List Value → Hearing}
  (h : ∀ vs, Hears (call vs) (heard vs))

include h

theorem mapElems_hears (xs done : List Value) :
    Hears (mapElems call xs done) (hearEach call heard xs) := by
  induction xs generalizing done with
  | nil => exact .pure
  | cons x xs ih =>
    rw [mapElems_cons]
    exact (h [x]).bind fun v => ih (v :: done)

theorem filterElems_hears (xs done : List Value) :
    Hears (filterElems call xs done) (hearEach call heard xs) := by
  induction xs generalizing done with
  | nil => exact .pure
  | cons x xs ih =>
    rw [filterElems_cons]
    exact (h [x]).bind fun v => ih _

theorem foldElems_hears (xs : List Value) (acc : Value) :
    Hears (foldElems call xs acc) (hearFold call heard xs acc) := by
  induction xs generalizing acc with
  | nil => exact .pure
  | cons x xs ih =>
    rw [foldElems_cons]
    exact (h [acc, x]).bind fun v => ih v

end

theorem ofRefusable_hears (r : Except Primitive.Refusal Value) : Hears (ofRefusable r) .none := by
  cases r with
  | ok v => exact .pure
  | error e => exact .fault

/-- A builtin function reads what `input` answers and what the functions read that it calls. -/
theorem primitive_hears {call : Value → List Value → Exec Value}
    {heard : Value → List Value → Hearing} (h : ∀ f vs, Hears (call f vs) (heard f vs))
    (p : Primitive) (args : List Value) :
    Hears (p.run call args) (hearPrimitive call heard p args) := by
  unfold Primitive.run hearPrimitive
  cases p with
  | print =>
    cases args with
    | nil => exact .fault
    | cons first rest => exact (printLine_hears _).last fun _ => .pure
  | input =>
    cases args with
    | nil => exact input_hears call
    | cons a rest => exact .fault
  | map =>
    match args with
    | [a, f] =>
      dsimp only [Primitive.pureResult]
      cases Primitive.map.asList a with
      | error e => exact .fault
      | ok xs =>
        cases Primitive.map.asCallable f with
        | error e => exact .fault
        | ok f => exact (mapElems_hears (h f) xs []).last fun _ => .pure
    | [] | [a] | a :: b :: c :: rest => exact .fault
  | filter =>
    match args with
    | [a, f] =>
      dsimp only [Primitive.pureResult]
      cases Primitive.filter.asList a with
      | error e => exact .fault
      | ok xs =>
        cases Primitive.filter.asCallable f with
        | error e => exact .fault
        | ok f => exact (filterElems_hears (h f) xs []).last fun _ => .pure
    | [] | [a] | a :: b :: c :: rest => exact .fault
  | reduce =>
    match args with
    | [a, f, start] =>
      dsimp only [Primitive.pureResult]
      cases Primitive.reduce.asList a with
      | error e => exact .fault
      | ok xs =>
        cases Primitive.reduce.asCallable f with
        | error e => exact .fault
        | ok f => exact foldElems_hears (h f) xs start
    | [] | [a] | [a, b] | a :: b :: c :: d :: rest => exact .fault
  | _ =>
    -- All others have a result or are refused without a look at the state.
    dsimp only
    split
    · exact ofRefusable_hears _
    · exact .pure

/-! ## Calls -/

/-- The lines that a user function reads; `heard` are those of its body. -/
def hearUser (m : Machine) (heard : Expr → Hearing) (f : UserFunction) (args : List Value) :
    Hearing :=
  let d := f.definition
  if args.length ≠ d.params.length then .none
  else fun s => heard d.body { s with frame := m.scoping.callFrame s.frame d.paramNames args }

/-- The lines that a call of a value reads, also in the calls that it makes in turn. -/
def hearApply (m : Machine) (body : Expr → Exec Value) (heard : Expr → Hearing) :
    (level : Nat) → Value → List Value → Hearing
  | level, f, args =>
    match f with
    | .function f => hearUser m heard f args
    | .builtin b =>
      match b.callee with
      | .host _ => .none
      | .primitive p =>
        match level with
        | 0 => hearPrimitive (fun _ _ => Exec.pure .nil) (fun _ _ => .none) p args
        | level + 1 =>
          hearPrimitive (apply m body level) (hearApply m body heard level) p args
    | _ => .none

section

variable {body : Expr → Exec Value} {heard : Expr → Hearing} (h : ∀ e, Hears (body e) (heard e))

include h

theorem callUser_hears {m : Machine} {f : UserFunction} {args : List Value} :
    Hears (callUser m body f args) (hearUser m heard f args) := by
  unfold callUser hearUser
  exact .ite .fault (.within (h _))

/-- A call reads what the function body or the callbacks read. -/
theorem apply_hears (m : Machine) (level : Nat) (f : Value) (args : List Value) :
    Hears (apply m body level f args) (hearApply m body heard level f args) := by
  induction level generalizing f args with
  | zero =>
    cases f with
    | function f => exact callUser_hears h
    | builtin b =>
      rcases b with ⟨name, type, typeParams, callee⟩
      cases callee with
      | host id => exact callHost_hears.last fun _ => .make
      | primitive p => exact (primitive_hears (fun _ _ => .pure) p args).last fun _ => .make
    | _ => exact .fault
  | succ level ih =>
    cases f with
    | function f => exact callUser_hears h
    | builtin b =>
      rcases b with ⟨name, type, typeParams, callee⟩
      cases callee with
      | host id => exact callHost_hears.last fun _ => .make
      | primitive p => exact (primitive_hears ih p args).last fun _ => .make
    | _ => exact .fault

end

/-! ## Expressions -/

section

variable (rec : Expr → Exec Value) (heard : Expr → Hearing)

/-- The lines of expressions from left to right, up to one without a value. -/
def hearAll : List Expr → Hearing
  | [] => .none
  | e :: es => (heard e).andThen (rec e) fun _ => hearAll es

/-- The lines of entries, up to a key or a value without a value or a key that is none. -/
def hearEntries : List (Expr × Expr) → Hearing
  | [] => .none
  | (k, v) :: es => (heard k).andThen (rec k) fun key => (heard v).andThen (rec v) fun _ =>
    if (Key.ofValue? key).isSome then hearEntries es else .none

/-- The lines of a loop. -/
def hearWhile (c b : Expr) : (turns : Nat) → Hearing
  | 0 => .none
  | turns + 1 => (heard c).andThen (rec c) fun v =>
    if v.truthy then (heard b).andThen (rec b) fun _ => hearWhile c b turns else .none

/-- The lines of one level of evaluation; `rec` and `heard` are those of the next level. -/
def hearStep (m : Machine) (turns : Nat) (e : Expr) : Hearing :=
  match e with
  | .number _ | .text _ | .bool _ | .ref _ => .none
  | .assign _ value => heard value
  | .binary _ left right => (heard left).andThen (rec left) fun _ => heard right
  | .call name args => Hearing.none.andThen (callee m e name) fun f =>
    (hearAll rec heard args).andThen (evalAll rec args []) fun vs =>
      hearApply m rec heard vs.length f vs
  | .ite c t f => (heard c).andThen (rec c) fun v => if v.truthy then heard t else heard f
  | .loop c b => hearWhile rec heard c b turns
  | .seq es | .list es => hearAll rec heard es
  | .dict entries => hearEntries rec heard entries

end

/-- The lines that evaluating an expression reads: what the calls of `input` answer, in order. -/
def hearing (m : Machine) (turns : Nat) : (depth : Nat) → Expr → Hearing
  | 0, _ => .none
  | depth + 1, e =>
    if m.cancelled then .none
    else hearStep (eval m turns depth) (hearing m turns depth) m turns e

theorem callee_hears {m : Machine} {e : Expr} {name : String} : Hears (callee m e name) .none := by
  intro s hs
  unfold callee
  split
  · exact .refl hs
  · split
    · exact .refl hs
    · split <;> exact .refl hs

theorem reference_hears {m : Machine} {e : Expr} {name : String} :
    Hears (reference m e name) .none := by
  intro s hs
  unfold reference
  split
  · exact .refl hs
  · split <;> exact .refl hs

section

variable {rec : Expr → Exec Value} {heard : Expr → Hearing} (h : ∀ e, Hears (rec e) (heard e))

include h

theorem evalAll_hears (es : List Expr) (done : List Value) :
    Hears (evalAll rec es done) (hearAll rec heard es) := by
  induction es generalizing done with
  | nil => exact .pure
  | cons e es ih =>
    rw [evalAll_cons]
    exact (h e).bind fun v => ih (v :: done)

theorem evalSeq_hears (es : List Expr) (last : Value) :
    Hears (evalSeq rec es last) (hearAll rec heard es) := by
  induction es generalizing last with
  | nil => exact .pure
  | cons e es ih =>
    rw [evalSeq_cons]
    exact (h e).bind fun v => ih v

theorem evalEntries_hears (es : List (Expr × Expr)) (done : Dict) :
    Hears (evalEntries rec es done) (hearEntries rec heard es) := by
  induction es generalizing done with
  | nil => exact .pure
  | cons e es ih =>
    rw [evalEntries_cons]
    refine (h e.1).bind fun key => (h e.2).bind fun value => ?_
    unfold setEntry
    cases Key.ofValue? key with
    | none => exact .fault
    | some id => exact ih (Dict.set id value done)

theorem repeatWhile_hears (c b : Expr) (turns : Nat) :
    Hears (repeatWhile (rec c) (rec b) turns) (hearWhile rec heard c b turns) := by
  induction turns with
  | zero => exact fun _ hs => .refl hs
  | succ turns ih =>
    rw [repeatWhile_succ]
    exact (h c).bind fun v => .ite ((h b).bind fun _ => ih) .pure

theorem step_hears (m : Machine) (turns : Nat) (e : Expr) :
    Hears (step m turns rec e) (hearStep rec heard m turns e) := by
  cases e with
  | number x => exact .make
  | text s => exact .make
  | bool b => exact .pure
  | ref name => exact reference_hears
  | assign name value => exact (h value).last fun v => .assign
  | binary op l r =>
    refine (h l).bind fun v => (h r).last fun w => ?_
    split
    · exact .make
    · exact .fault
  | call name args =>
    refine callee_hears.bind fun f => (evalAll_hears h args []).bind fun vs => ?_
    exact (apply_hears h m vs.length f vs).onFault
  | ite c t f => exact (h c).bind fun v => .ite (h t) (h f)
  | loop c b => exact repeatWhile_hears h c b turns
  | seq bodies => exact evalSeq_hears h bodies .nil
  | list elems => exact (evalAll_hears h elems []).last fun _ => .make
  | dict entries => exact (evalEntries_hears h entries []).last fun _ => .make

end

/-- An evaluation reads the next lines, one for each call of `input`, and nothing else. -/
theorem eval_hears (m : Machine) (turns depth : Nat) (e : Expr) :
    Hears (eval m turns depth e) (hearing m turns depth e) := by
  induction depth generalizing e with
  | zero => exact .fault
  | succ depth ih => exact .ite .fault (step_hears ih m turns e)

/-- The same for the expressions of a program, one after the other. -/
theorem runExprs_hears (m : Machine) (turns : Nat) (p : Program) :
    Hears (m.runExprs turns p) (hearAll (m.evalExpr turns) (hearing m turns m.depth) p.exprs) :=
  (evalSeq_hears (eval_hears m turns m.depth) p.exprs .nil).onFault

end Exec

end TreeLang
