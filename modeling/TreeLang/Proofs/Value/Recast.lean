import Mathlib.Data.List.Basic
import TreeLang.Eval.Operators
import TreeLang.Eval.Builtins
import TreeLang.Proofs.Value.Structure

/-!
# Values with other functions inside

A run looks at four things of a user function: its stamp, its name, the names of its parameters and
its body. A `Recast` puts a function with the same four in the place of each, and nothing that
values do shows the difference: neither their texts, nor equality, nor the numbers of objects, nor
the operators, nor the builtin functions, whose reports are the same as well. Main statements:
`Operator.run_recast` and `Primitive.pureResult_recast`.
-/

namespace TreeLang

/-- A change of user functions that a run cannot see. -/
structure Recast where
  change : UserFunction → UserFunction
  stamp : ∀ f, (change f).stamp = f.stamp
  name : ∀ f, (change f).definition.name = f.definition.name
  paramNames : ∀ f, (change f).definition.paramNames = f.definition.paramNames
  body : ∀ f, (change f).definition.body = f.definition.body

namespace Recast

/-- Every function stays as it is. -/
def id : Recast := ⟨fun f => f, fun _ => rfl, fun _ => rfl, fun _ => rfl, fun _ => rfl⟩

theorem params_length (r : Recast) (f : UserFunction) :
    (r.change f).definition.params.length = f.definition.params.length := by
  have hnames := congrArg List.length (r.paramNames f)
  simpa only [FunctionDef.paramNames, List.length_map] using hnames

end Recast

namespace Value

mutual

/-- The value with all user functions inside it changed. -/
def recast (r : Recast) : Value → Value
  | .number x id => .number x id
  | .text s id => .text s id
  | .bool b id => .bool b id
  | .nil => .nil
  | .list elems id => .list (recastAll r elems) id
  | .dict entries id => .dict (recastEntries r entries) id
  | .function f => .function (r.change f)
  | .builtin b => .builtin b

/-- The values with all user functions inside them changed. -/
def recastAll (r : Recast) : List Value → List Value
  | [] => []
  | v :: vs => v.recast r :: recastAll r vs

/-- The entries with all user functions inside them changed; keys hold none. -/
def recastEntries (r : Recast) : List (Key × Value) → List (Key × Value)
  | [] => []
  | (k, v) :: es => (k, v.recast r) :: recastEntries r es

end

variable (r : Recast)

section Lists

attribute [local simp] recast recastAll recastEntries

theorem recastAll_eq_map (vs : List Value) : recastAll r vs = vs.map (recast r) := by
  induction vs with
  | nil => rfl
  | cons v vs ih => simp [ih]

theorem recastEntries_eq_map (es : List (Key × Value)) :
    recastEntries r es = es.map fun e => (e.1, e.2.recast r) := by
  induction es with
  | nil => rfl
  | cons e es ih => simp [ih]

@[simp] theorem recast_list (elems : List Value) (id : Identity) :
    (list elems id).recast r = .list (elems.map (recast r)) id := by
  simp [recastAll_eq_map]

@[simp] theorem length_recastEntries (es : List (Key × Value)) :
    (recastEntries r es).length = es.length := by
  rw [recastEntries_eq_map, List.length_map]

end Lists

theorem recast_id (v : Value) : v.recast .id = v := by
  induction v with
  | list elems id ih =>
    have helems : elems.map (recast .id) = elems.map fun v => v := List.map_congr_left ih
    rw [recast_list, helems, List.map_id']
  | dict entries id ih =>
    have hentries : entries.map (fun e => (e.1, e.2.recast .id)) = entries.map fun e => e :=
      List.map_congr_left fun e he => by rw [ih e he]
    rw [recast, recastEntries_eq_map, hentries, List.map_id']
  | _ => rfl

/-! ## What shows of a value -/

@[simp] theorem kindName_recast (v : Value) : (v.recast r).kindName = v.kindName := by
  cases v <;> rfl

@[simp] theorem isCallable_recast (v : Value) : (v.recast r).isCallable = v.isCallable := by
  cases v <;> rfl

@[simp] theorem truthy_recast (v : Value) : (v.recast r).truthy = v.truthy := by
  cases v <;> rfl

@[simp] theorem recast_key (k : Key) : k.value.recast r = k.value := by
  cases k <;> rfl

@[simp] theorem ofValue?_recast (v : Value) : Key.ofValue? (v.recast r) = Key.ofValue? v := by
  cases v <;> rfl

theorem reprElems_recast {vs : List Value} (h : ∀ v ∈ vs, (v.recast r).repr = v.repr) :
    reprElems (vs.map (recast r)) = reprElems vs := by
  induction vs with
  | nil => rfl
  | cons v vs ih =>
    have hrest := ih fun w hw => h w (by simp [hw])
    cases vs with
    | nil => simpa [reprElems] using h v
    | cons w ws =>
      simp only [List.map_cons, reprElems] at hrest ⊢
      rw [h v (by simp), hrest]

theorem reprEntries_recast {es : List (Key × Value)}
    (h : ∀ e ∈ es, (e.2.recast r).repr = e.2.repr) :
    reprEntries (recastEntries r es) = reprEntries es := by
  induction es with
  | nil => rfl
  | cons e es ih =>
    have hrest := ih fun e' he' => h e' (by simp [he'])
    rcases e with ⟨k, v⟩
    have hv := h (k, v) (by simp)
    cases es with
    | nil => simp only [recastEntries, reprEntries, hv]
    | cons e' es =>
      simp only [recastEntries, reprEntries] at hrest ⊢
      rw [hv, hrest]

@[simp] theorem repr_recast (v : Value) : (v.recast r).repr = v.repr := by
  induction v with
  | list elems id ih => rw [recast_list, repr, repr, reprElems_recast r ih]
  | dict entries id ih => rw [recast, repr, repr, reprEntries_recast r ih]
  | function f => rw [recast, repr, repr, r.name]
  | _ => rfl

@[simp] theorem inspect_recast (v : Value) : (v.recast r).inspect = v.inspect := by
  cases v with
  | list elems id =>
    rw [recast_list, inspect, inspect, reprElems_recast r fun v _ => v.repr_recast r]
  | dict entries id =>
    rw [recast, inspect, inspect, reprEntries_recast r fun e _ => e.2.repr_recast r]
  | function f => rw [recast, inspect, inspect, r.name]
  | _ => rfl

/-! ## Dictionaries -/

theorem get?_recast (k : Key) (d : Dict) :
    Dict.get? k (recastEntries r d) = (Dict.get? k d).map (recast r) := by
  induction d with
  | nil => rfl
  | cons e d ih =>
    simp only [recastEntries, Dict.get?]
    split
    · rfl
    · exact ih

theorem set_recast (k : Key) (v : Value) (d : Dict) :
    Dict.set k (v.recast r) (recastEntries r d) = recastEntries r (Dict.set k v d) := by
  induction d with
  | nil => rfl
  | cons e d ih =>
    simp only [recastEntries, Dict.set]
    split
    · rfl
    · rw [ih, recastEntries]

theorem merge_recast (a b : Dict) :
    Dict.merge (recastEntries r a) (recastEntries r b) = recastEntries r (Dict.merge a b) := by
  induction b generalizing a with
  | nil => rfl
  | cons e b ih =>
    rw [recastEntries, Dict.merge, List.foldl_cons, set_recast]
    exact ih _

/-! ## Equality -/

theorem equalAll_recast {vs : List Value}
    (h : ∀ v ∈ vs, ∀ w, (v.recast r).equal (w.recast r) = v.equal w) (ws : List Value) :
    equalAll (vs.map (recast r)) (ws.map (recast r)) = equalAll vs ws := by
  induction vs generalizing ws with
  | nil => cases ws <;> rfl
  | cons v vs ih =>
    cases ws with
    | nil => rfl
    | cons w ws =>
      simp only [List.map_cons, equalAll]
      rw [h v (by simp), ih fun u hu => h u (by simp [hu])]

theorem equalEntries_recast {es : List (Key × Value)}
    (h : ∀ e ∈ es, ∀ w, (e.2.recast r).equal (w.recast r) = e.2.equal w) (d : Dict) :
    equalEntries (recastEntries r es) (recastEntries r d) = equalEntries es d := by
  induction es with
  | nil => rfl
  | cons e es ih =>
    rcases e with ⟨k, v⟩
    simp only [recastEntries, equalEntries]
    -- Keys stay as they are, so the other dictionary is looked up under the same one.
    rw [get?_recast, ih fun e' he' => h e' (by simp [he'])]
    cases Dict.get? k d with
    | none => rfl
    | some w => simp only [Option.map_some, h (k, v) (by simp) w]

@[simp] theorem equal_recast (v w : Value) : (v.recast r).equal (w.recast r) = v.equal w := by
  induction v generalizing w with
  | list elems id ih =>
    cases w with
    | list ws id' => rw [recast_list, recast_list, equal, equal, equalAll_recast r ih]
    | _ => rfl
  | dict entries id ih =>
    cases w with
    | dict d id' =>
      simp only [recast, equal, length_recastEntries, equalEntries_recast r ih]
    | _ => rfl
  | function f =>
    cases w with
    | function g => simp only [recast, equal, r.stamp]
    | _ => rfl
  | _ => cases w <;> rfl

/-! ## Objects -/

theorem numberAllFrom_recast {vs : List Value}
    (h : ∀ v ∈ vs, ∀ n,
      (v.recast r).numberFrom n = ((v.numberFrom n).1.recast r, (v.numberFrom n).2))
    (n : Nat) :
    numberAllFrom n (vs.map (recast r)) =
      ((numberAllFrom n vs).1.map (recast r), (numberAllFrom n vs).2) := by
  induction vs generalizing n with
  | nil => rfl
  | cons v vs ih =>
    simp only [List.map_cons, numberAllFrom]
    rw [h v (by simp), ih fun w hw => h w (by simp [hw])]

theorem numberEntriesFrom_recast {es : List (Key × Value)}
    (h : ∀ e ∈ es, ∀ n,
      (e.2.recast r).numberFrom n = ((e.2.numberFrom n).1.recast r, (e.2.numberFrom n).2))
    (n : Nat) :
    numberEntriesFrom n (recastEntries r es) =
      (recastEntries r (numberEntriesFrom n es).1, (numberEntriesFrom n es).2) := by
  induction es generalizing n with
  | nil => rfl
  | cons e es ih =>
    rcases e with ⟨k, v⟩
    simp only [recastEntries, numberEntriesFrom]
    rw [h (k, v) (by simp), ih fun e' he' => h e' (by simp [he'])]

/-- Objects get the same numbers. -/
theorem numberFrom_recast (v : Value) (n : Nat) :
    (v.recast r).numberFrom n = ((v.numberFrom n).1.recast r, (v.numberFrom n).2) := by
  induction v generalizing n with
  | number x id => cases id <;> rfl
  | text s id => cases id <;> rfl
  | bool b id => cases id <;> rfl
  | list elems id ih =>
    cases id with
    | fresh => simp only [recast_list, numberFrom, numberAllFrom_recast r ih]
    | _ => simp only [recast_list, numberFrom]
  | dict entries id ih =>
    cases id with
    | fresh => simp only [recast, numberFrom, numberEntriesFrom_recast r ih]
    | _ => simp only [recast, numberFrom]
  | _ => rfl

end Value

/-! ## Answers that may be refused -/

/-- Both are answered, with related values, or both are refused, with the same report. -/
inductive Answers {ε α β : Type} (report : ε → Diagnostic) (V : α → β → Prop) :
    Except ε α → Except ε β → Prop
  | ok {a : α} {b : β} (h : V a b) : Answers report V (.ok a) (.ok b)
  | error {e e' : ε} (h : report e' = report e) : Answers report V (.error e) (.error e')

namespace Answers

variable {ε α β γ δ : Type} {report : ε → Diagnostic} {V : α → β → Prop} {W : γ → δ → Prop}

theorem bind {x : Except ε α} {y : Except ε β} {f : α → Except ε γ} {g : β → Except ε δ}
    (h : Answers report V x y) (hfg : ∀ a b, V a b → Answers report W (f a) (g b)) :
    Answers report W (x >>= f) (y >>= g) := by
  cases h with
  | ok h => exact hfg _ _ h
  | error h => exact .error h

end Answers

/-- The second value is the first one recast. -/
def Value.Casts (r : Recast) (v w : Value) : Prop := w = v.recast r

/-! ## Operators -/

namespace Operator

variable (ρ : Recast)

theorem order?_recast (l r : Value) : order? (l.recast ρ) (r.recast ρ) = order? l r := by
  cases l <;> cases r <;> rfl

theorem refused_recast (op : Operator) (l r : Value) :
    Answers Refusal.diagnostic (Value.Casts ρ) (.error (.operands op l r))
      (.error (.operands op (l.recast ρ) (r.recast ρ))) :=
  .error (by simp only [Refusal.diagnostic, Value.kindName_recast])

theorem arithmetic_recast (op : Operator) (f : Float → Float → Float) (l r : Value) :
    Answers Refusal.diagnostic (Value.Casts ρ) (arithmetic op f l r)
      (arithmetic op f (l.recast ρ) (r.recast ρ)) := by
  cases l with
  | number x i =>
    cases r with
    | number y j => exact .ok rfl
    | _ => exact refused_recast ρ op _ _
  | _ => exact refused_recast ρ op _ _

theorem plus_text_recast (l : Value) (s : String) (i : Identity) :
    Answers Refusal.diagnostic (Value.Casts ρ) (plus l (.text s i))
      (plus (l.recast ρ) (.text s i)) := by
  have hplus : ∀ v : Value, plus v (.text s i) = .ok (.text (v.inspect ++ s) .fresh) := by
    intro v
    cases v <;> rfl
  rw [hplus, hplus, Value.inspect_recast]
  exact .ok rfl

theorem plus_recast (l r : Value) :
    Answers Refusal.diagnostic (Value.Casts ρ) (plus l r) (plus (l.recast ρ) (r.recast ρ)) := by
  cases l with
  | text s i =>
    simp only [Value.recast, plus, Value.inspect_recast]
    exact .ok rfl
  | number x i =>
    cases r with
    | number y j => exact .ok rfl
    | text s j => exact plus_text_recast ρ _ s j
    | _ => exact refused_recast ρ .add _ _
  | list xs i =>
    cases r with
    | list ys j =>
      simp only [Value.recast_list, plus]
      exact .ok (by rw [Value.Casts, Value.recast_list, List.map_append])
    | text s j => exact plus_text_recast ρ _ s j
    | _ => exact refused_recast ρ .add _ _
  | _ =>
    cases r with
    | text s j => exact plus_text_recast ρ _ s j
    | _ => exact refused_recast ρ .add _ _

/-- Operators do not see what is recast. -/
theorem run_recast (op : Operator) (l r : Value) :
    Answers Refusal.diagnostic (Value.Casts ρ) (op.run l r)
      (op.run (l.recast ρ) (r.recast ρ)) := by
  cases op with
  | add => exact plus_recast ρ l r
  | sub | mul | div | rem => exact arithmetic_recast ρ _ _ l r
  | lt | gt | le | ge =>
    simp only [run, comparison, order?_recast]
    exact .ok rfl
  | eq | ne =>
    simp only [run, Value.equal_recast]
    exact .ok rfl
  | other s => exact .error rfl

end Operator

/-! ## Builtin functions without effects -/

namespace Primitive

variable (r : Recast) (p : Primitive)

theorem kind_recast {α β : Type} {V : α → β → Prop} (wanted : String) (v : Value) :
    Answers Refusal.diagnostic V (.error (.kind p wanted v))
      (.error (.kind p wanted (v.recast r))) :=
  .error (by simp only [Refusal.diagnostic, Value.kindName_recast])

theorem asNumber_recast (v : Value) :
    Answers Refusal.diagnostic Eq (p.asNumber v) (p.asNumber (v.recast r)) := by
  cases v with
  | number x id => exact .ok rfl
  | _ => exact kind_recast r p _ _

theorem asText_recast (v : Value) :
    Answers Refusal.diagnostic Eq (p.asText v) (p.asText (v.recast r)) := by
  cases v with
  | text s id => exact .ok rfl
  | _ => exact kind_recast r p _ _

theorem asBool_recast (v : Value) :
    Answers Refusal.diagnostic Eq (p.asBool v) (p.asBool (v.recast r)) := by
  cases v with
  | bool b id => exact .ok rfl
  | _ => exact kind_recast r p _ _

theorem asList_recast (v : Value) :
    Answers Refusal.diagnostic (fun xs ys => ys = xs.map (Value.recast r)) (p.asList v)
      (p.asList (v.recast r)) := by
  cases v with
  | list xs id => exact .ok (Value.recastAll_eq_map r xs)
  | _ => exact kind_recast r p _ _

theorem asDict_recast (v : Value) :
    Answers Refusal.diagnostic (fun d d' => d' = Value.recastEntries r d) (p.asDict v)
      (p.asDict (v.recast r)) := by
  cases v with
  | dict d id => exact .ok rfl
  | _ => exact kind_recast r p _ _

theorem asCallable_recast (v : Value) :
    Answers Refusal.diagnostic (Value.Casts r) (p.asCallable v) (p.asCallable (v.recast r)) := by
  unfold asCallable
  rw [Value.isCallable_recast]
  split
  · exact .ok rfl
  · exact kind_recast r p _ _

theorem numbers_recast (args : List Value) :
    Answers Refusal.diagnostic Eq (args.mapM p.asNumber)
      ((args.map (Value.recast r)).mapM p.asNumber) := by
  induction args with
  | nil => exact .ok rfl
  | cons a args ih =>
    rw [List.map_cons, List.mapM_cons, List.mapM_cons]
    refine (asNumber_recast r p a).bind ?_
    rintro x _ rfl
    refine ih.bind ?_
    rintro xs _ rfl
    exact .ok rfl

theorem joined_recast (v : Value) : joined (v.recast r) = joined v := by
  have htext := v.inspect_recast r
  cases v with
  | nil => rfl
  | _ => exact htext

theorem wrong_recast (n : Nat) (args : List Value) :
    Option.Rel (Answers Refusal.diagnostic (Value.Casts r))
      (some (.error (.arity p n args.length)))
      (some (.error (.arity p n (args.map (Value.recast r)).length))) :=
  .some (.error (by rw [List.length_map]))

/-- Builtin functions without effects do not see what is recast. -/
theorem pureResult_recast (args : List Value) :
    Option.Rel (Answers Refusal.diagnostic (Value.Casts r)) (p.pureResult args)
      (p.pureResult (args.map (Value.recast r))) := by
  cases p with
  | print | input | map | filter | reduce => exact .none
  | add | mul =>
    refine .some ((numbers_recast r _ args).bind ?_)
    rintro xs _ rfl
    exact .ok rfl
  | len =>
    match args with
    | [a] =>
      cases a with
      | text s id => exact .some (.ok rfl)
      | list xs id =>
        refine .some (.ok ?_)
        rw [Value.recastAll_eq_map, List.length_map]
        rfl
      | dict d id =>
        refine .some (.ok ?_)
        rw [Value.length_recastEntries]
        rfl
      | _ => exact .some (kind_recast r _ _ _)
    | [] => exact wrong_recast r _ 1 _
    | a :: b :: rest => cases a <;> exact wrong_recast r _ 1 (_ :: b :: rest)
  | toUpperCase =>
    match args with
    | [a] =>
      refine .some ((asText_recast r _ a).bind ?_)
      rintro s _ rfl
      exact .ok rfl
    | [] | _ :: _ :: _ => exact wrong_recast r _ 1 _
  | not =>
    match args with
    | [a] =>
      refine .some ((asBool_recast r _ a).bind ?_)
      rintro s _ rfl
      exact .ok rfl
    | [] | _ :: _ :: _ => exact wrong_recast r _ 1 _
  | and | or =>
    match args with
    | [a, b] =>
      refine .some ((asBool_recast r _ a).bind ?_)
      rintro x _ rfl
      refine (asBool_recast r _ b).bind ?_
      rintro y _ rfl
      exact .ok rfl
    | [] | [_] | _ :: _ :: _ :: _ => exact wrong_recast r _ 2 _
  | split =>
    match args with
    | [a, b] =>
      refine .some ((asText_recast r _ a).bind ?_)
      rintro s _ rfl
      refine (asText_recast r _ b).bind ?_
      rintro sep _ rfl
      refine .ok ?_
      rw [Value.Casts, Value.recast_list, List.map_map]
      rfl
    | [] | [_] | _ :: _ :: _ :: _ => exact wrong_recast r _ 2 _
  | join =>
    match args with
    | [a, b] =>
      refine .some ((asList_recast r _ a).bind ?_)
      rintro xs _ rfl
      refine (asText_recast r _ b).bind ?_
      rintro sep _ rfl
      refine .ok ?_
      have htexts : (xs.map (Value.recast r)).map joined = xs.map joined := by
        rw [List.map_map]
        exact List.map_congr_left fun v _ => joined_recast r v
      rw [htexts]
      rfl
    | [] | [_] | _ :: _ :: _ :: _ => exact wrong_recast r _ 2 _
  | keys =>
    match args with
    | [a] =>
      refine .some ((asDict_recast r _ a).bind ?_)
      rintro d _ rfl
      refine .ok ?_
      simp [Value.Casts, Value.recastEntries_eq_map, Function.comp_def]
    | [] | _ :: _ :: _ => exact wrong_recast r _ 1 _
  | values =>
    match args with
    | [a] =>
      refine .some ((asDict_recast r _ a).bind ?_)
      rintro d _ rfl
      refine .ok ?_
      simp [Value.Casts, Value.recastEntries_eq_map, Function.comp_def]
    | [] | _ :: _ :: _ => exact wrong_recast r _ 1 _
  | get =>
    match args with
    | [a, k] =>
      refine .some ((asDict_recast r _ a).bind ?_)
      rintro d _ rfl
      refine .ok ?_
      rw [Value.Casts, Value.ofValue?_recast]
      cases Key.ofValue? k with
      | none => rfl
      | some key =>
        simp only [Option.bind_some, Value.get?_recast]
        cases Dict.get? key d <;> rfl
    | [] | [_] | _ :: _ :: _ :: _ => exact wrong_recast r _ 2 _
  | hasKey =>
    match args with
    | [a, k] =>
      refine .some ((asDict_recast r _ a).bind ?_)
      rintro d _ rfl
      refine .ok ?_
      rw [Value.Casts, Value.ofValue?_recast]
      cases Key.ofValue? k with
      | none => rfl
      | some key =>
        simp only [Option.bind_some, Value.get?_recast]
        cases Dict.get? key d <;> rfl
    | [] | [_] | _ :: _ :: _ :: _ => exact wrong_recast r _ 2 _
  | merge =>
    match args with
    | [a, b] =>
      refine .some ((asDict_recast r _ a).bind ?_)
      rintro d _ rfl
      refine (asDict_recast r _ b).bind ?_
      rintro d' _ rfl
      refine .ok ?_
      rw [Value.merge_recast]
      rfl
    | [] | [_] | _ :: _ :: _ :: _ => exact wrong_recast r _ 2 _

end Primitive

end TreeLang
