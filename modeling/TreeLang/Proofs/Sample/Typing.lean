import TreeLang.Proofs.Sample.Reading
import TreeLang.Proofs.Typing.Calls
import TreeLang.Proofs.Typing.Resolution

/-!
# Samples are well typed

The checker's scope has the variables of a sample with the types of their kinds (`Suits`). Every
expression that is drawn has the type of its kind there (`Shape.typed`), and each assignment leaves
such a scope for the next one. Main statement: `Sampled.typed`.
-/

namespace TreeLang

/-- A variable of a place has its type there. -/
theorem TypedIn.variable {funcs : Table FnSymbol} {outer : ScopeChain} {s : Scope}
    (h : Sees funcs outer s) {name : String} {t : Ty} (ht : s.vars.get? name = some t) :
    TypedIn outer s (.ref name) t := by
  have hfind : ScopeChain.find? (s :: outer) name = some (.var name t) := by
    rw [ScopeChain.find?, h.findVariable_eq, ht]
  exact .ref hfind

namespace Sample

/-- The scope with the functions of every sample. -/
def globals : Scope := Scope.defineAll {} definitions

/-- A scope in which an expression of a sample is checked. -/
structure Suits (vars : Vars) (s : Scope) : Prop where
  funcs : s.funcs = globals.funcs
  vars : Binds (fun kind t => t = kind.type) vars s.vars

/-- The symbol of a function: one of the sample, else a builtin one. -/
def symbol? (name : String) : Option FnSymbol :=
  (globals.funcs.get? name).or ((Primitive.named? name).map FnSymbol.ofPrimitive)

theorem Kind.type_concrete (k : Kind) : k.type.Concrete := by
  cases k <;> decide

/-- Samples compare operands of every kind. -/
theorem comparison_types {op : Operator} (hop : op ∈ [.lt, .le, .gt, .ge, .eq]) (l r : Ty) :
    op.Types l r .boolean := by
  refine .comparison ?_
  simp only [List.mem_cons, List.not_mem_nil, or_false] at hop
  rcases hop with rfl | rfl | rfl | rfl | rfl <;> simp

section Expressions

variable {vars : Vars} {s : Scope}

theorem Suits.sees (h : Suits vars s) : Sees globals.funcs [Scope.prelude] s := by
  rw [← h.funcs]
  exact Sees.global s

theorem Suits.findFunction (h : Suits vars s) {name : String} {f : FnSymbol}
    (hf : symbol? name = some f) :
    ScopeChain.findFunction name [s, Scope.prelude] = some f :=
  (h.sees.function name).trans hf

/-- A variable has the type of its kind. -/
theorem Suits.variable (h : Suits vars s) {kind : Kind} {name : String}
    (hname : (kind, name) ∈ vars) : TypedIn [Scope.prelude] s (.ref name) kind.type := by
  rcases h.vars.bound hname with ⟨t, hget, rfl⟩
  exact .variable h.sees hget

/-- No variable hides a function. -/
theorem Suits.function (h : Suits vars s) {name : String} {f : FnSymbol}
    (hf : symbol? name = some f) (hname : name.toList.head? ≠ some 'v') :
    TypedIn [Scope.prelude] s (.ref name) f.type.toTy := by
  have hfind : ScopeChain.find? [s, Scope.prelude] name = some (.function f) := by
    rw [ScopeChain.find?, h.sees.findVariable_eq, h.vars.get?_none hname, h.findFunction hf]
    rfl
  exact .ref hfind

/-- A call of a function, all of whose type parameters stand for `u`. -/
theorem Suits.call (h : Suits vars s) {name : String} {f : FnSymbol} (hf : symbol? name = some f)
    (u : Ty) (hvariadic : f.type.variadic = false) (hdet : f.type.Determined) {args : List Expr}
    (hargs : List.Forall₂ (TypedIn [Scope.prelude] s) args (f.type.params.map (·.bind fun _ => u)))
    (hconcrete : ∀ t ∈ f.type.params.map (·.bind fun _ => u), t.Concrete) :
    TypedIn [Scope.prelude] s (.call name args) (f.type.result.bind fun _ => u) := by
  have hcallee : ScopeChain.callee? [s, Scope.prelude] name = some (f.type, f.typeParams) := by
    rw [ScopeChain.callee?, h.findFunction hf]
  exact TypedIn.call hcallee hargs (FnType.takes_instance hvariadic _) hconcrete hdet

/-- A call of a builtin function. -/
theorem Suits.callBuiltin (h : Suits vars s) {p : Primitive} (u : Ty)
    (hf : symbol? p.name = some (.ofPrimitive p)) (hvariadic : p.type.variadic = false)
    {args : List Expr}
    (hargs : List.Forall₂ (TypedIn [Scope.prelude] s) args (p.type.params.map (·.bind fun _ => u)))
    (hconcrete : ∀ t ∈ p.type.params.map (·.bind fun _ => u), t.Concrete) :
    TypedIn [Scope.prelude] s (.call p.name args) (p.type.result.bind fun _ => u) :=
  h.call hf u hvariadic p.determined hargs hconcrete

/-- What is drawn for a kind has its type. -/
theorem Shape.typed {n : Nat} {kind : Kind} {i : Document.Item} {e : Expr}
    (h : Shape vars n kind i e) (hs : Suits vars s) :
    TypedIn [Scope.prelude] s e kind.type := by
  have hnumber : ∀ x, TypedIn [Scope.prelude] s (.number x) .number :=
    fun x supply => ⟨supply, .number⟩
  have htext : ∀ x, TypedIn [Scope.prelude] s (.text x) .text := fun x supply => ⟨supply, .text⟩
  induction h with
  | number _ => exact hnumber _
  | text => exact htext _
  | bool => exact fun supply => ⟨supply, .bool⟩
  | pair _ _ => exact .list (by simp [hnumber]) (by decide)
  | ref hname => exact hs.variable hname
  | arithmetic hop _ _ iha ihb => exact .binary iha ihb (.numeric hop)
  | append _ _ iha ihb => exact .binary iha ihb .text
  | comparison hop _ _ iha ihb => exact .binary iha ihb (comparison_types hop _ _)
  | choice _ _ _ ihc iht ihf => exact .ite ihc iht ihf (Kind.type_concrete _).whole
  | triple _ _ _ iha ihb ihc =>
    refine .list ?_ (by decide)
    simp only [List.forall_mem_cons]
    exact ⟨iha, ihb, ihc, List.forall_mem_nil _⟩
  | unary hname _ iha =>
    simp only [Sample.unary, List.mem_cons, List.not_mem_nil, or_false, Prod.mk.injEq] at hname
    rcases hname with ⟨rfl, rfl, rfl⟩ | ⟨rfl, rfl, rfl⟩ | ⟨rfl, rfl, rfl⟩ | ⟨rfl, rfl, rfl⟩ |
      ⟨rfl, rfl, rfl⟩
    · exact hs.callBuiltin (p := .len) .text rfl rfl (.cons iha .nil) (by decide)
    · exact hs.call (f := .ofDef twice) rfl .text rfl (Or.inl rfl) (.cons iha .nil) (by decide)
    · exact hs.call (f := .ofDef shout) rfl .text rfl (Or.inl rfl) (.cons iha .nil) (by decide)
    · exact hs.callBuiltin (p := .not) .text rfl rfl (.cons iha .nil) (by decide)
    · exact hs.call (f := .ofDef positive) rfl .text rfl (Or.inl rfl) (.cons iha .nil) (by decide)
  | both _ _ iha ihb =>
    exact hs.callBuiltin (p := .and) .text rfl rfl (.cons iha (.cons ihb .nil)) (by decide)
  | rejoin _ iha =>
    -- The list that `split` gives is consumed at once, so that lists of texts need no kind.
    have hsplit := hs.callBuiltin (p := .split) .text rfl rfl (.cons iha (.cons (htext ",") .nil))
      (by decide)
    exact hs.callBuiltin (p := .join) .text rfl rfl (.cons hsplit (.cons (htext _) .nil))
      (by decide)
  | map _ iha =>
    have htwice : TypedIn [Scope.prelude] s (.ref "twice") twice.signature.toTy :=
      hs.function (f := .ofDef twice) rfl (by decide)
    exact hs.callBuiltin (p := .map) .number rfl rfl (.cons iha (.cons htwice .nil)) (by decide)
  | filter _ iha =>
    have hpositive : TypedIn [Scope.prelude] s (.ref "positive") positive.signature.toTy :=
      hs.function (f := .ofDef positive) rfl (by decide)
    exact hs.callBuiltin (p := .filter) .number rfl rfl (.cons iha (.cons hpositive .nil))
      (by decide)
  | reduce _ _ iha ihb =>
    have hplus : TypedIn [Scope.prelude] s (.ref "plus") plus.signature.toTy :=
      hs.function (f := .ofDef plus) rfl (by decide)
    exact hs.callBuiltin (p := .reduce) .number rfl rfl
      (.cons iha (.cons hplus (.cons ihb .nil))) (by decide)

end Expressions

/-! ## Programs -/

/-- Assigning the next variable leaves a suitable scope. -/
theorem Suits.define {vars : Vars} {s : Scope} (h : Suits vars s) {i : Nat} (hvars : vars.Below i)
    (kind : Kind) :
    Suits (vars ++ [(kind, variableName i)]) (s.define (variableName i) kind.type) :=
  ⟨h.funcs, h.vars.insert hvars rfl⟩

theorem Steps.typed {i : Nat} {vars vars' : Vars} {items : List Document.Item} {es : List Expr}
    (h : Steps i vars items es vars') (hvars : vars.Below i) {s : Scope} (hs : Suits vars s)
    (supply : Supply) :
    ∃ ts s' supply', TypedAll [Scope.prelude] ⟨s, supply⟩ es ts ⟨s', supply'⟩ ∧ Suits vars' s' := by
  induction h generalizing s supply with
  | nil => exact ⟨[], s, supply, .nil, hs⟩
  | cons hvalue _ ih =>
    -- The value is checked in the scope before the assignment.
    rcases hvalue.typed hs supply with ⟨supply₁, hvalue⟩
    rcases ih (hvars.snoc _) (hs.define hvars _) supply₁ with ⟨ts, s', supply', hrest, hs'⟩
    exact ⟨_, s', supply', .cons (.assign hvalue) hrest, hs'⟩

theorem Sampled.typedAll {d : Draft} {kind : Kind} {es : List Expr} (h : Sampled d kind es)
    (supply : Supply) :
    ∃ ts σ, TypedAll [Scope.prelude] ⟨globals, supply⟩ es (ts ++ [kind.type]) σ := by
  cases h with
  | intro hsteps hlast =>
    have hempty : Suits [] globals := ⟨rfl, .empty fun _ => rfl⟩
    rcases hsteps.typed (fun _ _ h => absurd h List.not_mem_nil) hempty supply with
      ⟨ts, s, supply₁, hts, hs⟩
    rcases hlast.typed hs supply₁ with ⟨supply₂, hlast⟩
    exact ⟨ts, _, hts.append (.cons hlast .nil)⟩

/-- The body of every function has its declared result. -/
theorem definition_typed {d : FunctionDef} (hd : d ∈ definitions) :
    TypedIn [globals, Scope.prelude] (Checker.bodyScope d) d.body d.result := by
  have hnumber : ∀ s x, TypedIn [globals, Scope.prelude] s (.number x) .number :=
    fun s x supply => ⟨supply, .number⟩
  have hparam : ∀ {d name t}, (Checker.bodyScope d).vars.get? name = some t →
      TypedIn [globals, Scope.prelude] (Checker.bodyScope d) (.ref name) t :=
    fun ht => .variable (Sees.bodyScope globals _) ht
  simp only [definitions, List.mem_cons, List.not_mem_nil, or_false] at hd
  rcases hd with rfl | rfl | rfl | rfl
  · exact .binary (hparam rfl) (hparam rfl) (.numeric (by simp))
  · exact .binary (hparam rfl) (hnumber _ _) (.numeric (by simp))
  · have hn : TypedIn [globals, Scope.prelude] (Checker.bodyScope positive) (.ref "n") .number :=
      hparam rfl
    exact .binary hn (hnumber _ _) (.comparison (by simp))
  · exact TypedIn.call (g := Primitive.toUpperCase.type) (u := .text) rfl (.cons (hparam rfl) .nil)
      (FnType.takes_instance rfl _) (by decide) (Or.inl rfl)

theorem bodies_typed {ds : List FunctionDef} (hds : ∀ d ∈ ds, d ∈ definitions) (supply : Supply) :
    ∃ supply', BodiesTyped globals supply ds supply' := by
  induction ds generalizing supply with
  | nil => exact ⟨supply, .nil⟩
  | cons d ds ih =>
    have hd := hds d (by simp)
    have hwhole : ∀ d ∈ definitions, d.result.Whole := by decide
    rcases definition_typed hd supply with ⟨supply₁, hbody⟩
    rcases ih (fun x hx => hds x (by simp [hx])) supply₁ with ⟨supply₂, hrest⟩
    exact ⟨supply₂, .cons ⟨_, _, hbody, hwhole d hd, rfl⟩ hrest⟩

/-- A sample has the type of its kind. -/
theorem Sampled.typed {d : Draft} {kind : Kind} {es : List Expr} (h : Sampled d kind es)
    (file : String) (supply : Supply) :
    TypedProgram ⟨{}, supply⟩ ⟨file, definitions, es⟩ kind.type := by
  rcases bodies_typed (fun d hd => hd) supply with ⟨supply₁, hbodies⟩
  rcases h.typedAll supply₁ with ⟨ts, σ, hts⟩
  have hdeclared : ∀ d ∈ definitions, d.isTyped = true := by decide
  refine ⟨hdeclared, supply₁, _, σ, hbodies, hts, ?_⟩
  simp

end Sample

end TreeLang
