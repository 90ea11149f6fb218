import TreeLang.Proofs.Typing.Resolution
import TreeLang.Proofs.Eval.Triples
import TreeLang.Proofs.Eval.Hereditary

/-!
# Where function values come from

No builtin function and no operator makes up a function: if all functions inside the arguments are
known ones, so are those inside the result (`Primitive.run_closed`, `apply_closed`). Nor does any of
them report an undefined name.
-/

namespace TreeLang

/-! ## Values with known functions -/

namespace Value

mutual

/-- All functions inside the value are known. -/
def Closed (known : Value → Prop) : Value → Prop
  | .list elems _ => ClosedAll known elems
  | .dict entries _ => ClosedEntries known entries
  | .function f => known (.function f)
  | .builtin b => known (.builtin b)
  | _ => True

/-- All functions inside the values are known. -/
def ClosedAll (known : Value → Prop) : List Value → Prop
  | [] => True
  | v :: vs => v.Closed known ∧ ClosedAll known vs

/-- All functions inside the entries are known. -/
def ClosedEntries (known : Value → Prop) : List (Key × Value) → Prop
  | [] => True
  | (_, v) :: es => v.Closed known ∧ ClosedEntries known es

end

variable {known : Value → Prop}

section Lists

attribute [local simp] Closed ClosedAll ClosedEntries

theorem closedAll_iff {vs : List Value} : ClosedAll known vs ↔ ∀ v ∈ vs, v.Closed known := by
  induction vs with
  | nil => simp
  | cons v vs ih => simp [ih]

theorem closedEntries_iff {es : List (Key × Value)} :
    ClosedEntries known es ↔ ∀ e ∈ es, e.2.Closed known := by
  induction es with
  | nil => simp
  | cons e es ih => simp [ih]

theorem closed_list {elems : List Value} {id : Identity} :
    (list elems id).Closed known ↔ ∀ v ∈ elems, v.Closed known := by
  rw [Closed, closedAll_iff]

theorem closed_dict {entries : List (Key × Value)} {id : Identity} :
    (dict entries id).Closed known ↔ ∀ e ∈ entries, e.2.Closed known := by
  rw [Closed, closedEntries_iff]

end Lists

theorem Closed.numberFrom {v : Value} (h : v.Closed known) (n : Nat) :
    (v.numberFrom n).1.Closed known := by
  induction v generalizing n with
  | number x id => cases id <;> exact h
  | text s id => cases id <;> exact h
  | bool b id => cases id <;> exact h
  | nil => exact h
  | list elems id ih =>
    cases id with
    | fresh =>
      refine closed_list.mpr fun w hw => ?_
      rcases mem_numberAllFrom hw with ⟨v, hv, k, rfl⟩
      exact ih v hv (closed_list.mp h v hv) k
    | shared => exact h
    | made m => exact h
  | dict entries id ih =>
    cases id with
    | fresh =>
      refine closed_dict.mpr fun e he => ?_
      rcases mem_numberEntriesFrom he with ⟨e₀, he₀, i, j, rfl⟩
      exact ih e₀ he₀ (closed_dict.mp h e₀ he₀) j
    | shared => exact h
    | made m => exact h
  | function f => exact h
  | builtin b => exact h

theorem closed_hereditary : Hereditary (Closed known) where
  number _ _ := trivial
  text _ _ := trivial
  bool _ _ := trivial
  nil := trivial
  list := closed_list
  empty := closed_dict.mpr (List.forall_mem_nil _)
  set hd hv := closed_dict.mpr fun e he =>
    (Dict.set_induct (K := fun _ => True) (fun e he => ⟨trivial, closed_dict.mp hd e he⟩)
      trivial hv e he).2
  values := closed_dict.mp
  renew h := closed_dict.mpr (closed_dict.mp h)
  numberFrom n h := h.numberFrom n

end Value

/-! ## Faults about names -/

/-- The code of a fault that is not about an undefined name. -/
def Code.IsNamed (code : Code) : Prop := code ≠ .undefinedVariable ∧ code ≠ .undefinedFunction

/-- Runs in which every name is found. They may fail otherwise, and may not end. -/
def namedEndings : Endings := ⟨fun d => d.code.IsNamed, True⟩

theorem Primitive.Refusal.isNamed (r : Primitive.Refusal) : namedEndings.fault r.diagnostic := by
  cases r <;> exact ⟨nofun, nofun⟩

theorem Operator.Refusal.isNamed (r : Operator.Refusal) : namedEndings.fault r.diagnostic := by
  cases r <;> exact ⟨nofun, nofun⟩

theorem namedEndings.runtime {d : Diagnostic} (h : d.code = .runtimeError) :
    namedEndings.fault d := by
  change d.code.IsNamed
  rw [h]
  exact ⟨nofun, nofun⟩

/-! ## Operators -/

theorem Operator.run_closed {known : Value → Prop} {op : Operator} {l r v : Value}
    (h : op.run l r = .ok v) (hl : l.Closed known) (hr : r.Closed known) : v.Closed known :=
  Value.closed_hereditary.operator h hl hr

/-! ## Builtin functions -/

section Builtins

variable {known : Value → Prop} {P : Table Value → Prop} {args : List Value}
  {call : Value → List Value → Exec Value}

/-- The evaluation finds every name, gives a value with known functions and keeps the variables. -/
def Exec.GivesClosed (P : Table Value → Prop) (known : Value → Prop) (x : Exec Value) : Prop :=
  Exec.Ensures namedEndings P x fun v f => P f ∧ v.Closed known

theorem Exec.givesClosed_make {x : Exec Value} (h : GivesClosed P known x) :
    GivesClosed P known (do Exec.make (← x)) :=
  h.bind fun _ => Exec.Ensures.make fun _ n hv => ⟨hv.1, hv.2.numberFrom n⟩

theorem Exec.givesClosed_pure {v : Value} (h : v.Closed known) :
    GivesClosed P known (Exec.pure v) :=
  Exec.Ensures.pure fun _ hf => ⟨hf, h⟩

theorem Primitive.asList_closed {p : Primitive} {v : Value} {xs : List Value}
    (hv : v.Closed known) (h : p.asList v = .ok xs) : ∀ x ∈ xs, x.Closed known := by
  cases v <;> cases h
  exact Value.closed_list.mp hv

/-- The value of a builtin function without effects. -/
theorem Primitive.pureResult_closed {p : Primitive} {v : Value}
    (hargs : ∀ a ∈ args, a.Closed known) (h : p.pureResult args = some (.ok v)) :
    v.Closed known :=
  Value.closed_hereditary.pureResult hargs h

/-- Calls from inside a call give values with known functions. -/
def CallsClosed (P : Table Value → Prop) (known : Value → Prop)
    (call : Value → List Value → Exec Value) : Prop :=
  ∀ {v : Value} {as : List Value}, v.Closed known → (∀ a ∈ as, a.Closed known) →
    Exec.GivesClosed P known (call v as)

/-- No builtin function makes up a function, or misses a name. -/
theorem Primitive.run_closed {p : Primitive} (hargs : ∀ a ∈ args, a.Closed known)
    (hcall : CallsClosed P known call) : Exec.GivesClosed P known (p.run call args) := by
  have hfault : ∀ r : Refusal, Exec.GivesClosed P known (Exec.fault r.diagnostic) :=
    fun r => Exec.Ensures.fault r.isNamed
  unfold run
  split
  · next r hr =>
    cases r with
    | error e => exact hfault e
    | ok v => exact Exec.givesClosed_pure (pureResult_closed hargs hr)
  -- The functions that print, read or call back are left.
  · cases p with
    | print =>
      cases args with
      | nil => exact hfault _
      | cons first rest =>
        have hprint := Exec.Ensures.printLine (P := P) (fun _ => namedEndings.runtime rfl)
          (Text.join " " ((first :: rest).map Value.inspect))
        exact hprint.bind fun _ => Exec.givesClosed_pure (hargs first (by simp))
    | input =>
      cases args with
      | nil =>
        exact (Exec.Ensures.readLine fun _ => namedEndings.runtime rfl).bind fun _ =>
          Exec.givesClosed_pure trivial
      | cons first rest => exact hfault _
    | map =>
      dsimp only
      split
      · next a f _ =>
        split
        · exact hfault _
        · exact hfault _
        · next xs g hxs hg =>
          rw [asCallable_eq hg]
          have hall := asList_closed (hargs a (by simp)) hxs
          have hcall' : ∀ x ∈ xs, Exec.GivesClosed P known (call f [x]) := fun x hx =>
            hcall (hargs f (by simp)) (by simpa using hall x hx)
          have hmap := Exec.Ensures.mapElems hcall' (List.forall_mem_nil _)
          refine hmap.bind fun vs => Exec.Ensures.pure fun fr hfr => ⟨hfr.1, ?_⟩
          exact Value.closed_list.mpr hfr.2
      · exact hfault _
    | filter =>
      dsimp only
      split
      · next a f _ =>
        split
        · exact hfault _
        · exact hfault _
        · next xs g hxs hg =>
          rw [asCallable_eq hg]
          have hall := asList_closed (hargs a (by simp)) hxs
          have hcall' : ∀ x ∈ xs, Exec.Ensures namedEndings P (call f [x]) fun _ fr => P fr :=
            fun x hx => (hcall (hargs f (by simp)) (by simpa using hall x hx)).post
              fun _ _ h => h.1
          have hfilter := Exec.Ensures.filterElems hcall' hall (List.forall_mem_nil _)
          refine hfilter.bind fun vs => Exec.Ensures.pure fun fr hfr => ⟨hfr.1, ?_⟩
          exact Value.closed_list.mpr hfr.2
      · exact hfault _
    | reduce =>
      dsimp only
      split
      · next a f start _ =>
        split
        · exact hfault _
        · exact hfault _
        · next xs g hxs hg =>
          rw [asCallable_eq hg]
          have hall := asList_closed (hargs a (by simp)) hxs
          refine Exec.Ensures.foldElems (R := fun v => v.Closed known) (fun acc hacc x hx => ?_)
            (hargs start (by simp))
          refine hcall (hargs f (by simp)) fun y hy => ?_
          rcases List.mem_cons.mp hy with rfl | hy
          · exact hacc
          · rw [List.mem_singleton.mp hy]
            exact hall x hx
      · exact hfault _
    | _ => exact Exec.givesClosed_pure trivial

end Builtins

/-! ## All calls -/

/-- Function values that a machine finds under a name are known. -/
theorem Machine.function?_closed {m : Machine} (hbuiltins : m.builtins = Machine.prelude)
    {name : String} {v : Value} (h : m.function? name = some v) : v.Closed m.Knows := by
  unfold Machine.function? at h
  split at h
  · next f hf =>
    cases h
    exact ⟨name, hf⟩
  · rw [hbuiltins, prelude_get?] at h
    rcases Option.map_eq_some_iff.mp h with ⟨b, hb, rfl⟩
    rcases Option.map_eq_some_iff.mp hb with ⟨p, -, rfl⟩
    exact ⟨p, rfl⟩

section Apply

variable {m : Machine} {P : Table Value → Prop} {body : Expr → Exec Value}

/-- Every function body finds its names when it is called on as many values with known functions as
it has parameters. -/
def BodiesClosed (m : Machine) (body : Expr → Exec Value) : Prop :=
  ∀ f, m.Knows (.function f) → ∀ args caller, (∀ a ∈ args, a.Closed m.Knows) →
    args.length = f.definition.params.length →
    Exec.Ensures namedEndings (· = Scoping.static.callFrame caller f.definition.paramNames args)
      (body f.definition.body) fun v _ => v.Closed m.Knows

theorem apply_closed (hstatic : m.scoping = .static) (hbody : BodiesClosed m body) (level : Nat) :
    CallsClosed P m.Knows (Exec.apply m body level) := by
  have huser : ∀ {f : UserFunction} {as : List Value}, m.Knows (.function f) →
      (∀ a ∈ as, a.Closed m.Knows) → Exec.GivesClosed P m.Knows (Exec.callUser m body f as) := by
    intro f as hf has
    simp only [Exec.callUser, hstatic]
    split
    · exact Exec.Ensures.fault ⟨nofun, nofun⟩
    · next hlen =>
      refine Exec.Ensures.within (fun s _ => ?_) (hbody f hf as ∅ has (by simpa using hlen))
      rfl
  induction level with
  | zero =>
    intro v as hv has
    cases v with
    | function f =>
      rw [Exec.apply]
      exact huser hv has
    | builtin b =>
      rcases hv with ⟨p, rfl⟩
      rw [Exec.apply]
      refine Exec.givesClosed_make (Primitive.run_closed has ?_)
      -- On the last level a callback gives nil.
      intro _ _ _ _
      exact Exec.givesClosed_pure trivial
    | _ => exact Exec.Ensures.fault ⟨nofun, nofun⟩
  | succ level ih =>
    intro v as hv has
    cases v with
    | function f =>
      rw [Exec.apply]
      exact huser hv has
    | builtin b =>
      rcases hv with ⟨p, rfl⟩
      rw [Exec.apply]
      exact Exec.givesClosed_make (Primitive.run_closed has ih)
    | _ => exact Exec.Ensures.fault ⟨nofun, nofun⟩

end Apply

end TreeLang
