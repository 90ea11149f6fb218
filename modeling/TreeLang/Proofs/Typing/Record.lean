import Mathlib.Data.List.Nodup
import TreeLang.Proofs.Except
import TreeLang.Proofs.Typing.Sites

/-!
# The record of types

Checking an expression records a type under its path when everything inside it has been recorded.
`Records` says this of a step of checking: what it records are expressions from a list, each with a
type that fits the types of its parts (`Expr.Consistent`) and after everything inside it; and if the
step succeeds, it has recorded the whole list, each path once. The rules of this judgement follow
the steps of the checker, so that a problem anywhere leaves a sound record behind. Main statements:
`infer_records` and, for whole programs, `checkProgram_record`.
-/

namespace TreeLang

/-! ## Consistent types -/

/-- The type of an expression fits the types of its parts; `has` says which types have been recorded
under which paths. The callee of a call and the scopes around a name have no entry, and so calls and
references fit by themselves. -/
def Expr.Consistent (has : Path → Ty → Prop) (path : Path) (t : Ty) : Expr → Prop
  | .number _ => t = .number
  | .text _ => t = .text
  | .bool _ => t = .boolean
  | .ref _ | .call _ _ => True
  | .assign _ _ => has (path ++ [0]) t
  | .binary op _ _ => ∃ l r, has (path ++ [0]) l ∧ has (path ++ [1]) r ∧ op.Types l r t
  | .ite _ _ _ => has (path ++ [0]) .boolean ∧ has (path ++ [1]) t ∧ has (path ++ [2]) t
  | .loop _ _ => has (path ++ [0]) .boolean ∧ t = .void
  | .seq [] => t = .void
  | .seq (_ :: rest) => has (path ++ [rest.length]) t
  | .list elems => ∃ elem, t = .list elem ∧ ∀ i < elems.length, has (path ++ [i]) elem
  | .dict entries => ∃ key value, t = .dict key value ∧
      ∀ i < entries.length, has (path ++ [2 * i]) key ∧ has (path ++ [2 * i + 1]) value

theorem Expr.Consistent.mono {has has' : Path → Ty → Prop} {path : Path} {t : Ty} {e : Expr}
    (h : e.Consistent has path t) (hle : ∀ q u, has q u → has' q u) : e.Consistent has' path t := by
  cases e with
  | number x | text x | bool x => exact h
  | ref name | call name args => trivial
  | assign name value => exact hle _ _ h
  | binary op l r =>
    obtain ⟨lt, rt, hl, hr, hop⟩ := h
    exact ⟨lt, rt, hle _ _ hl, hle _ _ hr, hop⟩
  | ite c t f =>
    obtain ⟨hc, ht, hf⟩ := h
    exact ⟨hle _ _ hc, hle _ _ ht, hle _ _ hf⟩
  | loop c b => exact ⟨hle _ _ h.1, h.2⟩
  | seq bodies =>
    cases bodies with
    | nil => exact h
    | cons e rest => exact hle _ _ h
  | list elems =>
    obtain ⟨elem, heq, helems⟩ := h
    exact ⟨elem, heq, fun i hi => hle _ _ (helems i hi)⟩
  | dict entries =>
    obtain ⟨key, value, heq, hentries⟩ := h
    exact ⟨key, value, heq,
      fun i hi => ⟨hle _ _ (hentries i hi).1, hle _ _ (hentries i hi).2⟩⟩

/-- The expressions inside an expression with their paths. -/
def Expr.inside (path : Path) : Expr → List (Path × Expr)
  | .number _ | .text _ | .bool _ | .ref _ => []
  | .assign _ v => v.nodes (path ++ [0])
  | .binary _ l r => l.nodes (path ++ [0]) ++ r.nodes (path ++ [1])
  | .call _ args => Expr.nodesAll path 0 args
  | .ite c t f => c.nodes (path ++ [0]) ++ (t.nodes (path ++ [1]) ++ f.nodes (path ++ [2]))
  | .loop c b => c.nodes (path ++ [0]) ++ b.nodes (path ++ [1])
  | .seq bodies => Expr.nodesAll path 0 bodies
  | .list elems => Expr.nodesAll path 0 elems
  | .dict entries => Expr.nodesEntries path 0 entries

theorem Expr.nodes_eq (path : Path) (e : Expr) : e.nodes path = (path, e) :: e.inside path := by
  cases e <;> rw [Expr.nodes]
  case ite => rw [Expr.inside, List.append_assoc]
  all_goals rfl

/-! ## Blocks of a record -/

/-- All of these expressions have been recorded. -/
def Covers (b : List (Path × Ty)) (nodes : List (Path × Expr)) : Prop :=
  ∀ n ∈ nodes, n.1 ∈ b.map (·.1)

theorem Covers.mono {b b' : List (Path × Ty)} {nodes : List (Path × Expr)} (h : Covers b nodes)
    (hsub : b ⊆ b') : Covers b' nodes :=
  fun n hn => List.map_subset _ hsub (h n hn)

theorem covers_append {b : List (Path × Ty)} {nodes nodes' : List (Path × Expr)} :
    Covers b (nodes ++ nodes') ↔ Covers b nodes ∧ Covers b nodes' := List.forall_mem_append

/-- A block that comes after `b₀` records expressions from the list, with consistent types, and each
with everything inside it. -/
def Sound (b₀ : List (Path × Ty)) (nodes : List (Path × Expr)) (block : List (Path × Ty)) : Prop :=
  ∀ x ∈ block, ∃ e, (x.1, e) ∈ nodes ∧
    e.Consistent (fun q u => (q, u) ∈ block ++ b₀) x.1 x.2 ∧ Covers (block ++ b₀) (e.nodes x.1)

section

variable {b₀ block block' : List (Path × Ty)} {nodes nodes' : List (Path × Expr)}

theorem sound_nil : Sound b₀ nodes [] := List.forall_mem_nil _

theorem Sound.mono (h : Sound b₀ nodes block) (hsub : nodes ⊆ nodes') : Sound b₀ nodes' block := by
  intro x hx
  obtain ⟨e, he, hrest⟩ := h x hx
  exact ⟨e, hsub he, hrest⟩

/-- Of two blocks the later one comes after the earlier one. -/
theorem Sound.append (h : Sound b₀ nodes block) (h' : Sound (block ++ b₀) nodes' block') :
    Sound b₀ (nodes ++ nodes') (block' ++ block) := by
  intro x hx
  rw [List.append_assoc]
  rcases List.mem_append.mp hx with hx | hx
  · obtain ⟨e, he, hconsistent, hcovers⟩ := h' x hx
    exact ⟨e, List.mem_append_right _ he, hconsistent, hcovers⟩
  · obtain ⟨e, he, hconsistent, hcovers⟩ := h x hx
    have hsub : block ++ b₀ ⊆ block' ++ (block ++ b₀) := List.subset_append_right _ _
    exact ⟨e, List.mem_append_left _ he, hconsistent.mono fun _ _ hmem => hsub hmem,
      hcovers.mono hsub⟩

end

namespace Check

variable {α β : Type} {outer : ScopeChain} {b₀ : List (Path × Ty)}
  {nodes nodes' : List (Path × Expr)}

/-! ## Steps that record nothing -/

/-- Whatever has been recorded before, the step has this result and records this block. -/
def Ends (x : Check α) (σ : Setting) (r : Except Halt α) (σ' : Setting)
    (block : List (Path × Ty)) : Prop :=
  ∀ record, x.run (σ.state record) = (r, σ'.state (block ++ record))

section

variable {x : Check α} {f : α → Check β} {σ σ' σ'' : Setting} {block block' : List (Path × Ty)}

theorem Ends.bind_error {h : Halt} (hx : Ends x σ (.error h) σ' block) :
    Ends (x >>= f) σ (.error h) σ' block := by
  intro record
  have hrun : (x >>= f).run (σ.state record) =
      ExceptT.bindCont f (x.run (σ.state record)).1 (x.run (σ.state record)).2 := rfl
  rw [hrun, hx record]
  rfl

theorem Ends.bind_ok {a : α} {r : Except Halt β} (hx : Ends x σ (.ok a) σ' block)
    (hf : Ends (f a) σ' r σ'' block') : Ends (x >>= f) σ r σ'' (block' ++ block) := by
  intro record
  have hrun : (x >>= f).run (σ.state record) =
      ExceptT.bindCont f (x.run (σ.state record)).1 (x.run (σ.state record)).2 := rfl
  rw [hrun, hx record, List.append_assoc]
  exact hf (block ++ record)

end

theorem run_get_bind {f : CheckState → Check α} {s : CheckState} :
    (get >>= f).run s = (f s).run s := rfl

/-- The step neither looks at the record nor adds to it, and stays in its kind of scope. -/
def Quiet (x : Check α) : Prop :=
  ∀ σ : Setting, ∃ r σ', σ'.scope.kind = σ.scope.kind ∧ Ends x σ r σ' []

namespace Quiet

theorem pure {a : α} : Quiet (Pure.pure a) := fun σ => ⟨.ok a, σ, rfl, fun _ => rfl⟩

theorem throw {h : Halt} : Quiet (MonadExcept.throw h : Check α) :=
  fun σ => ⟨.error h, σ, rfl, fun _ => rfl⟩

theorem problem {e : Expr} {code : Code} {text : String} :
    Quiet (Check.problem e code text : Check α) := throw

theorem bind {x : Check α} {f : α → Check β} (hx : Quiet x) (hf : ∀ a, Quiet (f a)) :
    Quiet (x >>= f) := by
  intro σ
  obtain ⟨_ | a, σ₁, hkind, hends⟩ := hx σ
  · exact ⟨_, σ₁, hkind, hends.bind_error⟩
  · obtain ⟨r, σ₂, hkind', hends'⟩ := hf a σ₁
    exact ⟨r, σ₂, hkind'.trans hkind, hends.bind_ok hends'⟩

theorem ite {c : Prop} [Decidable c] {x y : Check α} (hx : Quiet x) (hy : Quiet y) :
    Quiet (if c then x else y) := by
  split
  · exact hx
  · exact hy

theorem chain : Quiet (Check.chain outer) :=
  fun σ => ⟨.ok (σ.scope :: outer), σ, rfl, fun _ => rfl⟩

theorem fresh (stem : String) : Quiet (Check.fresh stem) :=
  fun σ => ⟨.ok (σ.fresh stem).1, (σ.fresh stem).2, rfl, fun _ => rfl⟩

theorem define (name : String) (t : Ty) :
    Quiet (modify fun s => { s with scope := s.scope.define name t }) :=
  fun σ => ⟨.ok ⟨⟩, σ.define name t, rfl, fun _ => rfl⟩

theorem condition {c : Expr} {t : Ty} : Quiet (infer.condition c t) := ite pure problem

theorem operatorType {e : Expr} {op : Operator} {left right : Ty} :
    Quiet (Check.operatorType e op left right) := by
  unfold Check.operatorType
  cases op with
  | add =>
    refine ite pure (ite pure ?_)
    split
    · exact ite pure problem
    · exact problem
  | other s => exact problem
  | lt | gt | le | ge | eq | ne => exact pure
  | sub | mul | div | rem => exact ite pure problem

theorem callee {e : Expr} {name : String} : Quiet (Check.callee outer e name) := by
  unfold Check.callee
  refine chain.bind fun c => ?_
  split
  · exact pure
  · split
    · split
      · exact pure
      · exact problem
    · exact problem

theorem signature {e : Expr} {name : String} {n : Nat} :
    Quiet (Check.signature outer e name n) := by
  unfold Check.signature
  refine callee.bind fun f σ => ?_
  obtain ⟨g, typeParams⟩ := f
  rcases hinst : σ.supply.instantiateFn g typeParams with ⟨g', supply⟩
  have htail (text : String) : Quiet (if g'.accepts n then Pure.pure g' else
      Check.problem e .arityMismatch text) := ite pure problem
  obtain ⟨r, σ', hkind, hends⟩ := htail _ ⟨σ.scope, supply⟩
  refine ⟨r, σ', hkind, fun record => ?_⟩
  have hsupply : (σ.state record).supply.instantiateFn g typeParams = (g', supply) := hinst
  dsimp only
  rw [run_get_bind, hsupply]
  exact hends record

theorem matchArgs {e : Expr} {name : String} {f : FnType} {i : Nat} {ts : List Ty} {b : Subst} :
    Quiet (Check.matchArgs e name f i ts b) := by
  induction ts generalizing i b with
  | nil => exact pure
  | cons a as ih =>
    rw [Check.matchArgs]
    split
    · exact ih
    · split
      · exact throw
      · exact ih
      · exact problem

end Quiet

/-! ## Steps that record -/

/-- After `b₀` the step records a sound block of these expressions. If it succeeds, it records all
of them, and `P` holds of the result and of what has been recorded up to then. -/
def Records (b₀ : List (Path × Ty)) (nodes : List (Path × Expr)) (x : Check α)
    (P : α → List (Path × Ty) → Prop) : Prop :=
  ∀ s r s', x.run s = (r, s') → ∃ block, s'.record = block ++ s.record ∧ Sound b₀ nodes block ∧
    ∀ a, r = .ok a → (block.map (·.1)).Perm (nodes.map (·.1)) ∧ P a (block ++ b₀)

namespace Records

variable {x y : Check α} {f : α → Check β} {P : α → List (Path × Ty) → Prop}
  {Q : β → List (Path × Ty) → Prop}

theorem of_perm (h : Records b₀ nodes x P) (hperm : nodes.Perm nodes') :
    Records b₀ nodes' x P := by
  intro s r s' hrun
  obtain ⟨block, hrecord, hsound, hok⟩ := h s r s' hrun
  refine ⟨block, hrecord, hsound.mono hperm.subset, fun a ha => ?_⟩
  obtain ⟨hkeys, hP⟩ := hok a ha
  exact ⟨hkeys.trans (hperm.map _), hP⟩

theorem mono {P' : α → List (Path × Ty) → Prop} (h : Records b₀ nodes x P)
    (hP : ∀ a b, b₀ ⊆ b → P a b → P' a b) : Records b₀ nodes x P' := by
  intro s r s' hrun
  obtain ⟨block, hrecord, hsound, hok⟩ := h s r s' hrun
  refine ⟨block, hrecord, hsound, fun a ha => ⟨(hok a ha).1, ?_⟩⟩
  exact hP a _ (List.subset_append_right _ _) (hok a ha).2

theorem pure {a : α} (hP : P a b₀) : Records b₀ [] (Pure.pure a) P := by
  intro s r s' hrun
  cases hrun
  refine ⟨[], rfl, sound_nil, ?_⟩
  intro a' ha
  cases ha
  exact ⟨.nil, hP⟩

theorem ite {c : Prop} [Decidable c] (hx : c → Records b₀ nodes x P)
    (hy : ¬ c → Records b₀ nodes y P) : Records b₀ nodes (if c then x else y) P := by
  split
  · next hc => exact hx hc
  · next hc => exact hy hc

/-- What the second step records comes after what the first one has recorded. -/
theorem bind (hx : Records b₀ nodes x P)
    (hf : ∀ a b, b₀ ⊆ b → Covers b nodes → P a b → Records b nodes' (f a) Q) :
    Records b₀ (nodes ++ nodes') (x >>= f) Q := by
  intro s r s'' hrun
  have hbind : (x >>= f).run s = ExceptT.bindCont f (x.run s).1 (x.run s).2 := rfl
  rw [hbind] at hrun
  rcases hxs : x.run s with ⟨_ | a, s'⟩
  · rw [hxs] at hrun
    cases hrun
    obtain ⟨block, hrecord, hsound, -⟩ := hx s _ _ hxs
    refine ⟨block, hrecord, hsound.mono (List.subset_append_left _ _), ?_⟩
    intro a ha
    cases ha
  · rw [hxs] at hrun
    obtain ⟨block, hrecord, hsound, hok⟩ := hx s _ _ hxs
    obtain ⟨hkeys, hP⟩ := hok a rfl
    have hcovers : Covers (block ++ b₀) nodes := by
      intro n hn
      rw [List.map_append]
      exact List.mem_append_left _ (hkeys.symm.subset (List.mem_map_of_mem hn))
    have hrest := hf a (block ++ b₀) (List.subset_append_right _ _) hcovers hP
    obtain ⟨block', hrecord', hsound', hok'⟩ := hrest s' r s'' hrun
    refine ⟨block' ++ block, ?_, hsound.append hsound', fun c hc => ?_⟩
    · rw [hrecord', hrecord, List.append_assoc]
    · obtain ⟨hkeys', hQ⟩ := hok' c hc
      rw [List.append_assoc, List.map_append, List.map_append]
      exact ⟨List.perm_append_comm.trans (hkeys.append hkeys'), hQ⟩

theorem of_quiet (hx : Quiet x) :
    Records b₀ [] x (fun a b => b = b₀ ∧ ∃ s s', Gives x s a s') := by
  intro s r s' hrun
  obtain ⟨r₀, σ', -, hends⟩ := hx s.setting
  have hrun' : x.run s = (r₀, σ'.state s.record) := hends s.record
  have hstate := hrun.symm.trans hrun'
  cases hstate
  refine ⟨[], rfl, sound_nil, ?_⟩
  rintro a rfl
  exact ⟨.nil, rfl, s, _, hrun⟩

/-- A step that records nothing may come before. -/
theorem quiet (hx : Quiet x)
    (hf : ∀ a, (∃ s s', Gives x s a s') → Records b₀ nodes (f a) Q) :
    Records b₀ nodes (x >>= f) Q := by
  refine (of_quiet hx).bind fun a b _ _ h => ?_
  obtain ⟨rfl, hgives⟩ := h
  exact hf a hgives

theorem pure_bind {a : α} (h : Records b₀ nodes (f a) Q) :
    Records b₀ nodes (Pure.pure a >>= f) Q := h

/-- A step that stops at a problem records nothing. -/
theorem problem {e : Expr} {code : Code} {text : String} :
    Records b₀ nodes (Check.problem e code text) P := by
  intro s r s' hrun
  cases hrun
  refine ⟨[], rfl, sound_nil, ?_⟩
  intro a ha
  cases ha

theorem problem_bind {e : Expr} {code : Code} {text : String} :
    Records b₀ nodes (Check.problem e code text >>= f) Q := by
  refine quiet .problem fun a h => ?_
  obtain ⟨s, s', h⟩ := h
  exact absurd h not_gives_problem

/-- An expression is recorded after everything inside it. -/
theorem note {path : Path} {e : Expr} {t : Ty}
    (hconsistent : e.Consistent (fun q u => (q, u) ∈ b₀) path t)
    (hcovers : Covers b₀ (e.inside path)) :
    Records b₀ [(path, e)] (do Check.note path t; Pure.pure t) (fun u b => (path, u) ∈ b) := by
  intro s r s' hrun
  cases hrun
  have hsub : b₀ ⊆ (path, t) :: b₀ := List.subset_cons_self _ _
  refine ⟨[(path, t)], rfl, List.forall_mem_singleton.mpr ⟨e, by simp, ?_, ?_⟩, ?_⟩
  · exact hconsistent.mono fun _ _ hmem => hsub hmem
  · rw [Expr.nodes_eq]
    exact List.forall_mem_cons.mpr ⟨by simp, hcovers.mono hsub⟩
  · intro u hu
    cases hu
    exact ⟨.refl _, by simp⟩

/-- What is inside an expression is recorded first. -/
theorem node {path : Path} {e : Expr} (h : Records b₀ (e.inside path ++ [(path, e)]) x P) :
    Records b₀ (e.nodes path) x P := by
  rw [Expr.nodes_eq]
  exact h.of_perm (List.perm_append_singleton _ _)

end Records

/-! ## Expressions -/

/-- Checking the expression, wherever it stands, records it and everything inside it. -/
def Recorded (outer : ScopeChain) (e : Expr) : Prop :=
  ∀ path b₀, Records b₀ (e.nodes path) (infer outer path e) fun t b => (path, t) ∈ b

theorem inferAll_records {es : List Expr} (hes : ∀ e ∈ es, Recorded outer e) (path : Path) (i : Nat)
    (b₀ : List (Path × Ty)) :
    Records b₀ (Expr.nodesAll path i es) (inferAll outer path i es) fun ts b =>
      ts.length = es.length ∧ ∀ j t, ts[j]? = some t → (path ++ [i + j], t) ∈ b := by
  induction es generalizing i b₀ with
  | nil => exact .pure ⟨rfl, by simp⟩
  | cons e es ih =>
    rw [inferAll, Expr.nodesAll]
    refine (hes e (by simp) _ _).bind fun t b₁ _ _ ht => ?_
    refine .of_perm (.bind (ih (fun x hx => hes x (by simp [hx])) (i + 1) b₁)
      fun ts b₂ hsub _ hts => .pure ⟨by simp [hts.1], ?_⟩) (by simp)
    intro j u hu
    cases j with
    | zero =>
      cases hu
      exact hsub ht
    | succ j =>
      have hnext := hts.2 j u hu
      rwa [Nat.add_right_comm, Nat.add_assoc] at hnext

theorem inferElems_records {es : List Expr} (hes : ∀ e ∈ es, Recorded outer e) (path : Path)
    (whole : Expr) (first : Ty) (i : Nat) (b₀ : List (Path × Ty)) :
    Records b₀ (Expr.nodesAll path i es) (inferElems outer path whole first i es) fun _ b =>
      ∀ j < es.length, (path ++ [i + j], first) ∈ b := by
  induction es generalizing i b₀ with
  | nil => exact .pure (by simp)
  | cons e es ih =>
    rw [inferElems, Expr.nodesAll]
    refine (hes e (by simp) _ _).bind fun t b₁ _ _ ht => .ite (fun hsame => ?_) fun _ => .problem
    have heq : t = first := Ty.eq_of_same hsame
    subst heq
    -- The elements after this one come with their own record, which keeps the entry of this one.
    have hrest := ih (fun x hx => hes x (by simp [hx])) (i + 1) b₁
    refine hrest.mono fun _ b hsub helems j hj => ?_
    cases j with
    | zero => exact hsub ht
    | succ j =>
      have hnext := helems j (by simpa using hj)
      rwa [Nat.add_right_comm, Nat.add_assoc] at hnext

theorem inferEntries_records {es : List (Expr × Expr)}
    (hes : ∀ e ∈ es, Recorded outer e.1 ∧ Recorded outer e.2) (path : Path) (whole : Expr)
    (key value : Ty) (i : Nat) (b₀ : List (Path × Ty)) :
    Records b₀ (Expr.nodesEntries path i es) (inferEntries outer path whole key value i es)
      fun _ b => ∀ j < es.length,
        (path ++ [i + 2 * j], key) ∈ b ∧ (path ++ [i + 2 * j + 1], value) ∈ b := by
  induction es generalizing i b₀ with
  | nil => exact .pure (by simp)
  | cons e es ih =>
    obtain ⟨k, v⟩ := e
    obtain ⟨hk, hv⟩ := hes (k, v) (by simp)
    rw [inferEntries, Expr.nodesEntries, List.append_assoc]
    refine (hk _ _).bind fun kt b₁ _ _ hkt => (hv _ _).bind fun vt b₂ hsub _ hvt => ?_
    refine .ite (fun _ => .problem) fun hkey => .ite (fun _ => .problem) fun hvalue => ?_
    have heq : kt = key := Ty.eq_of_same (by simpa using hkey)
    have heq' : vt = value := Ty.eq_of_same (by simpa using hvalue)
    subst heq heq'
    have hrest := ih (fun x hx => hes x (by simp [hx])) (i + 2) b₂
    refine hrest.mono fun _ b hsub' hentries j hj => ?_
    cases j with
    | zero => exact ⟨hsub' (hsub hkt), hsub' hvt⟩
    | succ j =>
      have hnext := hentries j (by simpa using hj)
      have hplace : i + 2 + 2 * j = i + 2 * (j + 1) := by omega
      rwa [hplace] at hnext

/-- Checking an expression records it and everything inside it with types that fit together; where
it stops at a problem, what it has recorded is closed under going inside. -/
theorem infer_records (e : Expr) : Recorded outer e := by
  induction e with
  | number x | text x | bool x =>
    intro path b₀
    refine .node ?_
    rw [infer]
    exact .pure_bind (.note rfl (List.forall_mem_nil _))
  | ref name =>
    intro path b₀
    refine .node ?_
    rw [infer]
    refine .quiet .chain fun c _ => ?_
    split
    · exact .pure_bind (.note trivial (List.forall_mem_nil _))
    · exact .problem_bind
  | assign name value ih =>
    intro path b₀
    refine .node ?_
    rw [infer, Expr.inside]
    refine (ih _ _).bind fun t b _ hcov ht => ?_
    exact .quiet (.define name t) fun _ _ => .pure_bind (.note ht hcov)
  | binary op l r ihl ihr =>
    intro path b₀
    refine .node ?_
    rw [infer, Expr.inside, List.append_assoc]
    refine (ihl _ _).bind fun lt b₁ _ hcov₁ hlt => (ihr _ _).bind fun rt b₂ hsub hcov₂ hrt => ?_
    refine .quiet .operatorType fun t ht => ?_
    obtain ⟨s, s', hop⟩ := ht
    have htypes := (operatorType_gives.mp hop).1
    exact .note ⟨lt, rt, hsub hlt, hrt, htypes⟩ (covers_append.mpr ⟨hcov₁.mono hsub, hcov₂⟩)
  | call name args ih =>
    intro path b₀
    refine .node ?_
    rw [infer, Expr.inside]
    refine .quiet .signature fun f _ => (inferAll_records ih path 0 b₀).bind fun ts b _ hcov _ => ?_
    exact .quiet .matchArgs fun _ _ => .pure_bind (.note trivial hcov)
  | ite c t f ihc iht ihf =>
    intro path b₀
    refine .node ?_
    rw [infer, Expr.inside, List.append_assoc, List.append_assoc]
    refine (ihc _ _).bind fun ct b₁ _ hcov₁ hct => ?_
    refine .quiet .condition fun _ hcond => ?_
    obtain ⟨s, s', hcond⟩ := hcond
    obtain ⟨rfl, -⟩ := condition_gives.mp hcond
    refine (iht _ _).bind fun tt b₂ hsub₂ hcov₂ htt => ?_
    refine (ihf _ _).bind fun ft b₃ hsub₃ hcov₃ hft => ?_
    refine .ite (fun hsame => .pure_bind (.note ?_ ?_)) fun _ => .problem_bind
    · have heq : tt = ft := Ty.eq_of_same hsame
      subst heq
      exact ⟨hsub₃ (hsub₂ hct), hsub₃ htt, hft⟩
    · have hbranches := covers_append.mpr ⟨hcov₂.mono hsub₃, hcov₃⟩
      exact covers_append.mpr ⟨(hcov₁.mono hsub₂).mono hsub₃, hbranches⟩
  | loop c b ihc ihb =>
    intro path b₀
    refine .node ?_
    rw [infer, Expr.inside, List.append_assoc]
    refine (ihc _ _).bind fun ct b₁ _ hcov₁ hct => ?_
    refine .quiet .condition fun _ hcond => ?_
    obtain ⟨s, s', hcond⟩ := hcond
    obtain ⟨rfl, -⟩ := condition_gives.mp hcond
    refine (ihb _ _).bind fun bt b₂ hsub hcov₂ _ => .pure_bind (.note ⟨hsub hct, rfl⟩ ?_)
    exact covers_append.mpr ⟨hcov₁.mono hsub, hcov₂⟩
  | seq bodies ih =>
    intro path b₀
    refine .node ?_
    rw [infer, Expr.inside]
    refine (inferAll_records ih path 0 b₀).bind fun ts b _ hcov hts => ?_
    refine .pure_bind (.note ?_ hcov)
    cases bodies with
    | nil =>
      rw [List.length_eq_zero_iff.mp hts.1]
      rfl
    | cons e rest =>
      have hlast : ts[rest.length]? = ts.getLast? := by
        rw [List.getLast?_eq_getElem?, hts.1]
        rfl
      have hne : ts ≠ [] := List.ne_nil_of_length_eq_add_one hts.1
      obtain ⟨t, ht⟩ := Option.isSome_iff_exists.mp (List.getLast?_isSome.mpr hne)
      have hmem := hts.2 rest.length t (hlast.trans ht)
      rw [Nat.zero_add] at hmem
      rw [ht]
      exact hmem
  | list elems ih =>
    intro path b₀
    refine .node ?_
    cases elems with
    | nil =>
      rw [infer]
      refine .quiet (.fresh "T") fun t _ => .pure_bind (.note ⟨t, rfl, by simp⟩ ?_)
      exact List.forall_mem_nil _
    | cons e es =>
      have hes := inferElems_records (fun x hx => ih x (List.mem_cons_of_mem e hx)) path
      rw [infer, Expr.inside, Expr.nodesAll, List.append_assoc]
      refine (ih e (by simp) _ _).bind fun t b₁ _ hcov₁ ht => ?_
      refine (hes _ t 1 b₁).bind fun _ b₂ hsub hcov₂ helems => .pure_bind (.note ?_ ?_)
      · refine ⟨t, rfl, fun i hi => ?_⟩
        cases i with
        | zero => exact hsub ht
        | succ i =>
          have helem := helems i (by simpa using hi)
          rwa [Nat.add_comm] at helem
      · exact covers_append.mpr ⟨hcov₁.mono hsub, hcov₂⟩
  | dict entries ih =>
    intro path b₀
    refine .node ?_
    cases entries with
    | nil =>
      rw [infer]
      refine .quiet (.fresh "K") fun k _ => .quiet (.fresh "V") fun v _ => ?_
      exact .pure_bind (.note ⟨k, v, rfl, by simp⟩ (List.forall_mem_nil _))
    | cons e es =>
      obtain ⟨k, v⟩ := e
      have hes := inferEntries_records (fun x hx => ih x (List.mem_cons_of_mem (k, v) hx)) path
      obtain ⟨hk, hv⟩ := ih (k, v) (by simp)
      rw [infer, Expr.inside, Expr.nodesEntries, List.append_assoc, List.append_assoc]
      refine (hk _ _).bind fun kt b₁ _ hcov₁ hkt => (hv _ _).bind fun vt b₂ hsub₂ hcov₂ hvt => ?_
      refine (hes _ kt vt 2 b₂).bind fun _ b₃ hsub₃ hcov₃ hentries => .pure_bind (.note ?_ ?_)
      · refine ⟨kt, vt, rfl, fun i hi => ?_⟩
        cases i with
        | zero => exact ⟨hsub₃ (hsub₂ hkt), hsub₃ hvt⟩
        | succ i =>
          have hentry := hentries i (by simpa using hi)
          have hplace : 2 + 2 * i = 2 * (i + 1) := by omega
          rwa [hplace] at hentry
      · have hfirst := covers_append.mpr ⟨(hcov₁.mono hsub₂).mono hsub₃, hcov₂.mono hsub₃⟩
        exact covers_append.mpr ⟨hfirst, hcov₃⟩

/-! ## Paths -/

/-- The paths of these expressions lie in the region, and no two of them are the same. -/
structure Placed (region : Path → Prop) (nodes : List (Path × Expr)) : Prop where
  region : ∀ n ∈ nodes, region n.1
  nodup : (nodes.map (·.1)).Nodup

namespace Placed

variable {path : Path} {i j k : Nat}

theorem nil (region : Path → Prop) : Placed region [] := ⟨List.forall_mem_nil _, .nil⟩

theorem append (h : Placed (Span path i j) nodes) (h' : Placed (Span path j k) nodes')
    (hij : i ≤ j) (hjk : j ≤ k) : Placed (Span path i k) (nodes ++ nodes') := by
  constructor
  · exact List.forall_mem_append.mpr
      ⟨fun n hn => (h.region n hn).left hjk, fun n hn => (h'.region n hn).right hij⟩
  · rw [List.map_append]
    refine List.nodup_append.mpr ⟨h.nodup, h'.nodup, fun p hp q hq heq => ?_⟩
    obtain ⟨n, hn, rfl⟩ := List.mem_map.mp hp
    obtain ⟨n', hn', rfl⟩ := List.mem_map.mp hq
    exact (h.region n hn).ne (h'.region n' hn') heq.symm

theorem child (h : Placed (path ++ [i] <+: ·) nodes) : Placed (Span path i (i + 1)) nodes :=
  ⟨fun n hn => span_child (h.region n hn), h.nodup⟩

theorem node {e : Expr} (h : Placed (Span path i j) (e.inside path)) :
    Placed (path <+: ·) (e.nodes path) := by
  rw [Expr.nodes_eq]
  constructor
  · exact List.forall_mem_cons.mpr
      ⟨List.prefix_refl path, fun n hn => (h.region n hn).below.1⟩
  · refine List.nodup_cons.mpr ⟨fun hmem => ?_, h.nodup⟩
    obtain ⟨n, hn, heq⟩ := List.mem_map.mp hmem
    exact (h.region n hn).below.2 heq.symm

end Placed

theorem nodesAll_placed {es : List Expr}
    (hes : ∀ e ∈ es, ∀ path, Placed (path <+: ·) (e.nodes path)) (path : Path) (i : Nat) :
    Placed (Span path i (i + es.length)) (Expr.nodesAll path i es) := by
  induction es generalizing i with
  | nil => exact .nil _
  | cons e es ih =>
    have hrest := ih (fun x hx => hes x (by simp [hx])) (i + 1)
    have hend : i + 1 + es.length = i + (e :: es).length := by
      rw [List.length_cons]
      omega
    rw [hend] at hrest
    rw [Expr.nodesAll]
    exact (hes e (by simp) _).child.append hrest (by omega) (by simp)

theorem nodesEntries_placed {es : List (Expr × Expr)}
    (hes : ∀ e ∈ es, (∀ path, Placed (path <+: ·) (e.1.nodes path)) ∧
      ∀ path, Placed (path <+: ·) (e.2.nodes path)) (path : Path) (i : Nat) :
    Placed (Span path i (i + 2 * es.length)) (Expr.nodesEntries path i es) := by
  induction es generalizing i with
  | nil => exact .nil _
  | cons e es ih =>
    obtain ⟨k, v⟩ := e
    obtain ⟨hk, hv⟩ := hes (k, v) (by simp)
    have hrest := ih (fun x hx => hes x (by simp [hx])) (i + 2)
    have hend : i + 2 + 2 * es.length = i + 2 * ((k, v) :: es).length := by
      rw [List.length_cons]
      omega
    have hlength : 2 ≤ 2 * ((k, v) :: es).length := by
      rw [List.length_cons]
      omega
    rw [hend] at hrest
    rw [Expr.nodesEntries]
    have hkey := (hk (path ++ [i])).child
    have hfirst := hkey.append (hv (path ++ [i + 1])).child (by omega) (by omega)
    exact hfirst.append hrest (by omega) (by omega)

/-- No two expressions inside an expression have the same path. -/
theorem nodes_placed (e : Expr) (path : Path) : Placed (path <+: ·) (e.nodes path) := by
  induction e generalizing path with
  | number x | text x | bool x | ref name => exact .node (i := 0) (j := 0) (.nil _)
  | assign name value ih => exact (ih _).child.node
  | binary op l r ihl ihr =>
    exact ((ihl _).child.append (ihr _).child (by omega) (by omega)).node
  | call name args ih => exact (nodesAll_placed ih path 0).node
  | ite c t f ihc iht ihf =>
    have hthen := (iht (path ++ [1])).child
    have hbranches := hthen.append (ihf (path ++ [2])).child (by omega) (by omega)
    exact ((ihc _).child.append hbranches (by omega) (by omega)).node
  | loop c b ihc ihb =>
    exact ((ihc _).child.append (ihb _).child (by omega) (by omega)).node
  | seq bodies ih => exact (nodesAll_placed ih path 0).node
  | list elems ih => exact (nodesAll_placed ih path 0).node
  | dict entries ih => exact (nodesEntries_placed ih path 0).node

end Check

/-! ## Programs -/

theorem units_eq_nodesAll (i : Nat) (es : List Expr) :
    Program.nodes.units i es = Expr.nodesAll [] i es := by
  induction es generalizing i with
  | nil => rfl
  | cons e es ih =>
    rw [Program.nodes.units, Expr.nodesAll, ih]
    rfl

theorem units_append (i : Nat) (es es' : List Expr) :
    Program.nodes.units i (es ++ es') =
      Program.nodes.units i es ++ Program.nodes.units (i + es.length) es' := by
  induction es generalizing i with
  | nil => rfl
  | cons e es ih =>
    rw [List.cons_append, Program.nodes.units, Program.nodes.units, ih, List.append_assoc,
      List.length_cons, Nat.add_right_comm, Nat.add_assoc]

/-- A path stands for one expression of a program. -/
theorem nodup_nodes (p : Program) : (p.nodes.map (·.1)).Nodup := by
  rw [Program.nodes, units_eq_nodesAll]
  exact (Check.nodesAll_placed (fun e _ => Check.nodes_placed e) [] 0).nodup

namespace Checker

variable {c c' c'' : Checker} {nodes nodes' : List (Path × Expr)}
  {known known' : List (Path × Ty)} {ok ok' : Prop}

/-- From `c` to `c'` a sound block of these expressions has been recorded, and all of them and the
known types if things went well. -/
def Logged (nodes : List (Path × Expr)) (known : List (Path × Ty)) (ok : Prop) (c c' : Checker) :
    Prop :=
  ∃ block, c'.record = block ++ c.record ∧ Sound [] nodes block ∧
    (ok → (block.map (·.1)).Perm (nodes.map (·.1)) ∧ known ⊆ block)

namespace Logged

theorem unchanged (h : c'.record = c.record) : Logged [] [] ok c c' :=
  ⟨[], h, sound_nil, fun _ => ⟨.nil, List.Subset.refl _⟩⟩

/-- Where things go wrong, nothing is said of what is still to come. -/
theorem stop (h : Logged nodes known ok c c') (hok' : ¬ ok') (hsub : nodes ⊆ nodes') :
    Logged nodes' known' ok' c c' := by
  obtain ⟨block, hrecord, hsound, -⟩ := h
  exact ⟨block, hrecord, hsound.mono hsub, fun h => absurd h hok'⟩

theorem trans (h : Logged nodes known True c c') (h' : Logged nodes' known' ok c' c'') :
    Logged (nodes ++ nodes') (known ++ known') ok c c'' := by
  obtain ⟨block, hrecord, hsound, hall⟩ := h
  obtain ⟨block', hrecord', hsound', hall'⟩ := h'
  obtain ⟨hkeys, hknown⟩ := hall trivial
  have hlater : Sound (block ++ []) nodes' block' := by
    intro x hx
    obtain ⟨e, he, hconsistent, hcovers⟩ := hsound' x hx
    rw [List.append_nil] at hconsistent hcovers
    have hsub : block' ⊆ block' ++ (block ++ []) := List.subset_append_left _ _
    exact ⟨e, he, hconsistent.mono fun _ _ hmem => hsub hmem, hcovers.mono hsub⟩
  refine ⟨block' ++ block, ?_, hsound.append hlater, fun hok => ?_⟩
  · rw [hrecord', hrecord, List.append_assoc]
  · obtain ⟨hkeys', hknown'⟩ := hall' hok
    rw [List.map_append, List.map_append]
    refine ⟨List.perm_append_comm.trans (hkeys.append hkeys'), ?_⟩
    exact List.append_subset.mpr ⟨List.Subset.trans hknown (List.subset_append_right _ _),
      List.Subset.trans hknown' (List.subset_append_left _ _)⟩

end Logged

theorem checkFunction_logged {unit : Nat} {d : FunctionDef} {r : Except Halt Unit}
    (h : c.checkFunction unit d = (r, c')) :
    Logged (d.body.nodes [unit]) [([unit], d.result)] (r = .ok ()) c c' := by
  unfold checkFunction at h
  rcases hrun : (Check.infer [c.scope, Scope.prelude] [unit] d.body).run
    ⟨bodyScope d, c.supply, c.record⟩ with ⟨r₀, s⟩
  obtain ⟨block, hrecord, hsound, hall⟩ := Check.infer_records d.body [unit] [] _ _ _ hrun
  simp only [hrun] at h
  cases h
  refine ⟨block, hrecord, hsound, fun hok => ?_⟩
  rw [mapError_eq_ok] at hok
  obtain ⟨t, rfl, hsame⟩ := bind_eq_ok.mp hok
  obtain ⟨hkeys, hmem⟩ := hall t rfl
  rw [List.append_nil] at hmem
  split at hsame
  · next heq =>
    rw [← Ty.eq_of_same heq]
    exact ⟨hkeys, by simpa using hmem⟩
  · cases hsame

theorem checkExpr_logged {unit : Nat} {e : Expr} {r : Except Halt Ty}
    (h : c.checkExpr unit e = (r, c')) : Logged (e.nodes [unit]) [] (∃ t, r = .ok t) c c' := by
  unfold checkExpr at h
  rcases hrun : (Check.infer [Scope.prelude] [unit] e).run ⟨c.scope, c.supply, c.record⟩ with
    ⟨r₀, s⟩
  obtain ⟨block, hrecord, hsound, hall⟩ := Check.infer_records e [unit] [] _ _ _ hrun
  rw [hrun] at h
  cases h
  refine ⟨block, hrecord, hsound, fun hok => ?_⟩
  obtain ⟨t, ht⟩ := hok
  exact ⟨(hall t (mapError_eq_ok.mp ht)).1, List.nil_subset _⟩

/-- The declared results of functions whose bodies are the units from `unit` on. -/
def declaredResults (unit : Nat) (defs : List FunctionDef) : List (Path × Ty) :=
  (defs.zipIdx unit).map fun d => ([d.2], d.1.result)

theorem checkFunctions_logged {unit : Nat} {defs : List FunctionDef} {r : Except Halt Unit}
    (h : checkFunctions unit defs c = (r, c')) :
    Logged (Program.nodes.units unit (defs.map (·.body))) (declaredResults unit defs) (r = .ok ())
      c c' := by
  induction defs generalizing c unit with
  | nil =>
    cases h
    exact .unchanged rfl
  | cons d ds ih =>
    rw [checkFunctions] at h
    rcases hd : c.checkFunction unit d with ⟨halt | _, c₁⟩
    · rw [hd] at h
      cases h
      exact (checkFunction_logged hd).stop (by simp) (List.subset_append_left _ _)
    · rw [hd] at h
      have hfirst := checkFunction_logged hd
      exact Logged.trans (by simpa using hfirst) (ih h)

theorem checkExprs_logged {unit : Nat} {last : Ty} {es : List Expr} {r : Except Halt Ty}
    (h : checkExprs unit last es c = (r, c')) :
    Logged (Program.nodes.units unit es) [] (∃ t, r = .ok t) c c' := by
  induction es generalizing c unit last with
  | nil =>
    cases h
    exact .unchanged rfl
  | cons e es ih =>
    rw [checkExprs] at h
    rcases he : c.checkExpr unit e with ⟨halt | t, c₁⟩
    · rw [he] at h
      cases h
      exact (checkExpr_logged he).stop (by simp) (List.subset_append_left _ _)
    · rw [he] at h
      have hfirst := checkExpr_logged he
      exact Logged.trans (by simpa using hfirst) (ih h)

theorem declareAll_record {defs : List FunctionDef} {r : Except Halt Unit}
    (h : declareAll defs c = (r, c')) : c'.record = c.record := by
  induction defs generalizing c with
  | nil =>
    cases h
    rfl
  | cons d ds ih =>
    rw [declareAll, declare] at h
    by_cases htyped : d.isTyped
    · rw [if_pos htyped] at h
      have hrest := ih h
      exact hrest
    · rw [if_neg htyped] at h
      cases h
      rfl

/-- Whatever the verdict on a program, what has been recorded is sound. -/
theorem checkProgram_logged {p : Program} {r : Except Halt Ty} (h : c.checkProgram p = (r, c')) :
    Logged p.nodes (declaredResults 0 p.defs) (∃ t, r = .ok t) c c' := by
  unfold checkProgram at h
  extract_lets c₀ at h
  have hstart : c₀.record = c.record := by
    unfold c₀
    split <;> rfl
  have hnodes : p.nodes = Program.nodes.units 0 (p.defs.map (·.body)) ++
      Program.nodes.units p.defs.length p.exprs := by
    rw [Program.nodes, units_append, List.length_map, Nat.zero_add]
  rw [hnodes]
  rcases hdeclare : declareAll p.defs c₀ with ⟨verdict, c₁⟩
  have hnothing : Logged [] [] True c c₁ := .unchanged ((declareAll_record hdeclare).trans hstart)
  rw [hdeclare] at h
  cases verdict with
  | error halt =>
    cases h
    exact hnothing.stop (by simp) (List.nil_subset _)
  | ok =>
    dsimp only at h
    rcases hbodies : checkFunctions 0 p.defs c₁ with ⟨halt | _, c₂⟩
    · rw [hbodies] at h
      cases h
      have hstopped := hnothing.trans (checkFunctions_logged hbodies)
      exact hstopped.stop (by simp) (List.subset_append_left _ _)
    · rw [hbodies] at h
      have hdone := hnothing.trans (checkFunctions_logged hbodies)
      have hall := Logged.trans (by simpa using hdone) (checkExprs_logged h)
      rwa [List.append_nil] at hall

theorem isSome_typeAt {record : List (Path × Ty)} {path : Path} :
    (typeAt record path).isSome = true ↔ path ∈ record.map (·.1) := by
  rw [typeAt, Option.isSome_map, List.find?_isSome, List.mem_map]
  simp

/-- Where no path is recorded twice, each entry counts. -/
theorem typeAt_eq_some_iff {record : List (Path × Ty)} (hnodup : (record.map (·.1)).Nodup)
    {path : Path} {t : Ty} : typeAt record path = some t ↔ (path, t) ∈ record := by
  constructor
  · intro h
    obtain ⟨x, hfind, rfl⟩ := Option.map_eq_some_iff.mp h
    have hpath : x.1 = path := by simpa using List.find?_some hfind
    subst hpath
    exact List.mem_of_find?_eq_some hfind
  · intro hmem
    obtain ⟨u, hu⟩ := Option.isSome_iff_exists.mp
      (isSome_typeAt.mpr (List.mem_map_of_mem (f := (·.1)) hmem))
    obtain ⟨x, hfind, rfl⟩ := Option.map_eq_some_iff.mp hu
    have hpath : x.1 = path := by simpa using List.find?_some hfind
    have heq : x = (path, t) :=
      List.inj_on_of_nodup_map hnodup (List.mem_of_find?_eq_some hfind) hmem hpath
    rw [hu, heq]

/-- A new session records types of expressions of the program only, and with an expression it has
recorded everything inside it, whatever the verdict. If the program is accepted, all expressions
have been recorded with types that fit together, and every body with the declared result. -/
theorem checkProgram_record {p : Program} {r : Except Halt Ty} (hnew : c.record = [])
    (h : c.checkProgram p = (r, c')) :
    (∀ path, (typeAt c'.record path).isSome = true → path ∈ p.nodes.map (·.1)) ∧
      (∀ path e, (path, e) ∈ p.nodes → (typeAt c'.record path).isSome = true →
        ∀ n ∈ e.nodes path, (typeAt c'.record n.1).isSome = true) ∧
      ∀ t, r = .ok t →
        (∀ path, (typeAt c'.record path).isSome = true ↔ path ∈ p.nodes.map (·.1)) ∧
        (∀ path e u, (path, e) ∈ p.nodes → typeAt c'.record path = some u →
          e.Consistent (fun q v => typeAt c'.record q = some v) path u) ∧
        ∀ i d, p.defs[i]? = some d → typeAt c'.record [i] = some d.result := by
  obtain ⟨block, hrecord, hsound, hall⟩ := checkProgram_logged h
  rw [hnew, List.append_nil] at hrecord
  rw [hrecord]
  -- An entry is for the only expression that has its path.
  have hentry : ∀ path e u, (path, e) ∈ p.nodes → (path, u) ∈ block →
      e.Consistent (fun q v => (q, v) ∈ block) path u ∧ Covers block (e.nodes path) := by
    intro path e u he hu
    obtain ⟨e', he', hrest⟩ := hsound (path, u) hu
    have heq : (path, e') = (path, e) := List.inj_on_of_nodup_map (nodup_nodes p) he' he rfl
    cases heq
    rwa [List.append_nil] at hrest
  have hnodes : ∀ path, (typeAt block path).isSome = true → path ∈ p.nodes.map (·.1) := by
    intro path hpath
    obtain ⟨x, hx, rfl⟩ := List.mem_map.mp (isSome_typeAt.mp hpath)
    obtain ⟨e, he, -⟩ := hsound x hx
    exact List.mem_map_of_mem (f := (·.1)) he
  refine ⟨hnodes, fun path e he hpath n hn => ?_, fun t ht => ?_⟩
  · obtain ⟨x, hx, rfl⟩ := List.mem_map.mp (isSome_typeAt.mp hpath)
    exact isSome_typeAt.mpr ((hentry x.1 e x.2 he hx).2 n hn)
  · obtain ⟨hkeys, hknown⟩ := hall ⟨t, ht⟩
    have hnodup : (block.map (·.1)).Nodup := hkeys.nodup_iff.mpr (nodup_nodes p)
    refine ⟨fun path => ⟨hnodes path, fun hpath => ?_⟩, fun path e u he hu => ?_, fun i d hd => ?_⟩
    · exact isSome_typeAt.mpr (hkeys.symm.subset hpath)
    · have hconsistent := (hentry path e u he ((typeAt_eq_some_iff hnodup).mp hu)).1
      exact hconsistent.mono fun q v hqv => (typeAt_eq_some_iff hnodup).mpr hqv
    · refine (typeAt_eq_some_iff hnodup).mpr (hknown ?_)
      have hmem : (d, i) ∈ p.defs.zipIdx := List.mk_mem_zipIdx_iff_getElem?.mpr hd
      exact List.mem_map_of_mem (f := fun d => ([d.2], d.1.result)) hmem

/-- A program that is accepted, and one that is turned down at its second operand, when the
assignment in the first one has been recorded. -/
theorem pair_recorded :
    let pair : FunctionDef :=
      { name := "pair"
        params := [⟨"x", .number⟩]
        result := .list .number
        body := .list [.ref "x", .ref "x"] }
    let choice : Expr := .ite (.bool true) (.call "pair" [.number 1]) (.list [.number 2])
    let p : Program := { defs := [pair], exprs := [choice] }
    let q : Program := { exprs := [.binary .sub (.assign "n" (.number 1)) (.text "s")] }
    let recorded := (({} : Checker).checkProgram p).2.record
    let left := (({} : Checker).checkProgram q).2.record
    ({} : Checker).record = [] ∧ (({} : Checker).checkProgram p).1 = .ok (.list .number) ∧
      typeAt recorded [0] = some (.list .number) ∧
      (∃ t, typeAt recorded [1] = some t ∧ typeAt recorded [1, 0] = some .boolean ∧
        typeAt recorded [1, 1] = some t ∧ typeAt recorded [1, 2] = some t) ∧
      (typeAt left [0]).isSome = false ∧ (typeAt left [0, 0]).isSome = true ∧
      (typeAt left [0, 0, 0]).isSome = true := by
  intro pair choice p q recorded left
  have haccepted : (({} : Checker).checkProgram p).1 = .ok (.list .number) :=
    checkProgram_of_acceptsAt (by decide +kernel)
  obtain ⟨-, -, hall⟩ := checkProgram_record (c := {}) (p := p) rfl rfl
  obtain ⟨hnodes, hconsistent, hresults⟩ := hall _ haccepted
  have hchoice : ([1], choice) ∈ p.nodes := by
    simp [p, Program.nodes, Program.nodes.units, Expr.nodes_eq [1] choice]
  obtain ⟨t, ht⟩ := Option.isSome_iff_exists.mp
    ((hnodes [1]).mpr (List.mem_map_of_mem (f := (·.1)) hchoice))
  have hassign : ([0, 0], .assign "n" (.number 1)) ∈ q.nodes := by
    simp [q, Program.nodes, Program.nodes.units, Expr.nodes]
  have hleft : (typeAt left [0, 0]).isSome = true := by decide +kernel
  obtain ⟨-, hclosed, -⟩ := checkProgram_record (c := {}) (p := q) rfl rfl
  have hvalue : (typeAt left [0, 0, 0]).isSome = true :=
    hclosed [0, 0] _ hassign hleft ([0, 0, 0], .number 1) (by simp [Expr.nodes])
  exact ⟨rfl, haccepted, hresults 0 pair rfl, ⟨t, ht, hconsistent [1] choice t hchoice ht⟩,
    by decide +kernel, hleft, hvalue⟩

end Checker

end TreeLang
