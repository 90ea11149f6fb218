import TreeLang.Proofs.Ty.Ending
import TreeLang.Proofs.Typing.Programs

/-!
# When checking ends

Checking an expression ends, with a type or a report, unless the parameters of some call that it
comes to are matched with the argument types forever. `Enters` says which expressions, in which
settings, checking comes to next, and `Meets` which calls it comes to in the end.

Main statements: `Check.endless_iff_runsOn`, by which these calls are the only reason, and
`FnType.ends_of_independent`, by which a call ends if each variable of the argument types has one
place in them and none in the parameters, as in every call on ground types.
-/

namespace TreeLang

open Relation

/-! ## The matches of one call -/

namespace FnType

/-- Matching the parameters, from argument `i` on, with argument types comes to an end at every
argument that it reaches. -/
def EndsFrom (f : FnType) (i : Nat) (ts : List Ty) (s : Subst) : Prop :=
  ∀ j p a s', f.paramAt? (i + j) = some p → ts[j]? = some a → ArgsMatch f i (ts.take j) s s' →
    Ty.Ends p a s'

/-- Matching the parameters with argument types comes to an end. -/
def Ends (f : FnType) (ts : List Ty) : Prop := f.EndsFrom 0 ts ∅

@[simp] theorem endsFrom_nil {f : FnType} {i : Nat} {s : Subst} : f.EndsFrom i [] s := by
  intro j p a s' _ ha
  cases ha

/-- An argument without a parameter is passed over. -/
theorem endsFrom_extra {f : FnType} {i : Nat} {a : Ty} {as : List Ty} {s : Subst}
    (hnone : f.paramAt? i = none) : f.EndsFrom i (a :: as) s ↔ f.EndsFrom (i + 1) as s := by
  have hshift : ∀ j, i + 1 + j = i + (j + 1) := by omega
  constructor
  · intro h j p b s' hp hb hmatch
    exact h (j + 1) p b s' (by rw [← hshift]; exact hp) hb (.extra hnone hmatch)
  · intro h j p b s' hp hb hmatch
    cases j with
    | zero =>
      rw [Nat.add_zero, hnone] at hp
      cases hp
    | succ j =>
      cases hmatch with
      | extra _ hrest => exact h j p b s' (by rw [hshift]; exact hp) hb hrest
      | arg hq =>
        rw [hnone] at hq
        cases hq

/-- An argument is matched, and the later ones only if it matches. -/
theorem endsFrom_arg {f : FnType} {i : Nat} {p a : Ty} {as : List Ty} {s : Subst}
    (hp : f.paramAt? i = some p) :
    f.EndsFrom i (a :: as) s ↔ Ty.Ends p a s ∧
      ∀ s', Ty.matchTypes? p a s = some (true, s') → f.EndsFrom (i + 1) as s' := by
  have hshift : ∀ j, i + 1 + j = i + (j + 1) := by omega
  constructor
  · intro h
    refine ⟨h 0 p a s hp rfl .nil, ?_⟩
    intro s' hone j q b s'' hq hb hmatch
    exact h (j + 1) q b s'' (by rw [← hshift]; exact hq) hb (.arg hp hone hmatch)
  · rintro ⟨hhead, htail⟩ j q b s' hq hb hmatch
    cases j with
    | zero =>
      rw [Nat.add_zero, hp] at hq
      cases hq
      cases hb
      cases hmatch
      exact hhead
    | succ j =>
      cases hmatch with
      | extra hnone =>
        rw [hp] at hnone
        cases hnone
      | arg hp' hone hrest =>
        rw [hp] at hp'
        cases hp'
        exact htail _ hone j q b s' (by rw [hshift]; exact hq) hb hrest

/-- Each variable of the argument types has one place in them, and none in the parameters. -/
structure Independent (f : FnType) (ts : List Ty) : Prop where
  nodup : (Ty.occurrencesAll ts).Nodup
  apart : ∀ p ∈ f.params, p ∈ Ty.apart (Ty.occurrencesAll ts)

instance (f : FnType) (ts : List Ty) : Decidable (f.Independent ts) :=
  decidable_of_iff ((Ty.occurrencesAll ts).Nodup ∧
      ∀ p ∈ f.params, ∀ x ∈ Ty.occurrencesAll ts, x ∉ p.occurrences)
    ⟨fun h => ⟨h.1, h.2⟩, fun h => ⟨h.nodup, h.apart⟩⟩

theorem mem_params_of_paramAt? {f : FnType} {i : Nat} {p : Ty} (h : f.paramAt? i = some p) :
    p ∈ f.params := by
  unfold paramAt? at h
  split at h
  · exact List.mem_of_getLast? h
  · exact List.mem_of_getElem? h

theorem endsFrom_of_avoids {f : FnType} {i : Nat} {ts : List Ty} {s : Subst}
    (hnodup : (Ty.occurrencesAll ts).Nodup)
    (hparams : ∀ p ∈ f.params, p ∈ Ty.apart (Ty.occurrencesAll ts))
    (havoids : Ty.Avoids (Ty.occurrencesAll ts) s) (hs : Ty.Chains s) : f.EndsFrom i ts s := by
  induction ts generalizing i s with
  | nil => exact endsFrom_nil
  | cons a as ih =>
    rw [Ty.occurrencesAll] at hnodup hparams havoids
    obtain ⟨ha, has, hdisjoint⟩ := List.nodup_append.mp hnodup
    have hleft : a.occurrences ⊆ a.occurrences ++ Ty.occurrencesAll as :=
      List.subset_append_left ..
    have hright : Ty.occurrencesAll as ⊆ a.occurrences ++ Ty.occurrencesAll as :=
      List.subset_append_right ..
    have hparams' : ∀ p ∈ f.params, p ∈ Ty.apart (Ty.occurrencesAll as) :=
      fun p hp x hx => hparams p hp x (hright hx)
    cases hparam : f.paramAt? i with
    | none =>
      rw [endsFrom_extra hparam]
      exact ih has hparams' (havoids.mono hright) hs
    | some p =>
      have hp : p ∈ f.params := mem_params_of_paramAt? hparam
      obtain ⟨n, b, s₁, hn, hs₁⟩ := Ty.settles a s p ha (havoids.mono hleft)
        (fun x hx => hparams p hp x (hleft hx)) hs
      refine (endsFrom_arg hparam).mpr ⟨⟨n, (b, s₁), hn⟩, ?_⟩
      intro s' hmatch
      -- The match is the one that settles, and it has not touched the variables to come.
      have hmax := Ty.matchWithin_mono (Nat.le_max_right (Ty.matchDepth p a s) n) hn
      rw [Ty.matchWithin_mono (Nat.le_max_left _ n) hmatch] at hmax
      cases hmax
      refine ih has hparams' ?_ hs₁
      refine (havoids.mono hright).matchWithin (hparams' p hp) ?_ hmatch
      exact fun x hx hxa => hdisjoint x hxa x hx rfl

/-- A call ends if the variables of its argument types are their own, each in one place. -/
theorem ends_of_independent {f : FnType} {ts : List Ty} (h : f.Independent ts) : f.Ends ts := by
  refine endsFrom_of_avoids h.nodup h.apart ⟨fun x _ => rfl, ?_⟩ ?_
  · intro x t hx
    cases hx
  · exact ⟨fun x => ⟨x, fun y hxy => by cases hxy⟩⟩

end FnType

/-! ## Steps that run forever -/

namespace Check

variable {α β : Type}

/-- The step runs forever from `s`. -/
def Endless (x : Check α) (s : CheckState) : Prop := (x.run s).1 = .error .endless

@[simp] theorem not_endless_pure {a : α} {s : CheckState} : ¬ Endless (pure a) s := nofun

@[simp] theorem not_endless_problem {e : Expr} {code : Code} {text : String} {s : CheckState} :
    ¬ Endless (problem (α := α) e code text) s := nofun

@[simp] theorem not_endless_get {s : CheckState} : ¬ Endless get s := nofun

@[simp] theorem not_endless_set {s s₀ : CheckState} : ¬ Endless (set s₀) s := nofun

@[simp] theorem not_endless_modify {f : CheckState → CheckState} {s : CheckState} :
    ¬ Endless (modify f) s := nofun

theorem endless_throw {s : CheckState} : Endless (throw .endless : Check α) s := rfl

theorem endless_ite {c : Prop} [Decidable c] {x y : Check α} {s : CheckState} :
    Endless (if c then x else y) s ↔ (c ∧ Endless x s) ∨ (¬ c ∧ Endless y s) := by
  by_cases h : c <;> simp [h]

/-- Two steps run forever if the first one does, or the second one after it. -/
theorem endless_bind {x : Check α} {f : α → Check β} {s : CheckState} :
    Endless (x >>= f) s ↔ Endless x s ∨ ∃ a s', Gives x s a s' ∧ Endless (f a) s' := by
  have hrun : (x >>= f).run s = ExceptT.bindCont f (x.run s).1 (x.run s).2 := rfl
  unfold Endless Gives
  rw [hrun]
  rcases x.run s with ⟨r, s'⟩
  cases r with
  | error h =>
    constructor
    · intro h
      cases h
      exact .inl rfl
    · rintro (h | ⟨a, s₁, h, -⟩)
      · cases h
        rfl
      · cases h
  | ok a =>
    constructor
    · intro h
      exact .inr ⟨a, s', rfl, h⟩
    · rintro (h | ⟨a, s₁, h₁, h₂⟩)
      · cases h
      · cases h₁
        exact h₂

theorem Endless.bind {x : Check α} {f : α → Check β} {s : CheckState} (h : Endless x s) :
    Endless (x >>= f) s := endless_bind.mpr (.inl h)

theorem Gives.bind_endless {x : Check α} {f : α → Check β} {s s' : CheckState} {a : α}
    (h : Gives x s a s') (hf : Endless (f a) s') : Endless (x >>= f) s :=
  endless_bind.mpr (.inr ⟨a, s', h, hf⟩)

@[simp] theorem endless_map {g : α → β} {x : Check α} {s : CheckState} :
    Endless (g <$> x) s ↔ Endless x s := by
  simp only [map_eq_pure_bind, endless_bind, not_endless_pure, and_false, exists_false, or_false]

/-! ## Helper steps of the checker -/

@[simp] theorem not_endless_note {path : Path} {t : Ty} {s : CheckState} :
    ¬ Endless (note path t) s := nofun

@[simp] theorem not_endless_fresh {stem : String} {s : CheckState} : ¬ Endless (fresh stem) s := by
  simp only [fresh, endless_bind, not_endless_get, not_endless_set, not_endless_pure, and_false,
    exists_false, or_false, not_false_eq_true]

@[simp] theorem not_endless_operatorType {e : Expr} {op : Operator} {l r : Ty} {s : CheckState} :
    ¬ Endless (operatorType e op l r) s := by
  unfold operatorType
  cases op with
  | add =>
    simp only [endless_ite, not_endless_pure, and_false, false_or, not_and]
    intro _ _
    split
    · simp [endless_ite]
    · simp
  | other s => simp
  | _ => simp [endless_ite]

@[simp] theorem not_endless_signature {outer : ScopeChain} {e : Expr} {name : String} {n : Nat}
    {s : CheckState} : ¬ Endless (signature outer e name n) s := by
  have hcallee : ∀ s, ¬ Endless (callee outer e name) s := by
    intro s
    simp only [callee, chain, endless_bind, not_endless_get, not_endless_pure, false_or, and_false,
      exists_false, not_exists, not_and]
    intro c s' _
    split
    · simp
    · split
      · split <;> simp
      · simp
  simp [signature, endless_bind, endless_ite, hcallee]

@[simp] theorem not_endless_condition {c : Expr} {t : Ty} {s : CheckState} :
    ¬ Endless (infer.condition c t) s := by
  simp [infer.condition, endless_ite]

/-- Matching the arguments of a call runs forever exactly when one of its matches does. -/
theorem endless_matchArgs {e : Expr} {name : String} {f : FnType} {i : Nat} {ts : List Ty}
    {b : Subst} {s : CheckState} :
    Endless (matchArgs e name f i ts b) s ↔ ¬ f.EndsFrom i ts b := by
  induction ts generalizing i b with
  | nil => simp [matchArgs]
  | cons a as ih =>
    rw [matchArgs]
    cases hp : f.paramAt? i with
    | none => rw [FnType.endsFrom_extra hp, ih]
    | some p =>
      rw [FnType.endsFrom_arg hp]
      dsimp only
      cases hmatch : Ty.matchTypes? p a b with
      | none =>
        refine iff_of_true endless_throw ?_
        rintro ⟨hends, -⟩
        exact Ty.matchTypes?_eq_none_iff.mp hmatch hends
      | some r =>
        obtain ⟨matched, b'⟩ := r
        have hends : Ty.Ends p a b := ⟨_, _, hmatch⟩
        cases matched with
        | true => simp [ih, hends]
        | false => simp [hends]

end Check

/-! ## What checking comes to -/

/-- Checking the first expression in its setting comes to checking the second one in its. -/
inductive Enters (outer : ScopeChain) : Setting × Expr → Setting × Expr → Prop
  | assign {σ : Setting} {name : String} {value : Expr} :
      Enters outer (σ, .assign name value) (σ, value)
  | left {σ : Setting} {op : Operator} {l r : Expr} : Enters outer (σ, .binary op l r) (σ, l)
  | right {σ σ₁ : Setting} {op : Operator} {l r : Expr} {t : Ty} : Typed outer σ l t σ₁ →
      Enters outer (σ, .binary op l r) (σ₁, r)
  | arg {σ σ₁ σ₂ : Setting} {name : String} {as bs : List Expr} {a : Expr} {f : FnType}
      {ts : List Ty} : Signed outer σ name (as ++ a :: bs).length f σ₁ →
      TypedAll outer σ₁ as ts σ₂ → Enters outer (σ, .call name (as ++ a :: bs)) (σ₂, a)
  | cond {σ : Setting} {c t f : Expr} : Enters outer (σ, .ite c t f) (σ, c)
  | thenBranch {σ σ₁ : Setting} {c t f : Expr} : Typed outer σ c .boolean σ₁ →
      Enters outer (σ, .ite c t f) (σ₁, t)
  | elseBranch {σ σ₁ σ₂ : Setting} {c t f : Expr} {tt : Ty} : Typed outer σ c .boolean σ₁ →
      Typed outer σ₁ t tt σ₂ → Enters outer (σ, .ite c t f) (σ₂, f)
  | loopCond {σ : Setting} {c b : Expr} : Enters outer (σ, .loop c b) (σ, c)
  | loopBody {σ σ₁ : Setting} {c b : Expr} : Typed outer σ c .boolean σ₁ →
      Enters outer (σ, .loop c b) (σ₁, b)
  | body {σ σ₁ : Setting} {as bs : List Expr} {a : Expr} {ts : List Ty} :
      TypedAll outer σ as ts σ₁ → Enters outer (σ, .seq (as ++ a :: bs)) (σ₁, a)
  | firstElem {σ : Setting} {e : Expr} {es : List Expr} :
      Enters outer (σ, .list (e :: es)) (σ, e)
  | elem {σ σ₁ σ₂ : Setting} {e a : Expr} {as bs : List Expr} {t : Ty} : Typed outer σ e t σ₁ →
      TypedElems outer t σ₁ as σ₂ → Enters outer (σ, .list (e :: (as ++ a :: bs))) (σ₂, a)
  | firstKey {σ : Setting} {k v : Expr} {es : List (Expr × Expr)} :
      Enters outer (σ, .dict ((k, v) :: es)) (σ, k)
  | firstValue {σ σ₁ : Setting} {k v : Expr} {es : List (Expr × Expr)} {kt : Ty} :
      Typed outer σ k kt σ₁ → Enters outer (σ, .dict ((k, v) :: es)) (σ₁, v)
  | key {σ σ₁ σ₂ σ₃ : Setting} {k v k' v' : Expr} {as bs : List (Expr × Expr)} {kt vt : Ty} :
      Typed outer σ k kt σ₁ → Typed outer σ₁ v vt σ₂ → TypedEntries outer kt vt σ₂ as σ₃ →
      Enters outer (σ, .dict ((k, v) :: (as ++ (k', v') :: bs))) (σ₃, k')
  | value {σ σ₁ σ₂ σ₃ σ₄ : Setting} {k v k' v' : Expr} {as bs : List (Expr × Expr)}
      {kt vt kt' : Ty} : Typed outer σ k kt σ₁ → Typed outer σ₁ v vt σ₂ →
      TypedEntries outer kt vt σ₂ as σ₃ → Typed outer σ₃ k' kt' σ₄ →
      Enters outer (σ, .dict ((k, v) :: (as ++ (k', v') :: bs))) (σ₄, v')

/-- Checking an expression that is a call comes to matching `f` with argument types. -/
def CallsFor (outer : ScopeChain) (x : Setting × Expr) (f : FnType) (ts : List Ty) : Prop :=
  ∃ name args σ₁ σ₂, x.2 = .call name args ∧ Signed outer x.1 name args.length f σ₁ ∧
    TypedAll outer σ₁ args ts σ₂

/-- Checking an expression comes to a call in which `f` is matched with argument types. -/
def Meets (outer : ScopeChain) (x : Setting × Expr) (f : FnType) (ts : List Ty) : Prop :=
  ∃ y, ReflTransGen (Enters outer) x y ∧ CallsFor outer y f ts

theorem Enters.sizeOf_lt {outer : ScopeChain} {x y : Setting × Expr} (h : Enters outer x y) :
    sizeOf y.2 < sizeOf x.2 := by
  have hlt {α : Type} [SizeOf α] (as : List α) (a : α) (bs : List α) :
      sizeOf a < sizeOf (as ++ a :: bs) := List.sizeOf_lt_of_mem (by simp)
  cases h with
  | @arg _ _ _ _ as bs a | @body _ _ as bs a | @elem _ _ _ _ a as bs =>
    have := hlt as a bs
    simp
    omega
  | @key _ _ _ _ _ _ k v as bs | @value _ _ _ _ _ _ _ k v as bs =>
    have := hlt as (k, v) bs
    simp at this ⊢
    omega
  | _ => simp <;> omega

namespace Check

variable {outer : ScopeChain}

/-- Expressions that are checked in order run forever at one of them. -/
theorem endless_inferAll {es : List Expr} {path : Path} {i : Nat} {s : CheckState}
    (h : Endless (inferAll outer path i es) s) :
    ∃ as a bs ts s' path', es = as ++ a :: bs ∧ TypedAll outer s.setting as ts s'.setting ∧
      Endless (infer outer path' a) s' := by
  induction es generalizing i s with
  | nil => simp [inferAll] at h
  | cons e es ih =>
    simp only [inferAll, endless_bind, not_endless_pure, and_false, exists_false, or_false] at h
    rcases h with h | ⟨t, s₁, he, h⟩
    · exact ⟨[], e, es, [], s, _, rfl, .nil, h⟩
    · obtain ⟨as, a, bs, ts, s', path', rfl, has, ha⟩ := ih h
      exact ⟨e :: as, a, bs, t :: ts, s', path', rfl, .cons (infer_typed e he) has, ha⟩

theorem endless_inferElems {es : List Expr} {path : Path} {whole : Expr} {first : Ty} {i : Nat}
    {s : CheckState} (h : Endless (inferElems outer path whole first i es) s) :
    ∃ as a bs s' path', es = as ++ a :: bs ∧ TypedElems outer first s.setting as s'.setting ∧
      Endless (infer outer path' a) s' := by
  induction es generalizing i s with
  | nil => simp [inferElems] at h
  | cons e es ih =>
    simp only [inferElems, endless_bind, endless_ite, not_endless_problem, and_false,
      or_false] at h
    rcases h with h | ⟨t, s₁, he, hsame, h⟩
    · exact ⟨[], e, es, s, _, rfl, .nil, h⟩
    · obtain ⟨as, a, bs, s', path', rfl, has, ha⟩ := ih h
      exact ⟨e :: as, a, bs, s', path', rfl, .cons (infer_typed e he) hsame has, ha⟩

theorem endless_inferEntries {es : List (Expr × Expr)} {path : Path} {whole : Expr} {key value : Ty}
    {i : Nat} {s : CheckState} (h : Endless (inferEntries outer path whole key value i es) s) :
    ∃ as k v bs s' path', es = as ++ (k, v) :: bs ∧
      TypedEntries outer key value s.setting as s'.setting ∧
      (Endless (infer outer path' k) s' ∨ ∃ kt s'' path'',
        Typed outer s'.setting k kt s''.setting ∧ Endless (infer outer path'' v) s'') := by
  induction es generalizing i s with
  | nil => simp [inferEntries] at h
  | cons e es ih =>
    obtain ⟨k, v⟩ := e
    simp only [inferEntries, endless_bind, endless_ite, not_endless_problem, and_false, false_or,
      Bool.not_eq_true', Bool.not_eq_false] at h
    rcases h with h | ⟨kt, s₁, hk, h | ⟨vt, s₂, hv, hkey, hvalue, h⟩⟩
    · exact ⟨[], k, v, es, s, _, rfl, .nil, .inl h⟩
    · exact ⟨[], k, v, es, s, path, rfl, .nil, .inr ⟨kt, s₁, _, infer_typed k hk, h⟩⟩
    · obtain ⟨as, k', v', bs, s', path', rfl, has, h⟩ := ih h
      exact ⟨(k, v) :: as, k', v', bs, s', path', rfl,
        .cons (infer_typed k hk) (infer_typed v hv) hkey hvalue has, h⟩

/-- An expression runs forever in one that checking comes to, or in the match of its arguments. -/
theorem Endless.down {e : Expr} {path : Path} {s : CheckState}
    (h : Endless (infer outer path e) s) :
    (∃ e' s' path', Enters outer (s.setting, e) (s'.setting, e') ∧
      Endless (infer outer path' e') s') ∨
    ∃ f ts, CallsFor outer (s.setting, e) f ts ∧ ¬ f.Ends ts := by
  cases e with
  | number x | text x | bool b => simp [infer] at h
  | ref name =>
    simp only [infer, chain, endless_bind, not_endless_get, not_endless_pure, and_false,
      exists_false, false_or] at h
    obtain ⟨c, s', -, h⟩ := h
    split at h <;> simp [endless_bind] at h
  | assign name value =>
    simp only [infer, endless_bind, not_endless_note, not_endless_modify, not_endless_pure,
      and_false, exists_false, or_false] at h
    exact .inl ⟨value, s, _, .assign, h⟩
  | binary op l r =>
    simp only [infer, endless_bind, not_endless_note, not_endless_operatorType,
      not_endless_pure, and_false, exists_false, or_false] at h
    rcases h with h | ⟨t, s₁, hl, h⟩
    · exact .inl ⟨l, s, _, .left, h⟩
    · exact .inl ⟨r, s₁, _, .right (infer_typed l hl), h⟩
  | call name args =>
    simp only [infer, endless_bind, not_endless_note, not_endless_signature, not_endless_pure,
      and_false, exists_false, false_or, or_false, endless_matchArgs, signature_gives] at h
    obtain ⟨f, s₁, ⟨hf, -⟩, h | ⟨ts, s₂, hts, h⟩⟩ := h
    · obtain ⟨as, a, bs, ts, s₂, path', rfl, has, ha⟩ := endless_inferAll h
      exact .inl ⟨a, s₂, path', .arg hf has, ha⟩
    · exact .inr ⟨f, ts, ⟨name, args, _, _, rfl, hf, inferAll_typed (fun e _ => infer_typed e) hts⟩,
        h⟩
  | ite c t f =>
    simp only [infer, endless_bind, not_endless_note, not_endless_condition, endless_ite,
      not_endless_pure, not_endless_problem, and_false, or_self, exists_false, false_or, or_false,
      condition_gives] at h
    rcases h with h | ⟨ct, s₁, hc, _, _, ⟨rfl, rfl⟩, h | ⟨tt, s₂, ht, h⟩⟩
    · exact .inl ⟨c, s, _, .cond, h⟩
    · exact .inl ⟨t, _, _, .thenBranch (infer_typed c hc), h⟩
    · exact .inl ⟨f, s₂, _, .elseBranch (infer_typed c hc) (infer_typed t ht), h⟩
  | loop c b =>
    simp only [infer, endless_bind, not_endless_note, not_endless_condition, not_endless_pure,
      and_false, exists_false, false_or, or_false, condition_gives] at h
    rcases h with h | ⟨ct, s₁, hc, _, _, ⟨rfl, rfl⟩, h⟩
    · exact .inl ⟨c, s, _, .loopCond, h⟩
    · exact .inl ⟨b, _, _, .loopBody (infer_typed c hc), h⟩
  | seq bodies =>
    simp only [infer, endless_bind, not_endless_note, not_endless_pure, and_false, exists_false,
      or_false] at h
    obtain ⟨as, a, bs, ts, s', path', rfl, has, ha⟩ := endless_inferAll h
    exact .inl ⟨a, s', path', .body has, ha⟩
  | list elems =>
    cases elems with
    | nil => simp [infer, endless_bind] at h
    | cons e es =>
      simp only [infer, endless_bind, not_endless_note, not_endless_pure, and_false, exists_false,
        or_false] at h
      rcases h with h | ⟨t, s₁, he, h⟩
      · exact .inl ⟨e, s, _, .firstElem, h⟩
      · obtain ⟨as, a, bs, s', path', rfl, has, ha⟩ := endless_inferElems h
        exact .inl ⟨a, s', path', .elem (infer_typed e he) has, ha⟩
  | dict entries =>
    cases entries with
    | nil => simp [infer, endless_bind] at h
    | cons e es =>
      obtain ⟨k, v⟩ := e
      simp only [infer, endless_bind, not_endless_note, not_endless_pure, and_false, exists_false,
        or_false] at h
      rcases h with h | ⟨kt, s₁, hk, h | ⟨vt, s₂, hv, h⟩⟩
      · exact .inl ⟨k, s, _, .firstKey, h⟩
      · exact .inl ⟨v, s₁, _, .firstValue (infer_typed k hk), h⟩
      · obtain ⟨as, k', v', bs, s', path', rfl, has, h | ⟨kt', s'', path'', hk', h⟩⟩ :=
          endless_inferEntries h
        · exact .inl ⟨k', s', path', .key (infer_typed k hk) (infer_typed v hv) has, h⟩
        · exact .inl ⟨v', s'', path'', .value (infer_typed k hk) (infer_typed v hv) has hk', h⟩

/-- A run that does not end meets a call that does not. -/
theorem Endless.meets {e : Expr} {path : Path} {s : CheckState}
    (h : Endless (infer outer path e) s) :
    ∃ f ts, Meets outer (s.setting, e) f ts ∧ ¬ f.Ends ts := by
  induction hn : sizeOf e using Nat.strong_induction_on generalizing e path s with
  | _ n ih =>
    rcases h.down with ⟨e', s', path', henters, h'⟩ | ⟨f, ts, hcalls, hends⟩
    · have hlt : sizeOf e' < n := hn ▸ henters.sizeOf_lt
      obtain ⟨f, ts, ⟨y, hy, hcalls⟩, hends⟩ := ih (sizeOf e') hlt h' rfl
      exact ⟨f, ts, ⟨y, .head henters hy, hcalls⟩, hends⟩
    · exact ⟨f, ts, ⟨_, .refl, hcalls⟩, hends⟩

/-- The expression runs forever in the setting, wherever it stands. -/
def EndlessIn (outer : ScopeChain) (x : Setting × Expr) : Prop :=
  ∀ path record, Endless (infer outer path x.2) (x.1.state record)

theorem inferAll_endless {as bs : List Expr} {a : Expr} {ts : List Ty} {σ σ' : Setting}
    (has : TypedAll outer σ as ts σ') (ha : EndlessIn outer (σ', a)) (path : Path) (i : Nat)
    (record : List (Path × Ty)) :
    Endless (inferAll outer path i (as ++ a :: bs)) (σ.state record) := by
  induction as generalizing σ ts i record with
  | nil =>
    cases has
    exact (ha _ record).bind
  | cons e as ih =>
    cases has with
    | cons he hrest =>
      obtain ⟨r₁, h₁⟩ := infer_complete e he (path ++ [i]) record
      exact h₁.bind_endless (ih hrest (i + 1) r₁).bind

theorem inferElems_endless {as bs : List Expr} {a whole : Expr} {first : Ty} {σ σ' : Setting}
    (has : TypedElems outer first σ as σ') (ha : EndlessIn outer (σ', a)) (path : Path) (i : Nat)
    (record : List (Path × Ty)) :
    Endless (inferElems outer path whole first i (as ++ a :: bs)) (σ.state record) := by
  induction as generalizing σ i record with
  | nil =>
    cases has
    exact (ha _ record).bind
  | cons e as ih =>
    cases has with
    | cons he hsame hrest =>
      obtain ⟨r₁, h₁⟩ := infer_complete e he (path ++ [i]) record
      exact h₁.bind_endless (endless_ite.mpr (.inl ⟨hsame, ih hrest (i + 1) r₁⟩))

theorem inferEntries_endless {as bs : List (Expr × Expr)} {k v whole : Expr} {key value : Ty}
    {σ σ' : Setting} (has : TypedEntries outer key value σ as σ')
    (h : EndlessIn outer (σ', k) ∨ ∃ kt σ'', Typed outer σ' k kt σ'' ∧ EndlessIn outer (σ'', v))
    (path : Path) (i : Nat) (record : List (Path × Ty)) :
    Endless (inferEntries outer path whole key value i (as ++ (k, v) :: bs)) (σ.state record) := by
  induction as generalizing σ i record with
  | nil =>
    cases has
    rcases h with hk | ⟨kt, σ'', hk, hv⟩
    · exact (hk _ record).bind
    · obtain ⟨r₁, h₁⟩ := infer_complete k hk (path ++ [i]) record
      exact h₁.bind_endless (hv _ r₁).bind
  | cons e as ih =>
    cases has with
    | @cons _ _ _ _ _ _ _ _ k' v' _ hk hv hkey hvalue hrest =>
      obtain ⟨r₁, h₁⟩ := infer_complete k' hk (path ++ [i]) record
      obtain ⟨r₂, h₂⟩ := infer_complete v' hv (path ++ [i + 1]) r₁
      refine h₁.bind_endless (h₂.bind_endless ?_)
      refine endless_ite.mpr (.inr ⟨by simp [hkey], endless_ite.mpr (.inr ⟨by simp [hvalue], ?_⟩)⟩)
      exact ih hrest (i + 2) r₂

end Check

/-- An expression runs forever if one that checking comes to does. -/
theorem Enters.endless {outer : ScopeChain} {x y : Setting × Expr} (h : Enters outer x y)
    (hy : Check.EndlessIn outer y) : Check.EndlessIn outer x := by
  intro path record
  have hcond {c : Expr} (s : CheckState) : Check.Gives (Check.infer.condition c .boolean) s ⟨⟩ s :=
    Check.condition_gives.mpr ⟨rfl, rfl⟩
  cases h with
  | assign => exact (hy _ record).bind
  | left => exact (hy _ record).bind
  | right hl =>
    obtain ⟨r₁, h₁⟩ := Check.infer_complete _ hl (path ++ [0]) record
    exact h₁.bind_endless (hy _ r₁).bind
  | @arg σ σ₁ _ name as bs a f _ hf has =>
    have h₁ : Check.Gives (Check.signature outer (.call name (as ++ a :: bs)) name _)
        (σ.state record) f (σ₁.state record) := Check.signature_gives.mpr ⟨hf, rfl⟩
    exact h₁.bind_endless (Check.inferAll_endless has hy path 0 record).bind
  | cond => exact (hy _ record).bind
  | thenBranch hc =>
    obtain ⟨r₁, h₁⟩ := Check.infer_complete _ hc (path ++ [0]) record
    exact h₁.bind_endless ((hcond _).bind_endless (hy _ r₁).bind)
  | elseBranch hc ht =>
    obtain ⟨r₁, h₁⟩ := Check.infer_complete _ hc (path ++ [0]) record
    obtain ⟨r₂, h₂⟩ := Check.infer_complete _ ht (path ++ [1]) r₁
    exact h₁.bind_endless ((hcond _).bind_endless (h₂.bind_endless (hy _ r₂).bind))
  | loopCond => exact (hy _ record).bind
  | loopBody hc =>
    obtain ⟨r₁, h₁⟩ := Check.infer_complete _ hc (path ++ [0]) record
    exact h₁.bind_endless ((hcond _).bind_endless (hy _ r₁).bind)
  | body has => exact (Check.inferAll_endless has hy path 0 record).bind
  | firstElem => exact (hy _ record).bind
  | elem he has =>
    obtain ⟨r₁, h₁⟩ := Check.infer_complete _ he (path ++ [0]) record
    exact h₁.bind_endless (Check.inferElems_endless has hy path 1 r₁).bind
  | firstKey => exact (hy _ record).bind
  | firstValue hk =>
    obtain ⟨r₁, h₁⟩ := Check.infer_complete _ hk (path ++ [0]) record
    exact h₁.bind_endless (hy _ r₁).bind
  | key hk hv has =>
    obtain ⟨r₁, h₁⟩ := Check.infer_complete _ hk (path ++ [0]) record
    obtain ⟨r₂, h₂⟩ := Check.infer_complete _ hv (path ++ [1]) r₁
    refine h₁.bind_endless (h₂.bind_endless ?_)
    exact (Check.inferEntries_endless has (.inl hy) path 2 r₂).bind
  | value hk hv has hk' =>
    obtain ⟨r₁, h₁⟩ := Check.infer_complete _ hk (path ++ [0]) record
    obtain ⟨r₂, h₂⟩ := Check.infer_complete _ hv (path ++ [1]) r₁
    refine h₁.bind_endless (h₂.bind_endless ?_)
    exact (Check.inferEntries_endless has (.inr ⟨_, _, hk', hy⟩) path 2 r₂).bind

theorem CallsFor.endless {outer : ScopeChain} {x : Setting × Expr} {f : FnType} {ts : List Ty}
    (h : CallsFor outer x f ts) (hends : ¬ f.Ends ts) : Check.EndlessIn outer x := by
  obtain ⟨σ, e⟩ := x
  obtain ⟨name, args, σ₁, σ₂, rfl, hf, hts⟩ := h
  intro path record
  have h₁ : Check.Gives (Check.signature outer (.call name args) name args.length)
      (σ.state record) f (σ₁.state record) := Check.signature_gives.mpr ⟨hf, rfl⟩
  obtain ⟨r₂, h₂⟩ :=
    Check.inferAll_complete (fun e _ => Check.infer_complete e) hts path 0 record
  exact h₁.bind_endless (h₂.bind_endless (Check.endless_matchArgs.mpr hends).bind)

theorem Meets.endless {outer : ScopeChain} {x : Setting × Expr} {f : FnType} {ts : List Ty}
    (h : Meets outer x f ts) (hends : ¬ f.Ends ts) : Check.EndlessIn outer x := by
  obtain ⟨y, hy, hcalls⟩ := h
  induction hy using ReflTransGen.head_induction_on with
  | refl => exact hcalls.endless hends
  | head hstep _ ih => exact hstep.endless ih

/-- The expression meets a call that does not end. -/
def RunsOn (outer : ScopeChain) (x : Setting × Expr) : Prop :=
  ∃ f ts, Meets outer x f ts ∧ ¬ f.Ends ts

/-- Checking an expression runs forever exactly when it meets a call that does not end. -/
theorem Check.endless_iff_runsOn (outer : ScopeChain) (path : Path) (e : Expr) (s : CheckState) :
    ((infer outer path e).run s).1 = .error .endless ↔ RunsOn outer (s.setting, e) := by
  constructor
  · exact Endless.meets
  · rintro ⟨f, ts, hmeets, hends⟩
    exact hmeets.endless hends path s.record

end TreeLang
