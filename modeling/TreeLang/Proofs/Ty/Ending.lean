import Mathlib.Data.List.Nodup
import TreeLang.Proofs.Nesting
import TreeLang.Proofs.Table
import TreeLang.Proofs.Ty.Matching

/-!
# Runs of matching that end

Matching goes from a pair of types under bindings to other pairs: from a bound variable to its
binding, from a variable on the right to the left, and from types with parts to the parts, once
the earlier parts match. `Leads` is this relation. Everything that a run meets is a part of what
it starts with, and bindings are only added, so a run that nests too deep has come back to where
it was.

Main statements: `matchTypes?_eq_none_iff` (the bound on nesting only stops runs that no bound
would let end), `forever_iff_returns` (these are the runs that come back to the same pair under
the same bindings), and `settles` (a type with variables of its own, which neither the pattern nor
the bindings know, each in one place only, is matched in finitely many steps).
-/

namespace TreeLang

open Relation

namespace Ty

/-! ## Parts -/

/-- The immediate parts of a type. -/
def parts : Ty → List Ty
  | .missing | .var _ | .con _ => []
  | .list elem => [elem]
  | .dict key value => [key, value]
  | .fn params result _ => params ++ [result]

/-- The two types have the same outermost constructor, so that matching goes on with their parts. -/
def alike : Ty → Ty → Bool
  | .list _, .list _ | .dict _ _, .dict _ _ => true
  | .fn ps _ v, .fn qs _ w => !(ps.length ≠ qs.length || v != w)
  | _, _ => false

theorem matchAll_pair {rec : Ty → Ty → Subst → Option (Bool × Subst)} {a b : Ty} {s : Subst} :
    matchAll rec [a] [b] s = rec a b s := by
  simp only [matchAll]
  split
  · next s' h => exact h.symm
  · rfl

theorem matchParts_of_alike {rec : Ty → Ty → Subst → Option (Bool × Subst)} {p c : Ty} {s : Subst}
    (h : alike p c = true) : matchParts rec p c s = matchAll rec p.parts c.parts s := by
  cases p <;> cases c <;> simp only [alike, Bool.false_eq_true] at h
  · exact matchAll_pair.symm
  · rfl
  · rw [matchParts, if_neg (by simpa using h)]
    rfl

/-- Types that are not alike have their answer at once. -/
theorem matchParts_of_not_alike {p c : Ty} (h : alike p c = false) :
    ∃ b, ∀ rec s, matchParts rec p c s = some (b, s) := by
  cases p <;> cases c <;> simp only [alike, reduceCtorEq] at h
  case con.con a b => exact ⟨a == b, fun _ _ => rfl⟩
  case fn.fn =>
    refine ⟨false, fun rec s => ?_⟩
    rw [matchParts, if_pos (by rwa [Bool.not_eq_false'] at h)]
  all_goals exact ⟨false, fun _ _ => rfl⟩

/-! ## What a run leads to -/

/-- Two types to match under bindings. -/
abbrev Pair := Ty × Ty × Subst

/-- The lists of types match one by one, within some bound. -/
def MatchedAll (ps cs : List Ty) (s s' : Subst) : Prop :=
  ∃ n, matchAll (matchWithin n) ps cs s = some (true, s')

/-- Matching the first pair comes to matching the second one. -/
inductive Leads : Pair → Pair → Prop
  | bound {a : String} {t c : Ty} {s : Subst} : s.get? a = some t → Leads (.var a, c, s) (t, c, s)
  | swap {p : Ty} {b : String} {s : Subst} : (∀ x, p ≠ .var x) →
      Leads (p, .var b, s) (.var b, p, s)
  | part {p c q d : Ty} {ps qs cs ds : List Ty} {s s' : Subst} : alike p c = true →
      p.parts = ps ++ q :: qs → c.parts = cs ++ d :: ds → MatchedAll ps cs s s' →
      Leads (p, c, s) (q, d, s')

/-- Matching the pair nests deeper than the bound. -/
def Overruns (n : Nat) (x : Pair) : Prop := matchWithin n x.1 x.2.1 x.2.2 = none

/-- The pair is matched in finitely many steps. -/
def Ends (p c : Ty) (s : Subst) : Prop := ∃ n r, matchWithin n p c s = some r

theorem not_ends_iff {p c : Ty} {s : Subst} : ¬ Ends p c s ↔ ∀ n, Overruns n (p, c, s) := by
  constructor
  · intro h n
    exact Option.eq_none_iff_forall_ne_some.mpr fun r hr => h ⟨n, r, hr⟩
  · rintro h ⟨n, r, hr⟩
    have hnone : matchWithin n p c s = none := h n
    rw [hnone] at hr
    cases hr

theorem alike_ne_var {p c : Ty} (h : alike p c = true) :
    (∀ x, p ≠ .var x) ∧ ∀ x, c ≠ .var x := by
  constructor
  · rintro x rfl
    cases h
  · rintro x rfl
    cases p <;> cases h

/-- A list that is not matched within the bound has a first part that is not. -/
theorem exists_of_matchAll_eq_none {n : Nat} {ps cs : List Ty} {s : Subst}
    (h : matchAll (matchWithin n) ps cs s = none) :
    ∃ ps₁ q qs cs₁ d ds s', ps = ps₁ ++ q :: qs ∧ cs = cs₁ ++ d :: ds ∧ MatchedAll ps₁ cs₁ s s' ∧
      matchWithin n q d s' = none := by
  induction ps generalizing cs s with
  | nil => cases cs <;> cases h
  | cons p ps ih =>
    cases cs with
    | nil => cases h
    | cons c cs =>
      cases hpc : matchWithin n p c s with
      | none => exact ⟨[], p, ps, [], c, cs, s, rfl, rfl, ⟨0, rfl⟩, hpc⟩
      | some r =>
        obtain ⟨b, s₁⟩ := r
        simp only [matchAll, hpc] at h
        cases b with
        | false => cases h
        | true =>
          obtain ⟨ps₁, q, qs, cs₁, d, ds, s', rfl, rfl, ⟨m, hm⟩, hnone⟩ := ih h
          refine ⟨p :: ps₁, q, qs, c :: cs₁, d, ds, s', rfl, rfl, ⟨max n m, ?_⟩, hnone⟩
          rw [matchAll, matchWithin_mono (Nat.le_max_left n m) hpc]
          exact matchAll_mono (matchWithin_mono (Nat.le_max_right n m)) hm

/-- A run that nests too deep does so in a pair that it leads to. -/
theorem Overruns.down {n : Nat} {x : Pair} (h : Overruns (n + 1) x) :
    ∃ y, Leads x y ∧ Overruns n y := by
  obtain ⟨p, c, s⟩ := x
  have hnone : matchWithin (n + 1) p c s = none := h
  by_cases hp : ∃ a, p = .var a
  · obtain ⟨a, rfl⟩ := hp
    cases hget : s.get? a with
    | some t =>
      rw [matchWithin_bound hget] at hnone
      exact ⟨(t, c, s), .bound hget, hnone⟩
    | none =>
      -- An unbound variable is bound at once, or meets itself.
      cases c <;> simp [matchWithin, hget] at hnone
  · have hp' : ∀ x, p ≠ .var x := fun x hx => hp ⟨x, hx⟩
    by_cases hc : ∃ b, c = .var b
    · obtain ⟨b, rfl⟩ := hc
      rw [matchWithin_swap hp'] at hnone
      exact ⟨(.var b, p, s), .swap hp', hnone⟩
    · rw [matchWithin_parts hp' fun x hx => hc ⟨x, hx⟩] at hnone
      cases halike : alike p c with
      | false =>
        obtain ⟨b, hb⟩ := matchParts_of_not_alike halike
        rw [hb] at hnone
        cases hnone
      | true =>
        rw [matchParts_of_alike halike] at hnone
        obtain ⟨ps, q, qs, cs, d, ds, s', hps, hcs, hmatched, hq⟩ :=
          exists_of_matchAll_eq_none hnone
        exact ⟨(q, d, s'), .part halike hps hcs hmatched, hq⟩

theorem matchAll_eq_none {n : Nat} {ps qs cs ds : List Ty} {q d : Ty} {s s' : Subst}
    (hmatched : MatchedAll ps cs s s') (hnone : matchWithin n q d s' = none) :
    matchAll (matchWithin n) (ps ++ q :: qs) (cs ++ d :: ds) s = none := by
  obtain ⟨m, hm⟩ := hmatched
  induction ps generalizing cs s with
  | nil =>
    cases cs with
    | nil =>
      cases hm
      simp [matchAll, hnone]
    | cons c cs => cases hm
  | cons p ps ih =>
    cases cs with
    | nil => cases hm
    | cons c cs =>
      rw [List.cons_append, List.cons_append, matchAll]
      cases hn : matchWithin n p c s with
      | none => rfl
      | some r =>
        -- The two bounds agree where both let the run end.
        have hmax := matchWithin_mono (Nat.le_max_left n m) hn
        rw [matchAll] at hm
        split at hm
        · next s₁ h₁ =>
          rw [matchWithin_mono (Nat.le_max_right n m) h₁] at hmax
          cases hmax
          exact ih hm
        · next hne => exact absurd hm (hne s')

/-- A run nests deeper than every pair that it leads to. -/
theorem Leads.up {n : Nat} {x y : Pair} (h : Leads x y) (hy : Overruns n y) :
    Overruns (n + 1) x := by
  unfold Overruns at hy ⊢
  cases h with
  | bound hget => rw [matchWithin_bound hget]; exact hy
  | swap hp => rw [matchWithin_swap hp]; exact hy
  | part halike hps hcs hmatched =>
    obtain ⟨hp, hc⟩ := alike_ne_var halike
    rw [matchWithin_parts hp hc, matchParts_of_alike halike, hps, hcs]
    exact matchAll_eq_none hmatched hy

/-! ## What a run can meet -/

mutual

/-- The type and all parts of it. -/
def subterms : Ty → List Ty
  | .missing => [.missing]
  | .var name => [.var name]
  | .con name => [.con name]
  | .list elem => .list elem :: elem.subterms
  | .dict key value => .dict key value :: (key.subterms ++ value.subterms)
  | .fn params result variadic =>
    .fn params result variadic :: (subtermsAll params ++ result.subterms)

/-- The types of a list and all parts of them. -/
def subtermsAll : List Ty → List Ty
  | [] => []
  | t :: ts => t.subterms ++ subtermsAll ts

end

theorem subtermsAll_eq_flatMap (ts : List Ty) : subtermsAll ts = ts.flatMap subterms := by
  induction ts with
  | nil => rfl
  | cons t ts ih => simp [subtermsAll, ih]

theorem length_subtermsAll {ts : List Ty} (h : ∀ t ∈ ts, t.subterms.length = t.size) :
    (subtermsAll ts).length = sizeAll ts := by
  induction ts with
  | nil => rfl
  | cons t ts ih =>
    rw [List.forall_mem_cons] at h
    rw [subtermsAll, sizeAll, List.length_append, h.1, ih h.2]

theorem length_subterms (t : Ty) : t.subterms.length = t.size := by
  induction t with
  | missing | var | con => rfl
  | list elem ih => simp [subterms, size, ih]
  | dict key value ihk ihv => simp [subterms, size, ihk, ihv]
  | fn params result variadic ihp ihr => simp [subterms, size, ihr, length_subtermsAll ihp]

theorem mem_subterms_self (t : Ty) : t ∈ t.subterms := by
  cases t <;> simp [subterms]

/-- With a type the set has the parts of the type. -/
def Closed (U : Set Ty) : Prop := ∀ t ∈ U, ∀ q ∈ t.parts, q ∈ U

theorem closed_append {us vs : List Ty} (hu : Closed {t | t ∈ us}) (hv : Closed {t | t ∈ vs}) :
    Closed {t | t ∈ us ++ vs} := by
  intro t ht q hq
  rcases List.mem_append.mp ht with ht | ht
  · exact List.mem_append_left vs (hu t ht q hq)
  · exact List.mem_append_right us (hv t ht q hq)

theorem closed_flatMap {α : Type} {f : α → List Ty} {xs : List α}
    (h : ∀ x ∈ xs, Closed {t | t ∈ f x}) : Closed {t | t ∈ xs.flatMap f} := by
  intro t ht q hq
  obtain ⟨x, hx, ht⟩ := List.mem_flatMap.mp ht
  exact List.mem_flatMap.mpr ⟨x, hx, h x hx t ht q hq⟩

theorem closed_cons {us : List Ty} {t : Ty} (hu : Closed {t | t ∈ us})
    (ht : ∀ q ∈ t.parts, q ∈ us) : Closed {u | u ∈ t :: us} := by
  intro u hmem q hq
  rcases List.mem_cons.mp hmem with rfl | hmem
  · exact List.mem_cons_of_mem u (ht q hq)
  · exact List.mem_cons_of_mem t (hu u hmem q hq)

theorem closed_subterms (t : Ty) : Closed {u | u ∈ t.subterms} := by
  induction t with
  | missing | var | con => simp [Closed, subterms, parts]
  | list elem ih => exact closed_cons ih (by simp [parts, mem_subterms_self])
  | dict key value ihk ihv =>
    exact closed_cons (closed_append ihk ihv) (by simp [parts, mem_subterms_self])
  | fn params result variadic ihp ihr =>
    rw [subterms, subtermsAll_eq_flatMap]
    refine closed_cons (closed_append (closed_flatMap ihp) ihr) ?_
    intro q hq
    rcases List.mem_append.mp hq with hq | hq
    · exact List.mem_append_left _ (List.mem_flatMap.mpr ⟨q, hq, mem_subterms_self q⟩)
    · rw [List.mem_singleton.mp hq]
      exact List.mem_append_right _ (mem_subterms_self result)

/-! ## Growing bindings -/

/-- The bindings of `s'` are those of `s` and, after them, new ones of variables in `U` to types in
`U`. -/
def Grown (U : Set Ty) (s s' : Subst) : Prop :=
  ∃ new, s'.entries = s.entries ++ new ∧ (new.map (·.1)).Nodup ∧
    ∀ e ∈ new, s.get? e.1 = none ∧ .var e.1 ∈ U ∧ e.2 ∈ U

theorem Grown.refl (U : Set Ty) (s : Subst) : Grown U s s := ⟨[], by simp, by simp, by simp⟩

theorem Grown.trans {U : Set Ty} {s s' s'' : Subst} (h : Grown U s s') (h' : Grown U s' s'') :
    Grown U s s'' := by
  obtain ⟨new, heq, hnodup, hnew⟩ := h
  obtain ⟨new', heq', hnodup', hnew'⟩ := h'
  -- What is new to `s'` is new to `s`, and is not among what `s'` has added.
  have hfresh : ∀ e ∈ new', s.get? e.1 = none ∧ e.1 ∉ new.map (·.1) := by
    intro e he
    have hnone := (hnew' e he).1
    rw [Table.get?, heq, Table.lookup_append, Option.or_eq_none_iff] at hnone
    exact ⟨hnone.1, Table.lookup_eq_none_iff.mp hnone.2⟩
  refine ⟨new ++ new', by rw [heq', heq, List.append_assoc], ?_, ?_⟩
  · rw [List.map_append, List.nodup_append]
    refine ⟨hnodup, hnodup', ?_⟩
    rintro x hx y hy rfl
    obtain ⟨e, he, rfl⟩ := List.mem_map.mp hy
    exact (hfresh e he).2 hx
  · intro e he
    rcases List.mem_append.mp he with he | he
    · exact hnew e he
    · exact ⟨(hfresh e he).1, (hnew' e he).2⟩

theorem Grown.insert {U : Set Ty} {s : Subst} {a : String} {t : Ty} (ha : s.get? a = none)
    (hvar : .var a ∈ U) (ht : t ∈ U) : Grown U s (s.insert a t) := by
  refine ⟨[(a, t)], Table.write_of_lookup_eq_none ha, by simp, ?_⟩
  intro e he
  rw [List.mem_singleton.mp he]
  exact ⟨ha, hvar, ht⟩

theorem Grown.eq_of_size {U : Set Ty} {s s' : Subst} (h : Grown U s s') (hsize : s'.size = s.size) :
    s' = s := by
  obtain ⟨new, heq, -⟩ := h
  have hlen : new.length = 0 := by
    simp only [Table.size, heq, List.length_append] at hsize
    omega
  rw [List.length_eq_zero_iff.mp hlen, List.append_nil] at heq
  cases s
  cases s'
  exact congrArg Table.mk heq

/-- There are no more new bindings than variables. -/
theorem Grown.size_le {us : List Ty} {s s' : Subst} (h : Grown {t | t ∈ us} s s') :
    s'.size ≤ s.size + us.length := by
  obtain ⟨new, heq, hnodup, hnew⟩ := h
  have hvars : (new.map fun e => Ty.var e.1).Nodup := by
    have hmap := hnodup.map (f := Ty.var) fun a b hab => Ty.var.inj hab
    rwa [List.map_map] at hmap
  have hsub : (new.map fun e => Ty.var e.1) ⊆ us := by
    intro t ht
    obtain ⟨e, he, rfl⟩ := List.mem_map.mp ht
    exact (hnew e he).2.1
  have hlen := (hvars.subperm hsub).length_le
  rw [List.length_map] at hlen
  simp only [Table.size, heq, List.length_append]
  omega

/-- The bound types are in `U`. -/
def BoundIn (U : Set Ty) (s : Subst) : Prop := ∀ x t, s.get? x = some t → t ∈ U

theorem BoundIn.grown {U : Set Ty} {s s' : Subst} (hs : BoundIn U s) (h : Grown U s s') :
    BoundIn U s' := by
  obtain ⟨new, heq, -, hnew⟩ := h
  intro x t hx
  rw [Table.get?, heq, Table.lookup_append, Option.or_eq_some_iff] at hx
  rcases hx with hx | ⟨-, hx⟩
  · exact hs x t hx
  · exact (hnew _ (Table.mem_of_lookup hx)).2.2

theorem matchAll_grown {rec : Ty → Ty → Subst → Option (Bool × Subst)} {U : Set Ty}
    (hrec : ∀ {p c : Ty} {s s' : Subst} {b : Bool}, p ∈ U → c ∈ U → BoundIn U s →
      rec p c s = some (b, s') → Grown U s s')
    {ps cs : List Ty} {s s' : Subst} {b : Bool} (hps : ∀ p ∈ ps, p ∈ U) (hcs : ∀ c ∈ cs, c ∈ U)
    (hs : BoundIn U s) (h : matchAll rec ps cs s = some (b, s')) : Grown U s s' := by
  induction ps generalizing cs s with
  | nil => cases cs <;> cases h <;> exact Grown.refl U _
  | cons p ps ih =>
    cases cs with
    | nil =>
      cases h
      exact Grown.refl U _
    | cons c cs =>
      rw [matchAll] at h
      split at h
      · next s₁ h₁ =>
        have hstep := hrec (hps p (by simp)) (hcs c (by simp)) hs h₁
        have hrest := ih (fun q hq => hps q (by simp [hq])) (fun d hd => hcs d (by simp [hd]))
          (hs.grown hstep) h
        exact hstep.trans hrest
      · exact hrec (hps p (by simp)) (hcs c (by simp)) hs h

/-- Matching only adds bindings, of variables that it meets to types that it meets. -/
theorem matchWithin_grown {U : Set Ty} (hU : Closed U) {n : Nat} {p c : Ty} {s s' : Subst}
    {b : Bool} (hp : p ∈ U) (hc : c ∈ U) (hs : BoundIn U s)
    (h : matchWithin n p c s = some (b, s')) : Grown U s s' := by
  induction n generalizing p c s s' b with
  | zero => cases h
  | succ n ih =>
    by_cases hvar : ∃ a, p = .var a
    · obtain ⟨a, rfl⟩ := hvar
      cases hget : s.get? a with
      | some t =>
        rw [matchWithin_bound hget] at h
        exact ih (hs a t hget) hc hs h
      | none =>
        cases c with
        | var y =>
          simp only [matchWithin, hget, Option.some.injEq, Prod.mk.injEq] at h
          obtain ⟨-, rfl⟩ := h
          split
          · exact Grown.refl U s
          · exact Grown.insert hget hp hc
        | _ =>
          rw [matchWithin_unbound hget (by simp)] at h
          cases h
          exact Grown.insert hget hp hc
    · have hp' : ∀ x, p ≠ .var x := fun x hx => hvar ⟨x, hx⟩
      by_cases hcvar : ∃ y, c = .var y
      · obtain ⟨y, rfl⟩ := hcvar
        rw [matchWithin_swap hp'] at h
        exact ih hc hp hs h
      · rw [matchWithin_parts hp' fun x hx => hcvar ⟨x, hx⟩] at h
        cases halike : alike p c with
        | false =>
          obtain ⟨b', hb⟩ := matchParts_of_not_alike halike
          rw [hb] at h
          cases h
          exact Grown.refl U s
        | true =>
          rw [matchParts_of_alike halike] at h
          exact matchAll_grown (fun hp hc hs h => ih hp hc hs h) (hU p hp) (hU c hc) hs h

/-- A step of a run stays among the types of `U`, and only adds bindings. -/
theorem Leads.grown {U : Set Ty} (hU : Closed U) {x y : Pair} (h : Leads x y) (hp : x.1 ∈ U)
    (hc : x.2.1 ∈ U) (hs : BoundIn U x.2.2) : y.1 ∈ U ∧ y.2.1 ∈ U ∧ Grown U x.2.2 y.2.2 := by
  cases h with
  | bound hget => exact ⟨hs _ _ hget, hc, Grown.refl U _⟩
  | swap _ => exact ⟨hc, hp, Grown.refl U _⟩
  | @part p c q d ps qs cs ds s s' halike hps hcs hmatched =>
    obtain ⟨n, hn⟩ := hmatched
    have hpU : ∀ t ∈ ps ++ q :: qs, t ∈ U := fun t ht => hU p hp t (hps ▸ ht)
    have hcU : ∀ t ∈ cs ++ d :: ds, t ∈ U := fun t ht => hU c hc t (hcs ▸ ht)
    refine ⟨hpU q (by simp), hcU d (by simp), ?_⟩
    exact matchAll_grown (fun hp hc hs h => matchWithin_grown hU hp hc hs h)
      (fun t ht => hpU t (by simp [ht])) (fun t ht => hcU t (by simp [ht])) hs hn

theorem leads_grown {U : Set Ty} (hU : Closed U) {x y : Pair} (h : ReflTransGen Leads x y)
    (hp : x.1 ∈ U) (hc : x.2.1 ∈ U) (hs : BoundIn U x.2.2) :
    y.1 ∈ U ∧ y.2.1 ∈ U ∧ Grown U x.2.2 y.2.2 := by
  induction h with
  | refl => exact ⟨hp, hc, Grown.refl U _⟩
  | tail _ hstep ih =>
    obtain ⟨hp', hc', hgrown⟩ := ih
    obtain ⟨hp'', hc'', hgrown'⟩ := hstep.grown hU hp' hc' (hs.grown hgrown)
    exact ⟨hp'', hc'', hgrown.trans hgrown'⟩

/-! ## The bound on nesting -/

/-- All parts of two types and of the bound types. -/
def material (p c : Ty) (s : Subst) : List Ty :=
  p.subterms ++ (c.subterms ++ s.entries.flatMap fun e => e.2.subterms)

theorem length_material (p c : Ty) (s : Subst) :
    (material p c s).length = p.size + c.size + substSize s := by
  have hbound : (s.entries.flatMap fun e => e.2.subterms).length = substSize s := by
    rw [substSize, ← length_subtermsAll fun t _ => length_subterms t, subtermsAll_eq_flatMap,
      List.flatMap_map]
  simp only [material, List.length_append, length_subterms, hbound]
  omega

theorem closed_material (p c : Ty) (s : Subst) : Closed {t | t ∈ material p c s} :=
  closed_append (closed_subterms p)
    (closed_append (closed_subterms c) (closed_flatMap fun e _ => closed_subterms e.2))

/-- A run that nests deeper than `matchDepth` has come back to the same pair of types under the same
bindings. -/
theorem returns_of_overruns {p c : Ty} {s : Subst} (h : Overruns (matchDepth p c s) (p, c, s)) :
    Nesting.Returns Leads (p, c, s) := by
  have hU := closed_material p c s
  have hp : p ∈ material p c s := List.mem_append_left _ (mem_subterms_self p)
  have hc : c ∈ material p c s :=
    List.mem_append_right _ (List.mem_append_left _ (mem_subterms_self c))
  have hs : BoundIn {t | t ∈ material p c s} s := by
    intro x t hx
    refine List.mem_append_right _ (List.mem_append_right _ (List.mem_flatMap.mpr ?_))
    exact ⟨(x, t), Table.mem_of_lookup hx, mem_subterms_self t⟩
  -- A pair is known by its two types and the number of its bindings.
  let label : Pair → Ty × Ty × Nat := fun x => (x.1, x.2.1, x.2.2.size - s.size)
  let labels := material p c s ×ˢ material p c s ×ˢ List.range ((material p c s).length + 1)
  have hlabels : labels.length ≤ matchDepth p c s := by
    simp only [labels, List.length_product, List.length_range, matchDepth, ← length_material]
    generalize (material p c s).length = N
    exact Nat.mul_le_mul (by omega) (Nat.mul_le_mul (by omega) (by omega))
  have hdown : ∀ n x, Overruns (n + 1) x → ∃ y, Leads x y ∧ Overruns n y :=
    fun _ _ => Overruns.down
  refine Nesting.returns_of_stuck hdown (f := label) hlabels ?_ ?_ h
  · intro y hy
    obtain ⟨hp', hc', hgrown⟩ := leads_grown hU hy hp hc hs
    have hsize : y.2.2.size ≤ s.size + (material p c s).length := hgrown.size_le
    simp only [label, labels, List.mem_product, List.mem_range]
    exact ⟨hp', hc', by omega⟩
  · intro y z hy hyz heq
    obtain ⟨hp', hc', hgrown⟩ := leads_grown hU hy hp hc hs
    obtain ⟨-, -, hgrown'⟩ := leads_grown hU hyz.to_reflTransGen hp' hc' (hs.grown hgrown)
    simp only [label, Prod.mk.injEq] at heq
    obtain ⟨h₁, h₂, h₃⟩ := heq
    have hsame : z.2.2 = y.2.2 := by
      apply hgrown'.eq_of_size
      obtain ⟨new, hnew, -⟩ := hgrown
      obtain ⟨new', hnew', -⟩ := hgrown'
      simp only [Table.size, hnew', hnew, List.length_append] at h₃ ⊢
      omega
    obtain ⟨p', c', s'⟩ := y
    obtain ⟨p'', c'', s''⟩ := z
    simp only at h₁ h₂ hsame
    rw [h₁, h₂, hsame]

/-- Matching runs forever exactly when it comes back to a pair of types under the same bindings. -/
theorem forever_iff_returns {p c : Ty} {s : Subst} :
    ¬ Ends p c s ↔ Nesting.Returns Leads (p, c, s) := by
  rw [not_ends_iff]
  constructor
  · intro h
    exact returns_of_overruns (h _)
  · intro h n
    exact Nesting.stuck_of_returns (fun _ => rfl) (fun n x y hxy hy => hxy.up hy) h n

/-- The bound stops exactly the runs that do not end. -/
theorem matchTypes?_eq_none_iff {p c : Ty} {s : Subst} :
    matchTypes? p c s = none ↔ ¬ Ends p c s := by
  constructor
  · intro h
    exact forever_iff_returns.mpr (returns_of_overruns h)
  · intro h
    exact not_ends_iff.mp h _

/-! ## Types with variables of their own -/

/-- The types in which none of the variables occurs. -/
def apart (xs : List String) : Set Ty := {t | ∀ x ∈ xs, x ∉ t.occurrences}

/-- None of the variables is bound or occurs in a bound type. -/
structure Avoids (xs : List String) (s : Subst) : Prop where
  unbound : ∀ x ∈ xs, s.get? x = none
  bound : BoundIn (apart xs) s

/-- Bindings from variable to variable come to an end. -/
def Chains (s : Subst) : Prop := WellFounded fun y x => s.get? x = some (.var y)

/-- The pair is matched in finitely many steps, and bindings still come to an end. -/
def Settles (p c : Ty) (s : Subst) : Prop :=
  ∃ n b s', matchWithin n p c s = some (b, s') ∧ Chains s'

theorem occurrences_eq_flatMap {t : Ty} (h : ∀ x, t ≠ .var x) :
    t.occurrences = t.parts.flatMap occurrences := by
  cases t with
  | var name => exact absurd rfl (h name)
  | _ => simp [occurrences, parts, occurrencesAll_eq_flatMap]

theorem parts_occurrences {t q : Ty} (hq : q ∈ t.parts) : q.occurrences ⊆ t.occurrences := by
  intro x hx
  have hvar : ∀ y, t ≠ .var y := by
    rintro y rfl
    cases hq
  rw [occurrences_eq_flatMap hvar]
  exact List.mem_flatMap.mpr ⟨q, hq, hx⟩

theorem closed_apart (xs : List String) : Closed (apart xs) :=
  fun _ ht _ hq x hx hmem => ht x hx (parts_occurrences hq hmem)

theorem Avoids.mono {xs ys : List String} {s : Subst} (h : Avoids xs s) (hsub : ys ⊆ xs) :
    Avoids ys s :=
  ⟨fun y hy => h.unbound y (hsub hy), fun x t hx y hy => h.bound x t hx y (hsub hy)⟩

/-- Matching other types leaves the variables alone. -/
theorem Avoids.matchWithin {xs : List String} {n : Nat} {p c : Ty} {s s' : Subst} {b : Bool}
    (hs : Avoids xs s) (hp : p ∈ apart xs) (hc : c ∈ apart xs)
    (h : Ty.matchWithin n p c s = some (b, s')) : Avoids xs s' := by
  have hgrown := matchWithin_grown (closed_apart xs) hp hc hs.bound h
  refine ⟨?_, hs.bound.grown hgrown⟩
  intro x hx
  obtain ⟨new, heq, -, hnew⟩ := hgrown
  rw [Table.get?, heq, Table.lookup_append, Option.or_eq_none_iff]
  refine ⟨hs.unbound x hx, Table.lookup_eq_none_iff.mpr ?_⟩
  intro hmem
  obtain ⟨e, he, rfl⟩ := List.mem_map.mp hmem
  exact (hnew e he).2.1 e.1 hx (by simp [occurrences])

theorem Chains.insert {s : Subst} (hs : Chains s) {a : String} {c : Ty} (hc : ∀ x, c ≠ .var x) :
    Chains (s.insert a c) := by
  refine Subrelation.wf ?_ hs
  intro y x hxy
  rw [Table.get?_insert] at hxy
  split at hxy
  · exact absurd (Option.some.inj hxy) (hc y)
  · exact hxy

theorem Chains.insert_var {s : Subst} (hs : Chains s) {a b : String} (hab : a ≠ b)
    (hb : s.get? b = none) : Chains (s.insert a (.var b)) := by
  refine ⟨fun x => hs.induction x fun x ih => ⟨x, fun y hxy => ?_⟩⟩
  rw [Table.get?_insert] at hxy
  split at hxy
  · -- The new binding leads to a variable that is not bound.
    cases hxy
    refine ⟨b, fun z hbz => ?_⟩
    rw [Table.get?_insert, if_neg hab, hb] at hbz
    cases hbz
  · exact ih y hxy

/-- From a pattern that is a bound variable matching comes to a pattern that is not. -/
theorem settles_of_unbound {xs : List String} {d : Ty} {s : Subst} (hs : Chains s)
    (hbound : BoundIn (apart xs) s)
    (hvar : ∀ a, .var a ∈ apart xs → s.get? a = none → Settles (.var a) d s)
    (hother : ∀ p ∈ apart xs, (∀ a, p ≠ .var a) → Settles p d s) {p : Ty} (hp : p ∈ apart xs) :
    Settles p d s := by
  by_cases h : ∃ a, p = .var a
  · obtain ⟨a, rfl⟩ := h
    induction a using hs.induction with
    | _ a ih =>
      cases hget : s.get? a with
      | none => exact hvar a hp hget
      | some t =>
        have ht : t ∈ apart xs := hbound a t hget
        have hsettles : Settles t d s := by
          by_cases h : ∃ y, t = .var y
          · obtain ⟨y, rfl⟩ := h
            exact ih y hget ht
          · exact hother t ht fun y hy => h ⟨y, hy⟩
        obtain ⟨n, b, s', hn, hs'⟩ := hsettles
        exact ⟨n + 1, b, s', by rw [matchWithin_bound hget]; exact hn, hs'⟩
  · exact hother p hp fun a ha => h ⟨a, ha⟩

/-- Matching the type with any pattern settles, if its variables are its own and each is in one
place. -/
def SettlesAll (d : Ty) : Prop :=
  ∀ s p, d.occurrences.Nodup → Avoids d.occurrences s → p ∈ apart d.occurrences → Chains s →
    Settles p d s

theorem matchAll_settles {ds : List Ty} (hds : ∀ d ∈ ds, SettlesAll d)
    (hnodup : (ds.flatMap occurrences).Nodup) {ps : List Ty}
    (hps : ∀ p ∈ ps, p ∈ apart (ds.flatMap occurrences)) {s : Subst}
    (havoids : Avoids (ds.flatMap occurrences) s) (hs : Chains s) :
    ∃ n b s', matchAll (matchWithin n) ps ds s = some (b, s') ∧ Chains s' := by
  induction ds generalizing ps s with
  | nil => cases ps <;> exact ⟨0, _, s, rfl, hs⟩
  | cons d ds ih =>
    cases ps with
    | nil => exact ⟨0, _, s, rfl, hs⟩
    | cons p ps =>
      rw [List.flatMap_cons] at hnodup hps havoids
      obtain ⟨hd, hrest, hdisjoint⟩ := List.nodup_append.mp hnodup
      have hleft : d.occurrences ⊆ d.occurrences ++ ds.flatMap occurrences :=
        List.subset_append_left ..
      have hright : ds.flatMap occurrences ⊆ d.occurrences ++ ds.flatMap occurrences :=
        List.subset_append_right ..
      have hp := hps p List.mem_cons_self
      obtain ⟨n, b, s₁, hn, hs₁⟩ :=
        hds d List.mem_cons_self s p hd (havoids.mono hleft) (fun x hx => hp x (hleft hx)) hs
      cases b with
      | false => exact ⟨n, false, s₁, by simp [matchAll, hn], hs₁⟩
      | true =>
        -- The variables of the other parts are still untouched.
        have hapart : d ∈ apart (ds.flatMap occurrences) :=
          fun x hx hxd => hdisjoint x hxd x hx rfl
        have havoids' : Avoids (ds.flatMap occurrences) s₁ :=
          (havoids.mono hright).matchWithin (fun x hx => hp x (hright hx)) hapart hn
        have hps' : ∀ q ∈ ps, q ∈ apart (ds.flatMap occurrences) :=
          fun q hq x hx => hps q (by simp [hq]) x (hright hx)
        obtain ⟨m, b, s', hm, hs'⟩ := ih (fun e he => hds e (by simp [he])) hrest hps' havoids' hs₁
        refine ⟨max n m, b, s', ?_, hs'⟩
        rw [matchAll, matchWithin_mono (Nat.le_max_left n m) hn]
        exact matchAll_mono (matchWithin_mono (Nat.le_max_right n m)) hm

theorem parts_induction {motive : Ty → Prop} (h : ∀ t, (∀ q ∈ t.parts, motive q) → motive t)
    (t : Ty) : motive t := by
  induction t with
  | missing | var | con => exact h _ (by simp [parts])
  | list elem ih => exact h _ (by simpa [parts] using ih)
  | dict key value ihk ihv => exact h _ (by simp [parts, ihk, ihv])
  | fn params result variadic ihp ihr =>
    refine h _ fun q hq => ?_
    rcases List.mem_append.mp hq with hq | hq
    · exact ihp q hq
    · rw [List.mem_singleton.mp hq]
      exact ihr

/-- A type with variables of its own, each in one place, is matched in finitely many steps. -/
theorem settles (d : Ty) : SettlesAll d := by
  induction d using parts_induction with
  | h d ih =>
    intro s p hnodup havoids hp hs
    by_cases hd : ∃ b, d = .var b
    · obtain ⟨b, rfl⟩ := hd
      have hb : s.get? b = none := havoids.unbound b (by simp [occurrences])
      refine settles_of_unbound hs havoids.bound ?_ ?_ hp
      · intro a ha hget
        have hab : a ≠ b := by
          rintro rfl
          exact ha a (by simp [occurrences]) (by simp [occurrences])
        exact ⟨1, true, s.insert a (.var b), by simp [matchWithin, hget, hab],
          hs.insert_var hab hb⟩
      · intro p _ hvar
        refine ⟨2, true, s.insert b p, ?_, hs.insert hvar⟩
        rw [matchWithin_swap hvar, matchWithin_unbound hb hvar]
    · have hd' : ∀ x, d ≠ .var x := fun x hx => hd ⟨x, hx⟩
      refine settles_of_unbound hs havoids.bound ?_ ?_ hp
      · intro a _ hget
        exact ⟨1, true, s.insert a d, matchWithin_unbound hget hd', hs.insert hd'⟩
      · intro p hp hvar
        cases halike : alike p d with
        | false =>
          obtain ⟨b, hb⟩ := matchParts_of_not_alike halike
          exact ⟨1, b, s, by rw [matchWithin_parts hvar hd', hb], hs⟩
        | true =>
          rw [occurrences_eq_flatMap hd'] at hnodup havoids hp
          obtain ⟨n, b, s', hn, hs'⟩ := matchAll_settles ih hnodup
            (fun q hq => closed_apart _ p hp q hq) havoids hs
          refine ⟨n + 1, b, s', ?_, hs'⟩
          rw [matchWithin_parts hvar hd', matchParts_of_alike halike, hn]

end Ty

end TreeLang
