import TreeLang.Proofs.Ty.Unifying

/-!
# Matching with ground types, decided

Matching asks for types that the variables of patterns can stand for. `Solves` says which
assignments answer the question: they keep the bindings that are there, turn each pattern into its
type, and give a type without missing parts wherever two types have to be compared, since a missing
type is the same as no type. A pattern variable has its type compared when it is bound already or
occurs again.

Matching patterns with ground types one after the other finds a solution of all of them whenever
there is one (`matchAll_decides`): an earlier pattern binds its variables to the only types that
they can stand for, so it rules out nothing. Main statement: `match_decides`, for a pair of types
and for the arguments of a function.
-/

namespace TreeLang

/-! ## What a match adds -/

/-- The bindings of `s'` are those of `s` and, after them, one binding to a ground type for each of
the variables that `s` does not bind. -/
def Subst.Completes (s : Subst) (xs : List String) (s' : Subst) : Prop :=
  ∃ new, s'.entries = s.entries ++ new ∧ (new.map (·.1)).Nodup ∧ (∀ e ∈ new, e.2.Ground) ∧
    ∀ x, x ∈ new.map (·.1) ↔ x ∈ xs ∧ s.get? x = none

namespace Ty

/-- All variables of the types are among the given ones. -/
def within (xs : List String) : Set Ty := {t | t.occurrences ⊆ xs}

theorem closed_within (xs : List String) : Closed (within xs) :=
  fun _ ht _ hq _ hx => ht (parts_occurrences hq hx)

theorem Ground.mem_within {t : Ty} (h : t.Ground) (xs : List String) : t ∈ within xs := by
  intro x hx
  rw [h] at hx
  cases hx

/-- A match with a ground type binds the variables of the pattern and no other ones. -/
theorem matchWithin_completes {n : Nat} {p c : Ty} {s s' : Subst} (hc : c.Ground) (hs : s.Ground)
    (h : matchWithin n p c s = some (true, s')) : s.Completes p.occurrences s' := by
  have hfit := matchWithin_ground hc hs h
  have hbound : BoundIn (within p.occurrences) s := fun x t hx => (hs x t hx).mem_within _
  have hgrown : Grown (within p.occurrences) s s' :=
    matchWithin_grown (closed_within _) (List.Subset.refl _) (hc.mem_within _) hbound h
  obtain ⟨new, hentries, hnodup, hnew⟩ := hgrown
  have hlookup : ∀ x, s.get? x = none → s'.get? x = Table.lookup x new := by
    intro x hx
    rw [Table.get?, hentries, Table.lookup_append, show Table.lookup x s.entries = none from hx]
    rfl
  refine ⟨new, hentries, hnodup, ?_, ?_⟩
  · intro e he
    have hget : s'.get? e.1 = Table.lookup e.1 new := hlookup e.1 (hnew e he).1
    cases hlook : Table.lookup e.1 new with
    | none => exact absurd (List.mem_map_of_mem he) (Table.lookup_eq_none_iff.mp hlook)
    | some t =>
      -- No variable is new twice, so that this is the entry itself.
      have hmem : (e.1, t) ∈ new := Table.mem_of_lookup hlook
      have heq : (e.1, t) = e := List.inj_on_of_nodup_map hnodup hmem he rfl
      rw [← heq]
      exact hfit.ground e.1 t (hget.trans hlook)
  · intro x
    constructor
    · intro hx
      obtain ⟨e, he, rfl⟩ := List.mem_map.mp hx
      obtain ⟨hnone, hvar, -⟩ := hnew e he
      exact ⟨hvar (by simp [occurrences]), hnone⟩
    · rintro ⟨hx, hnone⟩
      obtain ⟨t, ht⟩ := hfit.covers x hx
      rw [hlookup x hnone] at ht
      exact List.mem_map_of_mem (f := (·.1)) (Table.mem_of_lookup ht)

end Ty

/-- After a match the variables that were bound before and those of the pattern are bound. -/
theorem Subst.Completes.contains_iff {s s' : Subst} {xs : List String} (h : s.Completes xs s')
    {x : String} : s'.contains x = true ↔ s.contains x = true ∨ x ∈ xs := by
  obtain ⟨new, hentries, -, -, hnew⟩ := h
  have hget : s'.get? x = (s.get? x).or (Table.lookup x new) := by
    rw [Table.get?, hentries, Table.lookup_append]
    rfl
  rw [Table.contains, Table.contains, hget]
  cases hx : s.get? x with
  | some t => simp
  | none =>
    have hmem : x ∈ new.map (·.1) ↔ x ∈ xs := by rw [hnew x, hx]; simp
    rw [Option.none_or, Option.isSome_iff_ne_none, Ne, Table.lookup_eq_none_iff, not_not, hmem]
    simp

namespace Ty

/-! ## Solutions -/

/-- The assignment keeps the bindings, turns the patterns into the types one by one, and gives types
without missing parts wherever types are compared: to constants and to variables that are bound
already or occur again. -/
structure Solves (θ : String → Ty) (s : Subst) (ps cs : List Ty) : Prop where
  follows : Follows s θ
  turns : ps.map (·.bind θ) = cs
  whole : ∀ p ∈ ps, p.Whole
  compared : ∀ x ∈ ps.flatMap occurrences,
    s.contains x = true ∨ 1 < (ps.flatMap occurrences).count x → (θ x).Whole

/-- The answer comes, and it is yes exactly if there is a solution. -/
def Decides (s : Subst) (ps cs : List Ty) (answer : Option (Bool × Subst)) : Prop :=
  ∃ matched s', answer = some (matched, s') ∧ (matched = true ↔ ∃ θ, Solves θ s ps cs)

/-- The bindings of an extended substitution follow it. -/
theorem follows_of_extends {s s' : Subst} (h : s.Extends s') : Follows s s'.binding := by
  intro x t hx
  rw [Subst.binding_of_get? (h x t hx)]

/-- The bindings of a substitution follow it. -/
theorem follows_binding (s : Subst) : Follows s s.binding :=
  follows_of_extends (Subst.Extends.refl s)

/-- An assignment that turns the pattern into its type agrees with the bindings of the match. -/
theorem Fitted.binding_eq {p c : Ty} {s s' : Subst} (h : Fitted p c s s') {θ : String → Ty}
    (hθ : p.bind θ = c) : ∀ x ∈ p.occurrences, θ x = s'.binding x :=
  eq_of_bind_eq (hθ.trans h.bind_eq.symm)

section Lists

variable {s s₁ : Subst} {p c : Ty} {ps cs : List Ty} {θ : String → Ty}

/-- A solution of all patterns solves the first one. -/
theorem Solves.head (h : Solves θ s (p :: ps) (c :: cs)) : Solves θ s [p] [c] := by
  have hturns : p.bind θ = c := (List.cons.inj h.turns).1
  refine ⟨h.follows, by rw [List.map_singleton, hturns], ?_, ?_⟩
  · intro q hq
    rw [List.mem_singleton.mp hq]
    exact h.whole p List.mem_cons_self
  · intro x hx hcompared
    rw [List.flatMap_singleton] at hx hcompared
    refine h.compared x (by simp [hx]) (hcompared.imp_right fun hcount => ?_)
    rw [List.flatMap_cons, List.count_append]
    omega

/-- A solution of all patterns solves the other ones under the bindings of the first match. -/
theorem Solves.tail (h : Solves θ s (p :: ps) (c :: cs)) (hfit : Fitted p c s s₁)
    (hnew : s.Completes p.occurrences s₁) : Solves θ s₁ ps cs := by
  have hturns := List.cons.inj h.turns
  have hbinding := hfit.binding_eq hturns.1
  refine ⟨?_, hturns.2, fun q hq => h.whole q (List.mem_cons_of_mem p hq), ?_⟩
  · intro x t hx
    rcases hnew.contains_iff.mp (Table.contains_of_get? hx) with hold | hvar
    · obtain ⟨u, hu⟩ := Option.isSome_iff_exists.mp hold
      have huu := hfit.extends_ x u hu
      rw [hx] at huu
      cases huu
      exact h.follows x t hu
    · rw [hbinding x hvar, Subst.binding_of_get? hx]
  · intro x hx hcompared
    have hcount : 1 ≤ (ps.flatMap occurrences).count x := List.one_le_count_iff.mpr hx
    refine h.compared x (by simp [hx]) ?_
    rw [List.flatMap_cons, List.count_append]
    rcases hcompared with hbound | hmore
    · -- What the first match has bound occurs in the first pattern, and here again.
      refine (hnew.contains_iff.mp hbound).imp_right fun hvar => ?_
      have hfirst : 1 ≤ p.occurrences.count x := List.one_le_count_iff.mpr hvar
      omega
    · right
      omega

/-- A solution of the first pattern and one of the others, under the bindings of the first match,
make a solution of all. -/
theorem Solves.cons {θ₁ : String → Ty} (hfirst : Solves θ₁ s [p] [c]) (hrest : Solves θ s₁ ps cs)
    (hfit : Fitted p c s s₁) : Solves θ s (p :: ps) (c :: cs) := by
  have hθ : ∀ x ∈ p.occurrences, θ x = s₁.binding x := by
    intro x hx
    obtain ⟨t, ht⟩ := hfit.covers x hx
    rw [Subst.binding_of_get? ht, ← hrest.follows x t ht]
  have hturns : p.bind θ = c := by rw [bind_congr hθ, hfit.bind_eq]
  refine ⟨fun x t hx => hrest.follows x t (hfit.extends_ x t hx), ?_, ?_, ?_⟩
  · rw [List.map_cons, hturns, hrest.turns]
  · exact List.forall_mem_cons.mpr ⟨hfirst.whole p List.mem_cons_self, hrest.whole⟩
  · intro x hx hcompared
    rw [List.flatMap_cons] at hx hcompared
    rw [List.count_append] at hcompared
    by_cases hlater : x ∈ ps.flatMap occurrences
    · -- The other patterns compare it too; the first match has bound it if it occurs in both.
      by_cases hvar : x ∈ p.occurrences
      · obtain ⟨t, ht⟩ := hfit.covers x hvar
        exact hrest.compared x hlater (.inl (Table.contains_of_get? ht))
      · have hzero : p.occurrences.count x = 0 := List.count_eq_zero.mpr hvar
        refine hrest.compared x hlater (hcompared.imp (fun hbound => ?_) fun hmore => by omega)
        obtain ⟨t, ht⟩ := Option.isSome_iff_exists.mp hbound
        exact Table.contains_of_get? (hfit.extends_ x t ht)
    · -- It occurs in the first pattern only, where both assignments agree.
      have hvar : x ∈ p.occurrences := (List.mem_append.mp hx).resolve_right hlater
      have hzero : (ps.flatMap occurrences).count x = 0 := List.count_eq_zero.mpr hlater
      have hθ₁ : p.bind θ₁ = c := (List.cons.inj hfirst.turns).1
      rw [hθ x hvar, ← hfit.binding_eq hθ₁ x hvar]
      refine hfirst.compared x (by simpa using hvar) (hcompared.imp_right fun hmore => ?_)
      rw [List.flatMap_singleton]
      omega

/-- Patterns are decided one after the other. -/
theorem matchAll_decides {rec : Ty → Ty → Subst → Option (Bool × Subst)}
    (hrec : ∀ p ∈ ps, ∀ c ∈ cs, ∀ s, s.Ground → Decides s [p] [c] (rec p c s))
    (hadds : ∀ {p c : Ty} {s s' : Subst}, c.Ground → s.Ground → rec p c s = some (true, s') →
      Fitted p c s s' ∧ s.Completes p.occurrences s')
    (hcs : ∀ c ∈ cs, c.Ground) (hs : s.Ground) : Decides s ps cs (matchAll rec ps cs s) := by
  induction ps generalizing cs s with
  | nil =>
    cases cs with
    | nil =>
      exact ⟨true, s, rfl, iff_of_true rfl ⟨s.binding, follows_binding s, rfl, by simp, by simp⟩⟩
    | cons c cs =>
      refine ⟨false, s, rfl, iff_of_false Bool.false_ne_true ?_⟩
      rintro ⟨θ, hθ⟩
      cases hθ.turns
  | cons p ps ih =>
    cases cs with
    | nil =>
      refine ⟨false, s, rfl, iff_of_false Bool.false_ne_true ?_⟩
      rintro ⟨θ, hθ⟩
      cases hθ.turns
    | cons c cs =>
      have hc : c.Ground := hcs c List.mem_cons_self
      obtain ⟨matched, s₁, hanswer, hfirst⟩ := hrec p (by simp) c (by simp) s hs
      cases matched with
      | false =>
        refine ⟨false, s₁, by rw [matchAll, hanswer], iff_of_false Bool.false_ne_true ?_⟩
        rintro ⟨θ, hθ⟩
        cases hfirst.mpr ⟨θ, hθ.head⟩
      | true =>
        obtain ⟨hfit, hnew⟩ := hadds hc hs hanswer
        have hrest : Decides s₁ ps cs (matchAll rec ps cs s₁) :=
          ih (fun q hq d hd => hrec q (by simp [hq]) d (by simp [hd]))
            (fun d hd => hcs d (by simp [hd])) hfit.ground
        obtain ⟨matched, s', hanswer', hiff⟩ := hrest
        refine ⟨matched, s', by rw [matchAll, hanswer]; exact hanswer', hiff.trans ?_⟩
        obtain ⟨θ₁, hθ₁⟩ := hfirst.mp rfl
        constructor
        · rintro ⟨θ, hθ⟩
          exact ⟨θ, hθ₁.cons hθ hfit⟩
        · rintro ⟨θ, hθ⟩
          exact ⟨θ, hθ.tail hfit hnew⟩

end Lists

/-! ## Types with parts -/

/-- Replacing variables keeps the outermost constructor of a type with parts. -/
theorem alike_of_bind_eq {p c : Ty} {θ : String → Ty} (hvar : ∀ x, p ≠ .var x)
    (hcon : ∀ name, p ≠ .con name) (hmissing : p ≠ .missing) (h : p.bind θ = c) :
    alike p c = true := by
  subst h
  cases p with
  | missing => exact absurd rfl hmissing
  | var x => exact absurd rfl (hvar x)
  | con name => exact absurd rfl (hcon name)
  | list | dict => rfl
  | fn params result variadic => simp [bind, alike, bindAll_eq_map]

theorem parts_bind {t : Ty} (hvar : ∀ x, t ≠ .var x) (θ : String → Ty) :
    (t.bind θ).parts = t.parts.map (·.bind θ) := by
  cases t with
  | var x => exact absurd rfl (hvar x)
  | missing | con | list | dict => rfl
  | fn params result variadic => simp [bind, parts, bindAll_eq_map]

theorem Whole.of_parts {p c : Ty} (h : alike p c = true) (hparts : ∀ q ∈ p.parts, q.Whole) :
    p.Whole := by
  cases p with
  | missing | var | con => cases h
  | list elem => exact whole_list.mpr (hparts elem (by simp [Ty.parts]))
  | dict key value =>
    exact whole_dict.mpr ⟨hparts key (by simp [Ty.parts]), hparts value (by simp [Ty.parts])⟩
  | fn params result variadic =>
    exact whole_fn.mpr
      ⟨fun q hq => hparts q (by simp [Ty.parts, hq]), hparts result (by simp [Ty.parts])⟩

/-- What stands for a variable of a type without missing parts has none either. -/
theorem Whole.of_bind {θ : String → Ty} {t : Ty} (h : (t.bind θ).Whole) {x : String}
    (hx : x ∈ t.occurrences) : (θ x).Whole := by
  induction t using parts_induction with
  | h t ih =>
    by_cases ht : ∃ y, t = .var y
    · obtain ⟨y, rfl⟩ := ht
      rw [occurrences, List.mem_singleton] at hx
      rw [hx]
      exact h
    · have hvar : ∀ y, t ≠ .var y := fun y hy => ht ⟨y, hy⟩
      rw [occurrences_eq_flatMap hvar] at hx
      obtain ⟨q, hq, hxq⟩ := List.mem_flatMap.mp hx
      have hmem : q.bind θ ∈ (t.bind θ).parts := by
        rw [parts_bind hvar]
        exact List.mem_map_of_mem hq
      exact ih q hq (h.parts hmem) hxq

/-- Types with the same outermost constructor are decided by their parts. -/
theorem Decides.of_parts {s : Subst} {p c : Ty} {answer : Option (Bool × Subst)}
    (halike : alike p c = true) (hc : c.Ground) (h : Decides s p.parts c.parts answer) :
    Decides s [p] [c] answer := by
  obtain ⟨matched, s', hanswer, hiff⟩ := h
  obtain ⟨hvar, hvar'⟩ := alike_ne_var halike
  have hoccurrences : [p].flatMap occurrences = p.parts.flatMap occurrences := by
    rw [List.flatMap_singleton, occurrences_eq_flatMap hvar]
  refine ⟨matched, s', hanswer, hiff.trans ⟨?_, ?_⟩⟩
  · rintro ⟨θ, hθ⟩
    have hparts : p.parts.map (·.bind θ) = c.parts.map (·.bind θ) := by
      rw [hθ.turns, ← parts_bind hvar', hc.bind_eq]
    have hturns : p.bind θ = c := by rw [bind_eq_of_alike halike hparts, hc.bind_eq]
    refine ⟨θ, hθ.follows, by rw [List.map_singleton, hturns], ?_, ?_⟩
    · exact List.forall_mem_singleton.mpr (Whole.of_parts halike hθ.whole)
    · rw [hoccurrences]
      exact hθ.compared
  · rintro ⟨θ, hθ⟩
    have hturns : p.bind θ = c := (List.cons.inj hθ.turns).1
    have hwhole : p.Whole := hθ.whole p List.mem_cons_self
    refine ⟨θ, hθ.follows, by rw [← parts_bind hvar, hturns], fun q hq => hwhole.parts hq, ?_⟩
    rw [← hoccurrences]
    exact hθ.compared

/-- Types that have no parts to be matched are decided at once: only a constant meets itself. -/
theorem decides_of_not_alike {s : Subst} {p c : Ty}
    {rec : Ty → Ty → Subst → Option (Bool × Subst)} (hvar : ∀ x, p ≠ .var x)
    (halike : alike p c = false) : Decides s [p] [c] (matchParts rec p c s) := by
  obtain ⟨matched, hanswer⟩ := matchParts_of_not_alike halike
  refine ⟨matched, s, hanswer rec s, ?_, ?_⟩
  · rintro rfl
    have heq : p = c := eq_of_matchParts halike (hanswer rec s)
    subst heq
    have hcon : ∃ name, p = .con name := by
      cases p with
      | missing => cases hanswer rec s
      | var x => exact absurd rfl (hvar x)
      | con name => exact ⟨name, rfl⟩
      | list | dict => cases halike
      | fn => simp [alike] at halike
    obtain ⟨name, rfl⟩ := hcon
    exact ⟨s.binding, follows_binding s, rfl, by simp [(concrete_con name).whole],
      by simp [occurrences]⟩
  · rintro ⟨θ, hθ⟩
    have hturns : p.bind θ = c := (List.cons.inj hθ.turns).1
    have hwhole : p.Whole := hθ.whole p List.mem_cons_self
    cases p with
    | missing => exact absurd hwhole not_whole_missing
    | var x => exact absurd rfl (hvar x)
    | con name =>
      subst hturns
      have hself : matchParts rec (.con name) (.con name) s = some (true, s) := by
        simp [matchParts]
      have hanswer' : matchParts rec (.con name) (.con name) s = some (matched, s) := hanswer rec s
      rw [hself] at hanswer'
      cases hanswer'
      rfl
    | list | dict | fn =>
      have hyes := alike_of_bind_eq (by simp) (by simp) (by simp) hturns
      rw [halike] at hyes
      cases hyes

theorem size_lt_of_mem_parts {t q : Ty} (h : q ∈ t.parts) : q.size < t.size := by
  cases t with
  | missing | var | con => cases h
  | list elem =>
    rw [List.mem_singleton.mp h, size]
    omega
  | dict key value =>
    simp only [parts, List.mem_cons, List.not_mem_nil, or_false] at h
    rcases h with rfl | rfl <;> simp only [size] <;> omega
  | fn params result variadic =>
    rw [size]
    rcases List.mem_append.mp h with h | h
    · have hle := size_le_sizeAll h
      omega
    · rw [List.mem_singleton.mp h]
      omega

/-! ## A pattern and a ground type -/

/-- Each match of a variable with a ground type is decided, within `k` steps more than the type is
large. -/
def VarDecided (k : Nat) (x : String) : Prop :=
  ∀ (c : Ty) (s : Subst) (depth : Nat), c.Ground → s.Ground → c.size + k ≤ depth →
    Decides s [.var x] [c] (matchWithin depth (.var x) c s)

/-- Where all of its variables are decided, a pattern is. -/
theorem decides_of_vars {k : Nat} (p : Ty) (hvars : ∀ x ∈ p.occurrences, VarDecided k x) {c : Ty}
    {s : Subst} {depth : Nat} (hc : c.Ground) (hs : s.Ground) (hdepth : c.size + k ≤ depth) :
    Decides s [p] [c] (matchWithin depth p c s) := by
  induction p using parts_induction generalizing c s depth with
  | h p ih =>
    by_cases hp : ∃ x, p = .var x
    · obtain ⟨x, rfl⟩ := hp
      exact hvars x (by simp [occurrences]) c s depth hc hs hdepth
    · have hvar : ∀ x, p ≠ .var x := fun x hx => hp ⟨x, hx⟩
      have hpos : 0 < c.size := size_pos c
      obtain ⟨depth, rfl⟩ : ∃ d, depth = d + 1 := ⟨depth - 1, by omega⟩
      rw [matchWithin_parts hvar hc.ne_var]
      cases halike : alike p c with
      | false => exact decides_of_not_alike hvar halike
      | true =>
        rw [matchParts_of_alike halike]
        have hparts : ∀ q ∈ c.parts, q.Ground := by
          intro q hq
          have hsub := parts_occurrences hq
          rw [hc] at hsub
          exact List.subset_nil.mp hsub
        refine Decides.of_parts halike hc (matchAll_decides ?_ ?_ hparts hs)
        · intro q hq d hd s hs
          have hsize := size_lt_of_mem_parts hd
          have hvarsq : ∀ x ∈ q.occurrences, VarDecided k x :=
            fun x hx => hvars x (parts_occurrences hq hx)
          exact ih q hq hvarsq (hparts d hd) hs (by omega)
        · intro q d s s' hd hs h
          exact ⟨matchWithin_ground hd hs h, matchWithin_completes hd hs h⟩

/-- A ground type matches only itself, and only if nothing in it is missing. -/
theorem Ground.solves_iff {t c : Ty} (ht : t.Ground) {s : Subst} :
    (∃ θ, Solves θ s [t] [c]) ↔ t = c ∧ t.Whole := by
  constructor
  · rintro ⟨θ, hθ⟩
    have hturns : t.bind θ = c := (List.cons.inj hθ.turns).1
    rw [ht.bind_eq] at hturns
    exact ⟨hturns, hθ.whole t List.mem_cons_self⟩
  · rintro ⟨rfl, hwhole⟩
    refine ⟨s.binding, follows_binding s, by simp [ht.bind_eq], by simpa using hwhole, ?_⟩
    intro x hx
    rw [List.flatMap_singleton, ht] at hx
    cases hx

/-- A bound variable is compared, and an unbound one is bound. -/
theorem varDecided (x : String) : VarDecided 1 x := by
  intro c s depth hc hs hdepth
  obtain ⟨depth, rfl⟩ : ∃ d, depth = d + 1 := ⟨depth - 1, by omega⟩
  cases hget : s.get? x with
  | some t =>
    have ht : t.Ground := hs x t hget
    have hnovars : ∀ y ∈ t.occurrences, VarDecided 0 y := by
      rw [ht]
      exact List.forall_mem_nil _
    have hdecided : Decides s [t] [c] (matchWithin depth t c s) :=
      decides_of_vars t hnovars hc hs (by omega)
    obtain ⟨matched, s', hanswer, hiff⟩ := hdecided
    refine ⟨matched, s', by rw [matchWithin_bound hget]; exact hanswer, ?_⟩
    rw [hiff, ht.solves_iff]
    constructor
    · rintro ⟨rfl, hwhole⟩
      have hbinding : s.binding x = t := Subst.binding_of_get? hget
      refine ⟨s.binding, follows_binding s, by simp [bind, hbinding], by simp [whole_var], ?_⟩
      intro y hy _
      rw [List.flatMap_singleton, occurrences, List.mem_singleton] at hy
      rw [hy, hbinding]
      exact hwhole
    · rintro ⟨θ, hθ⟩
      have hturns : θ x = c := (List.cons.inj hθ.turns).1
      have hcompared : (θ x).Whole :=
        hθ.compared x (by simp [occurrences]) (.inl (Table.contains_of_get? hget))
      have hfollows : t = θ x := hθ.follows x t hget
      rw [hfollows]
      exact ⟨hturns, hcompared⟩
  | none =>
    refine ⟨true, s.insert x c, matchWithin_unbound hget hc.ne_var, iff_of_true rfl ?_⟩
    have hbinding : Subst.binding (s.insert x c) x = c :=
      Subst.binding_of_get? (by simp)
    have hfollows : Follows s (Subst.binding (s.insert x c)) :=
      follows_of_extends (Subst.extends_insert hget)
    refine ⟨_, hfollows, by simp [bind, hbinding], by simp [whole_var], ?_⟩
    -- The only variable is not bound and does not occur again.
    intro y hy hcompared
    rw [List.flatMap_singleton, occurrences, List.mem_singleton] at hy
    subst hy
    rcases hcompared with hbound | hmore
    · rw [Table.contains, hget] at hbound
      cases hbound
    · simp [occurrences] at hmore

/-- Matching a pattern with a ground type is decided. -/
theorem matchTypes?_decides {p c : Ty} {s : Subst} (hc : c.Ground) (hs : s.Ground) :
    Decides s [p] [c] (matchTypes? p c s) := by
  refine decides_of_vars p (fun x _ => varDecided x) hc hs ?_
  unfold matchDepth
  extract_lets n
  have hn : c.size + 1 ≤ n := by omega
  have hpos : 0 < n := by omega
  exact Nat.le_trans hn (Nat.le_mul_of_pos_right n (Nat.mul_pos hpos hpos))

/-- In a type without missing parts everything that is compared is without missing parts. -/
theorem solves_iff_of_whole {s : Subst} {ps cs : List Ty} (hps : ∀ p ∈ ps, p.Whole)
    (hcs : ∀ c ∈ cs, c.Whole) {θ : String → Ty} :
    Solves θ s ps cs ↔ Follows s θ ∧ ps.map (·.bind θ) = cs := by
  constructor
  · intro h
    exact ⟨h.follows, h.turns⟩
  · rintro ⟨hfollows, hturns⟩
    refine ⟨hfollows, hturns, hps, fun x hx _ => ?_⟩
    obtain ⟨p, hp, hxp⟩ := List.mem_flatMap.mp hx
    have hwhole : (p.bind θ).Whole := by
      apply hcs
      rw [← hturns]
      exact List.mem_map_of_mem hp
    exact hwhole.of_bind hxp

end Ty

/-! ## Arguments of a function -/

namespace FnType

/-- The declared types of `n` arguments; the last parameter of a variadic function repeats. -/
def declared (f : FnType) (n : Nat) : List Ty :=
  match f.variadic, f.params.getLast? with
  | true, some last => f.params.dropLast ++ List.replicate (n + 1 - f.params.length) last
  | _, _ => f.params

variable {f : FnType} {n : Nat}

/-- The declared types are types of parameters. -/
theorem mem_params_of_mem_declared {t : Ty} (h : t ∈ f.declared n) : t ∈ f.params := by
  unfold declared at h
  split at h
  · next last _ hlast =>
    rcases List.mem_append.mp h with h | h
    · exact List.mem_of_mem_dropLast h
    · rw [List.eq_of_mem_replicate h]
      exact List.mem_of_getLast? hlast
  · exact h

/-- A number of arguments that is accepted has that many declared types, the ones that are asked for
argument by argument. -/
theorem declared_spec (hf : f.variadic = true → f.params ≠ []) (h : f.accepts n = true) :
    (f.declared n).length = n ∧ ∀ i < n, f.paramAt? i = (f.declared n)[i]? := by
  cases hv : f.variadic with
  | false =>
    have hlength : n = f.params.length := by
      simpa [accepts, hv] using h
    have hdeclared : f.declared n = f.params := by rw [declared, hv]
    rw [hdeclared]
    refine ⟨hlength.symm, fun i hi => ?_⟩
    rw [paramAt?, hv]
    simp
  | true =>
    have hlength : f.params.length ≤ n + 1 := by
      have hint : (f.params.length : Int) - 1 ≤ n := by simpa [accepts, hv] using h
      omega
    obtain ⟨init, last, hparams⟩ : ∃ init last, f.params = init ++ [last] :=
      List.eq_nil_or_concat' f.params |>.resolve_left (hf hv)
    have hdeclared : f.declared n = init ++ List.replicate (n - init.length) last := by
      rw [declared, hv, hparams]
      simp
    rw [hparams, List.length_append, List.length_singleton] at hlength
    rw [hdeclared]
    refine ⟨by simp; omega, fun i hi => ?_⟩
    by_cases hlast : i < init.length
    · have hle : ¬ init.length + 1 ≤ i + 1 := by omega
      rw [paramAt?, hv, hparams]
      simp [hle, List.getElem?_append_left hlast]
    · have hle : init.length + 1 ≤ i + 1 := by omega
      have hget : (init ++ List.replicate (n - init.length) last)[i]? = some last := by
        rw [List.getElem?_append_right (by omega), List.getElem?_replicate_of_lt (by omega)]
      rw [hget, paramAt?, hv, hparams]
      simp [hle]

/-- Matching arguments is matching their declared types one by one. -/
theorem matchArgsFrom_eq {ds args : List Ty} {i : Nat} (hlength : ds.length = args.length)
    (hds : ∀ j < ds.length, f.paramAt? (i + j) = ds[j]?) (s : Subst) :
    f.matchArgsFrom i args s = Ty.matchAll Ty.matchTypes? ds args s := by
  induction args generalizing ds i s with
  | nil =>
    rw [List.length_eq_zero_iff.mp hlength]
    rfl
  | cons a args ih =>
    cases ds with
    | nil => cases hlength
    | cons d ds =>
      have hfirst : f.paramAt? i = some d := hds 0 (by simp)
      have hrest : ∀ j < ds.length, f.paramAt? (i + 1 + j) = ds[j]? := by
        intro j hj
        have hnext := hds (j + 1) (by simpa using hj)
        rwa [List.getElem?_cons_succ, ← Nat.add_assoc, Nat.add_right_comm] at hnext
      have hlength' : ds.length = args.length := by simpa using hlength
      simp only [matchArgsFrom, hfirst, Ty.matchAll]
      rcases Ty.matchTypes? d a s with _ | ⟨_ | _, s'⟩
      · rfl
      · rfl
      · exact ih hlength' hrest s'

/-- Matching the arguments of a function with ground types is decided. -/
theorem matchArgs?_decides {args : List Ty} {s : Subst}
    (hf : f.variadic = true → f.params ≠ []) (hargs : ∀ a ∈ args, a.Ground) (hs : s.Ground) :
    ∃ matched s', f.matchArgs? args s = some (matched, s') ∧
      (matched = true ↔
        f.accepts args.length = true ∧ ∃ θ, Ty.Solves θ s (f.declared args.length) args) := by
  rw [matchArgs?]
  split
  · next haccepts =>
    obtain ⟨hlength, hdeclared⟩ := declared_spec hf haccepts
    have hall : f.matchArgsFrom 0 args s =
        Ty.matchAll Ty.matchTypes? (f.declared args.length) args s := by
      refine matchArgsFrom_eq hlength ?_ s
      intro j hj
      rw [Nat.zero_add]
      exact hdeclared j (by omega)
    have hdecides : Ty.Decides s (f.declared args.length) args (f.matchArgsFrom 0 args s) := by
      rw [hall]
      refine Ty.matchAll_decides ?_ ?_ hargs hs
      · intro p _ c hc s hs
        exact Ty.matchTypes?_decides (hargs c hc) hs
      · intro p c s s' hc hs hmatch
        exact ⟨Ty.matchTypes?_ground hc hs hmatch, Ty.matchWithin_completes hc hs hmatch⟩
    obtain ⟨matched, s', hanswer, hiff⟩ := hdecides
    exact ⟨matched, s', hanswer, hiff.trans (and_iff_right haccepts).symm⟩
  · next haccepts =>
    exact ⟨false, s, rfl, iff_of_false Bool.false_ne_true fun h => haccepts h.1⟩

end FnType

/-! ## Matching finds what there is to find -/

open Ty (Follows Solves)

/-- Matching with ground types, under ground bindings, always ends, and it succeeds exactly if there
is a solution: for a pattern and a type, and for the declared types of all arguments of a function
together. Where no part of a type is missing, a solution is any assignment that keeps the bindings
and turns the patterns into the types. A match binds the variables of the pattern that were unbound,
each once, and turns the pattern into the type. -/
theorem match_decides {p c : Ty} {s : Subst} {f : FnType} {args : List Ty} (hc : c.Ground)
    (hs : s.Ground) (hf : f.variadic = true → f.params ≠ []) (hargs : ∀ a ∈ args, a.Ground) :
    (∃ matched s', Ty.matchTypes? p c s = some (matched, s') ∧
      (matched = true ↔ ∃ θ, Solves θ s [p] [c]) ∧
      (p.Whole → c.Whole → (matched = true ↔ ∃ θ, Follows s θ ∧ p.bind θ = c)) ∧
      (matched = true → s.Completes p.occurrences s' ∧ p.apply s' = c)) ∧
    (∃ matched s', f.matchArgs? args s = some (matched, s') ∧
      (matched = true ↔
        f.accepts args.length = true ∧ ∃ θ, Solves θ s (f.declared args.length) args) ∧
      ((∀ q ∈ f.params, q.Whole) → (∀ a ∈ args, a.Whole) →
        (matched = true ↔ f.accepts args.length = true ∧
          ∃ θ, Follows s θ ∧ (f.declared args.length).map (·.bind θ) = args))) := by
  constructor
  · obtain ⟨matched, s', hanswer, hiff⟩ := Ty.matchTypes?_decides (p := p) hc hs
    refine ⟨matched, s', hanswer, hiff, ?_, ?_⟩
    · intro hp hcw
      have hsolves : ∀ θ, Solves θ s [p] [c] ↔ Follows s θ ∧ p.bind θ = c := by
        intro θ
        rw [Ty.solves_iff_of_whole (by simpa using hp) (by simpa using hcw)]
        simp
      simp only [hiff, hsolves]
    · rintro rfl
      have hfit := Ty.matchTypes?_ground hc hs hanswer
      refine ⟨Ty.matchWithin_completes hc hs hanswer, ?_⟩
      rw [Ty.apply_of_ground hfit.ground, hfit.bind_eq]
  · obtain ⟨matched, s', hanswer, hiff⟩ := FnType.matchArgs?_decides hf hargs hs
    refine ⟨matched, s', hanswer, hiff, fun hparams hwhole => ?_⟩
    have hdeclared : ∀ q ∈ f.declared args.length, q.Whole :=
      fun q hq => hparams q (FnType.mem_params_of_mem_declared hq)
    simp only [hiff, Ty.solves_iff_of_whole hdeclared hwhole]

/-- A match that binds `V`, and arguments of a variadic function whose second and third ones cannot
have the same type. -/
theorem shared_element_decides :
    let s : Subst := ⟨[("K", .text)]⟩
    let p : Ty := .dict (.var "K") (.list (.var "V"))
    let c : Ty := .dict .text (.list .number)
    let f : FnType := ⟨[.var "K", .list (.var "V")], .var "V", true⟩
    let args : List Ty := [.text, .list .number, .list .text]
    c.Ground ∧ s.Ground ∧ (∀ a ∈ args, a.Ground) ∧
      (∃ s', Ty.matchTypes? p c s = some (true, s') ∧ s.Completes p.occurrences s' ∧
        p.apply s' = c) ∧
      f.accepts args.length = true ∧
      ¬ ∃ θ, Follows s θ ∧ (f.declared args.length).map (·.bind θ) = args := by
  intro s p c f args
  have hc : c.Ground := by decide
  have hs : s.Ground := by
    intro x t hx
    have hmem : (x, t) ∈ s.entries := Table.mem_of_get? hx
    cases List.mem_singleton.mp hmem
    decide
  have hf : f.variadic = true → f.params ≠ [] := by simp [f]
  have hargs : ∀ a ∈ args, a.Ground := by decide
  obtain ⟨⟨matched, s', hmatch, -, -, hsuccess⟩, matched', s'', hcall, -, hcalled⟩ :=
    match_decides (p := p) hc hs hf hargs
  have hyes : Ty.matchTypes? p c s = some (true, ⟨[("K", .text), ("V", .number)]⟩) := by rfl
  have hno : f.matchArgs? args s = some (false, ⟨[("K", .text), ("V", .number)]⟩) := by rfl
  have haccepts : f.accepts args.length = true := by rfl
  rw [hmatch] at hyes
  cases hyes
  rw [hcall] at hno
  cases hno
  have hnone := (hcalled (by decide) (by decide)).not.mp Bool.false_ne_true
  exact ⟨hc, hs, hargs, ⟨_, hmatch, hsuccess rfl⟩, haccepts, fun hθ => hnone ⟨haccepts, hθ⟩⟩

/-- An assignment that is no solution: letting `T` be missing turns the pattern `Dict<T, T>` into
`Dict<?, ?>`, but the second occurrence is compared with the first one, and a missing type is the
same as no type. -/
theorem missing_twice_unmatched :
    let p : Ty := .dict (.var "T") (.var "T")
    let c : Ty := .dict .missing .missing
    p.Whole ∧ c.Ground ∧ Subst.Ground ∅ ∧ (∃ θ, Follows ∅ θ ∧ p.bind θ = c) ∧
      ¬ ∃ s', Ty.matchTypes? p c ∅ = some (true, s') := by
  intro p c
  refine ⟨by decide, by decide, Subst.ground_empty, ⟨fun _ => .missing, ?_, rfl⟩, ?_⟩
  · rintro x t hx
    cases hx
  · rintro ⟨s', hs'⟩
    have hno : Ty.matchTypes? p c ∅ = some (false, ⟨[("T", .missing)]⟩) := by rfl
    rw [hno] at hs'
    cases hs'

end TreeLang
