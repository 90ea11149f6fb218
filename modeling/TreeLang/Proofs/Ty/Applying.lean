import Mathlib.Data.Finset.Card
import Mathlib.Logic.Relation
import TreeLang.Proofs.Ty.Constants
import TreeLang.Proofs.Ty.Unifying

/-!
# Bindings followed to the end

`expandWithin` is the recursion that follows bindings, with the variables that are being expanded in
a list: a call for a part keeps the list, and only the call for a binding adds its variable. It
answers within as many nested calls as the type and the bindings that are not being expanded are
large together, since a call either goes down to a part or leaves a variable to its binding, which is
then out of the way. So applying ends whatever the bindings are, and `resolve_eq_of_size_le` says
that the bound on depth in its definition is never met.

A variable is left in place only if it comes up again below its own binding. `Below` is this
relation, and bindings are acyclic exactly if no variable is below itself (`acyclic_iff`). On a cycle
something is always left, the variable that closes it. Main statement: `apply_resolves`. Applying
ends, and it leaves no bound variable in any type exactly if the bindings are acyclic.
-/

namespace TreeLang

/-- A list for all of whose members there is an answer is answered one by one. -/
theorem mapM_eq_some_map {α β : Type} {f : α → Option β} {g : α → β} {xs : List α}
    (h : ∀ x ∈ xs, f x = some (g x)) : xs.mapM f = some (xs.map g) := by
  induction xs with
  | nil => rfl
  | cons x xs ih =>
    have hrest := ih fun y hy => h y (List.mem_cons_of_mem x hy)
    rw [List.mapM_cons, h x List.mem_cons_self, hrest]
    rfl

/-! ## Bindings that are set aside -/

namespace Subst

/-- The bindings without those of the names. -/
def without (s : Subst) (names : List String) : Subst := names.foldr (fun x r => r.erase x) s

theorem get?_without (s : Subst) (names : List String) (x : String) :
    (s.without names).get? x = if x ∈ names then none else s.get? x := by
  induction names with
  | nil => rfl
  | cons y names ih =>
    have hstep : s.without (y :: names) = (s.without names).erase y := rfl
    rw [hstep, Table.get?_erase, ih]
    by_cases hy : y = x
    · simp [hy]
    · simp [hy, Ne.symm hy]

/-- A binding that is set aside counts no more. -/
theorem size_add_substSize_erase {s : Subst} {x : String} {t : Ty} (h : s.get? x = some t) :
    t.size + Ty.substSize (s.erase x) ≤ Ty.substSize s := by
  obtain ⟨entries⟩ := s
  simp only [Table.get?] at h
  simp only [Ty.substSize_eq_sum, Table.erase]
  induction entries with
  | nil => cases h
  | cons e entries ih =>
    rw [Table.lookup] at h
    by_cases hx : e.1 = x
    · rw [if_pos hx] at h
      cases h
      rw [List.filter_cons_of_neg (by simpa using hx), List.map_cons, List.sum_cons]
      have hsub : (entries.filter fun e => e.1 ≠ x).Sublist entries := List.filter_sublist
      have hle := (hsub.map fun e => e.2.size).sum_le_sum fun _ _ => Nat.zero_le _
      exact Nat.add_le_add_left hle _
    · rw [if_neg hx] at h
      rw [List.filter_cons_of_pos (by simpa using hx), List.map_cons, List.map_cons, List.sum_cons,
        List.sum_cons]
      have hle := ih h
      omega

end Subst

namespace Ty

/-! ## One step of applying -/

/-- The bound on depth is never met: from the number of bindings on, all bounds give the same. -/
theorem resolve_eq_of_size_le {s : Subst} {d₁ d₂ : Nat} (h₁ : s.size ≤ d₁) (h₂ : s.size ≤ d₂)
    (x : String) : resolve d₁ s x = resolve d₂ s x := by
  induction d₁ generalizing s d₂ x with
  | zero =>
    have hx : s.get? x = none := get?_eq_none_of_size_eq_zero (Nat.le_zero.mp h₁) x
    rw [resolve_of_get?_none hx, resolve_of_get?_none hx]
  | succ d₁ ih =>
    cases hx : s.get? x with
    | none => rw [resolve_of_get?_none hx, resolve_of_get?_none hx]
    | some t =>
      by_cases ht : t = .var x
      · subst ht
        rw [resolve_of_self hx, resolve_of_self hx]
      · have hsize := Subst.size_erase_lt hx
        obtain ⟨d₂, rfl⟩ : ∃ d, d₂ = d + 1 := ⟨d₂ - 1, by omega⟩
        rw [resolve_of_get? hx ht, resolve_of_get? hx ht]
        exact bind_congr fun y _ => ih (by omega) (by omega) y

@[simp] theorem apply_list (s : Subst) (elem : Ty) :
    (list elem).apply s = .list (elem.apply s) := rfl

@[simp] theorem apply_dict (s : Subst) (key value : Ty) :
    (dict key value).apply s = .dict (key.apply s) (value.apply s) := rfl

@[simp] theorem apply_fn (s : Subst) (params : List Ty) (result : Ty) (variadic : Bool) :
    (fn params result variadic).apply s =
      .fn (params.map (·.apply s)) (result.apply s) variadic := by
  rw [apply, bind, bindAll_eq_map]
  rfl

theorem apply_var_of_get?_none {s : Subst} {x : String} (h : s.get? x = none) :
    (var x).apply s = .var x := resolve_of_get?_none h _

/-- A bound variable reads as its binding does while the binding is set aside. -/
theorem apply_var_of_get? {s : Subst} {x : String} {t : Ty} (h : s.get? x = some t)
    (ht : t ≠ .var x) : (var x).apply s = t.apply (s.erase x) := by
  have hsize := Subst.size_erase_lt h
  obtain ⟨d, hd⟩ : ∃ d, s.size = d + 1 := ⟨s.size - 1, by omega⟩
  change resolve s.size s x = t.bind (resolve (s.erase x).size (s.erase x))
  rw [hd, resolve_of_get? h ht]
  exact bind_congr fun y _ => resolve_eq_of_size_le (by omega) (Nat.le_refl _) y

/-! ## The recursion -/

/-- The type with the bindings followed by calls of which at most `depth` are nested; `none` if this
is too few. The variables in `visited` are being expanded, and stay as they are. -/
def expandWithin (s : Subst) : (depth : Nat) → (visited : List String) → Ty → Option Ty
  | 0, _, _ => none
  | _ + 1, _, .missing => some .missing
  | _ + 1, _, .con name => some (.con name)
  | depth + 1, visited, .var x =>
    if x ∈ visited then some (.var x)
    else
      match s.get? x with
      | none => some (.var x)
      | some t =>
        if t.same (.var x) then some (.var x) else expandWithin s depth (x :: visited) t
  | depth + 1, visited, .list elem => do
    let elem ← expandWithin s depth visited elem
    return .list elem
  | depth + 1, visited, .dict key value => do
    let key ← expandWithin s depth visited key
    let value ← expandWithin s depth visited value
    return .dict key value
  | depth + 1, visited, .fn params result variadic => do
    let params ← params.mapM (expandWithin s depth visited)
    let result ← expandWithin s depth visited result
    return .fn params result variadic

/-- Only a variable is the same as a variable. -/
theorem same_var_iff {t : Ty} {x : String} : t.same (.var x) = true ↔ t = .var x := by
  constructor
  · exact eq_of_same
  · rintro rfl
    exact whole_var x

/-- The recursion answers as soon as as many calls may nest as the type and the bindings of the
variables that are not being expanded are large, and it gives what applying these bindings gives. -/
theorem expandWithin_eq {s : Subst} {visited : List String} {t : Ty} {depth : Nat}
    (h : t.size + substSize (s.without visited) ≤ depth) :
    expandWithin s depth visited t = some (t.apply (s.without visited)) := by
  induction depth generalizing visited t with
  | zero =>
    have hpos := size_pos t
    omega
  | succ depth ih =>
    cases t with
    | missing | con => rfl
    | var x =>
      have hget := Subst.get?_without s visited x
      rw [expandWithin]
      by_cases hx : x ∈ visited
      · rw [if_pos hx] at hget
        rw [if_pos hx, apply_var_of_get?_none hget]
      · rw [if_neg hx] at hget
        rw [if_neg hx]
        cases hs : s.get? x with
        | none => rw [apply_var_of_get?_none (hget.trans hs)]
        | some t =>
          have hbound : (s.without visited).get? x = some t := hget.trans hs
          dsimp only
          by_cases ht : t = .var x
          · have hself : (var x).apply (s.without visited) = .var x := by
              subst ht
              exact resolve_of_self hbound _
            rw [if_pos (same_var_iff.mpr ht), hself]
          · -- The variable leaves the measure, and its binding comes in.
            have hle := Subst.size_add_substSize_erase hbound
            have hsize : t.size + substSize (s.without (x :: visited)) ≤ depth := by
              rw [size] at h
              change t.size + substSize ((s.without visited).erase x) ≤ depth
              omega
            rw [if_neg (same_var_iff.not.mpr ht), ih hsize, apply_var_of_get? hbound ht]
            rfl
    | list elem =>
      rw [size] at h
      have helem : expandWithin s depth visited elem = some (elem.apply (s.without visited)) :=
        ih (by omega)
      simp only [expandWithin, helem, apply_list]
      rfl
    | dict key value =>
      rw [size] at h
      have hkey : expandWithin s depth visited key = some (key.apply (s.without visited)) :=
        ih (by omega)
      have hvalue : expandWithin s depth visited value = some (value.apply (s.without visited)) :=
        ih (by omega)
      simp only [expandWithin, hkey, hvalue, apply_dict]
      rfl
    | fn params result variadic =>
      rw [size] at h
      have hparams : params.mapM (expandWithin s depth visited) =
          some (params.map (·.apply (s.without visited))) := by
        refine mapM_eq_some_map fun p hp => ih ?_
        have hle := size_le_sizeAll hp
        omega
      have hresult : expandWithin s depth visited result =
          some (result.apply (s.without visited)) := ih (by omega)
      simp only [expandWithin, hparams, hresult, apply_fn]
      rfl

end Ty

/-! ## Cycles -/

namespace Subst

open Relation (TransGen)

/-- `y` occurs in the type that `x` is bound to. -/
def Below (s : Subst) (y x : String) : Prop := ∃ t, s.get? x = some t ∧ y ∈ t.occurrences

/-- Where something is below a variable, the variable is bound. -/
theorem exists_of_transGen_below {s : Subst} {y x : String} (h : TransGen s.Below y x) :
    ∃ t, s.get? x = some t := by
  obtain ⟨_, -, t, ht, -⟩ := TransGen.tail'_iff.mp h
  exact ⟨t, ht⟩

theorem Ranked.lt_of_transGen_below {rank : String → Nat} {s : Subst} (hs : s.Ranked rank)
    {y x : String} (h : TransGen s.Below y x) : rank y < rank x := by
  induction h with
  | single h =>
    obtain ⟨t, ht, hy⟩ := h
    exact hs _ t ht _ hy
  | tail _ h ih =>
    obtain ⟨t, ht, hz⟩ := h
    exact ih.trans (hs _ t ht _ hz)

/-- Bindings are acyclic exactly if no variable is reached from its own binding. As there are
finitely many bindings, the number of variables below a variable is then a rank. -/
theorem acyclic_iff {s : Subst} : s.Acyclic ↔ ∀ x, ¬ TransGen s.Below x x := by
  classical
  constructor
  · rintro ⟨rank, hrank⟩ x hx
    exact Nat.lt_irrefl _ (hrank.lt_of_transGen_below hx)
  · intro h
    let names : Finset String := (s.entries.flatMap fun e => e.2.occurrences).toFinset
    refine ⟨fun x => (names.filter fun y => TransGen s.Below y x).card, fun x t ht y hy => ?_⟩
    have hbelow : s.Below y x := ⟨t, ht, hy⟩
    have hname : y ∈ names :=
      List.mem_toFinset.mpr (List.mem_flatMap.mpr ⟨(x, t), Table.mem_of_get? ht, hy⟩)
    refine Finset.card_lt_card (Finset.ssubset_iff_of_subset ?_ |>.mpr ⟨y, ?_, ?_⟩)
    · exact Finset.monotone_filter_right _ fun z _ hz => hz.tail hbelow
    · exact Finset.mem_filter.mpr ⟨hname, .single hbelow⟩
    · exact fun hmem => h y (Finset.mem_filter.mp hmem).2

/-- Where acyclic bindings have been followed, no bound variable is left. -/
theorem Acyclic.not_mem_occurrences_apply {s : Subst} (hs : s.Acyclic) {x : String} {u : Ty}
    (hx : s.get? x = some u) (t : Ty) : x ∉ (t.apply s).occurrences := by
  obtain ⟨rank, hrank⟩ := hs
  have hvar : ∀ y, x ∉ ((Ty.var y).apply s).occurrences := by
    intro y
    induction hk : rank y using Nat.strong_induction_on generalizing y with
    | _ k ih =>
      cases hget : s.get? y with
      | none =>
        have hne : x ≠ y := by
          rintro rfl
          rw [hx] at hget
          cases hget
        have hself : (Ty.var y).apply s = .var y := Ty.resolve_of_get?_none hget _
        rw [hself]
        simpa [Ty.occurrences] using hne
      | some v =>
        rw [Subst.Acyclic.apply_var ⟨rank, hrank⟩ hget]
        intro hmem
        obtain ⟨z, hz, hxz⟩ := Ty.mem_occurrences_bind.mp hmem
        have hlt : rank z < k := by
          rw [← hk]
          exact hrank y v hget z hz
        exact ih (rank z) hlt z rfl hxz
  intro hmem
  obtain ⟨y, -, hxy⟩ := Ty.mem_occurrences_bind.mp hmem
  exact hvar y hxy

end Subst

namespace Ty

open Relation (TransGen)

/-- A variable on a cycle leaves one on a cycle, however many bindings have been set aside: it is
one itself if it stays, and its binding has the next one in it. -/
theorem exists_cyclic_of_resolve {s r : Subst} (hr : r.Extends s) {x : String}
    (hx : TransGen s.Below x x) (depth : Nat) :
    ∃ y ∈ (resolve depth r x).occurrences, TransGen s.Below y y := by
  have hstays : ∃ y ∈ (var x).occurrences, TransGen s.Below y y := ⟨x, by simp [occurrences], hx⟩
  induction depth generalizing r x with
  | zero => exact hstays
  | succ depth ih =>
    cases hget : r.get? x with
    | none => rwa [resolve_of_get?_none hget]
    | some t =>
      by_cases ht : t = .var x
      · subst ht
        rwa [resolve_of_self hget]
      · obtain ⟨y, hxy, u, hu, hy⟩ := TransGen.tail'_iff.mp hx
        have htu : u = t := by
          rw [hr x t hget] at hu
          cases hu
          rfl
        subst htu
        have hcycle : TransGen s.Below y y := .head' ⟨u, hu, hy⟩ hxy
        have herase : Subst.Extends (r.erase x) s := (Subst.erase_extends r x).trans hr
        obtain ⟨z, hz, hzz⟩ := ih herase hcycle ⟨y, by simp [occurrences], hcycle⟩
        rw [resolve_of_get? hget ht]
        exact ⟨z, mem_occurrences_bind.mpr ⟨y, hy, hz⟩, hzz⟩

/-! ## Types without bound variables -/

/-- No variable of the type is bound. -/
def Resolved (s : Subst) (t : Ty) : Prop := ∀ x ∈ t.occurrences, s.get? x = none

/-- Applying does nothing where nothing is bound. -/
theorem Resolved.apply_eq {s : Subst} {t : Ty} (h : Resolved s t) : t.apply s = t := by
  have hvars : t.bind (resolve s.size s) = t.bind .var :=
    bind_congr fun x hx => resolve_of_get?_none (h x hx) _
  exact hvars.trans (bind_var t)

theorem resolved_apply {s : Subst} (hs : s.Acyclic) (t : Ty) : Resolved s (t.apply s) := by
  intro x hx
  by_contra hbound
  obtain ⟨u, hu⟩ := Option.ne_none_iff_exists'.mp hbound
  exact hs.not_mem_occurrences_apply hu t hx

/-- Applying resolves every type exactly under acyclic bindings. -/
theorem acyclic_iff_resolved {s : Subst} : s.Acyclic ↔ ∀ t : Ty, Resolved s (t.apply s) := by
  constructor
  · exact resolved_apply
  · intro h
    refine Subst.acyclic_iff.mpr fun x hx => ?_
    obtain ⟨y, hy, hcycle⟩ := exists_cyclic_of_resolve (Subst.Extends.refl s) hx s.size
    obtain ⟨t, ht⟩ := Subst.exists_of_transGen_below hcycle
    have hnone : s.get? y = none := h (.var x) y hy
    rw [hnone] at ht
    cases ht

/-- Following bindings ends, also in the midst of expanding some variables and whatever cycles there
are, and gives what applying the other bindings gives. It leaves no bound variable in any type
exactly if the bindings are acyclic; then a bound variable reads as its binding does, and applying
the bindings again changes nothing. -/
theorem apply_resolves (s : Subst) :
    (∀ (visited : List String) (t : Ty) (depth : Nat),
      t.size + substSize (s.without visited) ≤ depth →
        expandWithin s depth visited t = some (t.apply (s.without visited))) ∧
    (∀ (t : Ty) (depth : Nat), t.size + substSize s ≤ depth →
      expandWithin s depth [] t = some (t.apply s)) ∧
    (s.Acyclic ↔ ∀ t : Ty, Resolved s (t.apply s)) ∧
    (s.Acyclic →
      (∀ (x : String) (t : Ty), s.get? x = some t → (var x).apply s = t.apply s) ∧
      ∀ t : Ty, (t.apply s).apply s = t.apply s) := by
  refine ⟨fun _ _ _ => expandWithin_eq, fun _ _ h => expandWithin_eq h, acyclic_iff_resolved, ?_⟩
  intro hs
  exact ⟨fun _ _ => hs.apply_var, fun t => (resolved_apply hs t).apply_eq⟩

/-- Bindings in which `C` comes up below `B` and again beside it, so that it is expanded twice, and
bindings on a cycle, where `T` is left when it comes up below its own binding. -/
theorem sharing_resolves :
    let s : Subst :=
      ⟨[("A", .dict (.var "B") (.list (.var "C"))), ("B", .list (.var "C")), ("C", .var "D")]⟩
    let t : Ty := .fn [.var "A", .var "C"] (.var "E") true
    let u : Ty := .fn [.dict (.list (.var "D")) (.list (.var "D")), .var "D"] (.var "E") true
    let loop : Subst := ⟨[("T", .list (.var "U")), ("U", .var "T")]⟩
    s.Acyclic ∧ expandWithin s 11 [] t = some u ∧ t.apply s = u ∧ Resolved s u ∧ u.apply s = u ∧
      (var "A").apply s = (dict (.var "B") (.list (.var "C"))).apply s ∧
      expandWithin loop 4 [] (.var "T") = some (.list (.var "T")) ∧ ¬ loop.Acyclic := by
  intro s t u loop
  have hacyclic : s.Acyclic := by
    refine ⟨fun x => ["D", "C", "B", "A"].idxOf x, fun x t hx => ?_⟩
    have hmem : (x, t) ∈ s.entries := Table.mem_of_get? hx
    simp only [s, List.mem_cons, Prod.mk.injEq, List.not_mem_nil, or_false] at hmem
    rcases hmem with ⟨rfl, rfl⟩ | ⟨rfl, rfl⟩ | ⟨rfl, rfl⟩ <;> decide
  obtain ⟨-, hends, hresolved, hlaws⟩ := apply_resolves s
  obtain ⟨hvar, htwice⟩ := hlaws hacyclic
  have hu : t.apply s = u := by rfl
  refine ⟨hacyclic, ?_, hu, ?_, ?_, hvar "A" _ rfl, ?_, ?_⟩
  · rw [← hu]
    exact hends t 11 (by decide)
  · rw [← hu]
    exact hresolved.mp hacyclic t
  · rw [← hu]
    exact htwice t
  · exact (apply_resolves loop).2.1 (.var "T") 4 (by decide)
  · intro hloop
    have hnone := (apply_resolves loop).2.2.1.mp hloop (.var "T") "T" (by decide)
    cases hnone

end Ty

end TreeLang
