import Mathlib.Tactic.Ring
import TreeLang.Proofs.Table
import TreeLang.Proofs.Ty.Matching

/-!
# Replacing type constants

Putting ground types in the place of type constants changes nothing in how types behave: a match
that succeeds still succeeds with the same bindings, and applying bindings commutes with it. Main
statements: `apply_replace` and `matchTypes?_replace`. The only delicate point is the number of
steps: where a constant met itself in one step, a type meets itself in as many steps as it is deep.
-/

namespace TreeLang

namespace Ty

/-! ## Constants -/

mutual

/-- The type with its constants replaced. -/
def replace (κ : String → Ty) : Ty → Ty
  | .missing => .missing
  | .con name => κ name
  | .var name => .var name
  | .list elem => .list (elem.replace κ)
  | .dict key value => .dict (key.replace κ) (value.replace κ)
  | .fn params result variadic => .fn (replaceAll κ params) (result.replace κ) variadic

/-- The types with their constants replaced. -/
def replaceAll (κ : String → Ty) : List Ty → List Ty
  | [] => []
  | t :: ts => t.replace κ :: replaceAll κ ts

end

mutual

/-- The constants in a type. -/
def constants : Ty → List String
  | .missing => []
  | .con name => [name]
  | .var _ => []
  | .list elem => elem.constants
  | .dict key value => key.constants ++ value.constants
  | .fn params result _ => constantsAll params ++ result.constants

/-- The constants in a list of types. -/
def constantsAll : List Ty → List String
  | [] => []
  | t :: ts => t.constants ++ constantsAll ts

end

section Lists

-- Every induction below unfolds these, so their equations are made here, at once.
attribute [local simp] replace replaceAll constants constantsAll sizeAll

theorem replaceAll_eq_map (κ : String → Ty) (ts : List Ty) :
    replaceAll κ ts = ts.map (replace κ) := by
  induction ts with
  | nil => rfl
  | cons t ts ih => simp [ih]

theorem constantsAll_eq_flatMap (ts : List Ty) : constantsAll ts = ts.flatMap constants := by
  induction ts with
  | nil => rfl
  | cons t ts ih => simp [ih]

theorem sizeAll_eq_sum (ts : List Ty) : sizeAll ts = (ts.map size).sum := by
  induction ts with
  | nil => rfl
  | cons t ts ih => simp [ih]

end Lists

theorem replace_congr {κ κ' : String → Ty} {t : Ty} (h : ∀ c ∈ t.constants, κ c = κ' c) :
    t.replace κ = t.replace κ' := by
  induction t with
  | missing => rfl
  | var name => rfl
  | con name => exact h name (by simp [constants])
  | list elem ih => simp only [replace, ih h]
  | dict key value ihk ihv =>
    simp only [constants, List.mem_append] at h
    simp only [replace, ihk fun c hc => h c (Or.inl hc), ihv fun c hc => h c (Or.inr hc)]
  | fn params result variadic ihp ihr =>
    simp only [constants, constantsAll_eq_flatMap, List.mem_append, List.mem_flatMap] at h
    have hps : params.map (replace κ) = params.map (replace κ') :=
      List.map_congr_left fun p hp => ihp p hp fun c hc => h c (Or.inl ⟨p, hp, hc⟩)
    simp only [replace, replaceAll_eq_map, hps, ihr fun c hc => h c (Or.inr hc)]

theorem replace_con (t : Ty) : t.replace .con = t := by
  induction t with
  | missing => rfl
  | var name => rfl
  | con name => rfl
  | list elem ih => simp only [replace, ih]
  | dict key value ihk ihv => simp only [replace, ihk, ihv]
  | fn params result variadic ihp ihr =>
    have hps : params.map (replace .con) = params := by
      conv => rhs; rw [← List.map_id params]
      exact List.map_congr_left ihp
    simp only [replace, replaceAll_eq_map, hps, ihr]

/-- Constants that stand for themselves stay. -/
theorem replace_eq_self {κ : String → Ty} {t : Ty} (h : ∀ c ∈ t.constants, κ c = .con c) :
    t.replace κ = t := by
  rw [replace_congr h, replace_con]

/-! ## Replacing constants and variables -/

section Replace

variable {κ : String → Ty}

theorem Whole.replace (hκ : ∀ c, (κ c).Concrete) {t : Ty} (h : t.Whole) :
    (t.replace κ).Whole := by
  induction t with
  | missing => exact h
  | var name => exact h
  | con name => exact (hκ name).whole
  | list elem ih => exact whole_list.mpr (ih (whole_list.mp h))
  | dict key value ihk ihv =>
    have hkv := whole_dict.mp h
    exact whole_dict.mpr ⟨ihk hkv.1, ihv hkv.2⟩
  | fn params result variadic ihp ihr =>
    have hpr := whole_fn.mp h
    rw [Ty.replace, replaceAll_eq_map, whole_fn]
    refine ⟨fun q hq => ?_, ihr hpr.2⟩
    rcases List.mem_map.mp hq with ⟨p, hp, rfl⟩
    exact ihp p hp (hpr.1 p hp)

/-- Types that are the same stay the same. -/
theorem same_replace (hκ : ∀ c, (κ c).Concrete) {a b : Ty} (h : a.same b = true) :
    (a.replace κ).same (b.replace κ) = true := by
  have heq := eq_of_same h
  subst heq
  exact Whole.replace hκ h

theorem replace_bind (hκ : ∀ c, (κ c).Concrete) (f : String → Ty) (t : Ty) :
    (t.bind f).replace κ = (t.replace κ).bind fun x => (f x).replace κ := by
  induction t with
  | missing => rfl
  | var name => rfl
  | con name => simp only [bind, replace, (hκ name).ground.bind_eq]
  | list elem ih => simp only [bind, replace, ih]
  | dict key value ihk ihv => simp only [bind, replace, ihk, ihv]
  | fn params result variadic ihp ihr =>
    simp only [bind, bindAll_eq_map, replace, replaceAll_eq_map, List.map_map, ihr]
    congr 1
    exact List.map_congr_left ihp

/-- A type that is no variable does not become one. -/
theorem replace_ne_var (hκ : ∀ c, (κ c).Concrete) {t : Ty} (h : ∀ x, t ≠ .var x) (x : String) :
    t.replace κ ≠ .var x := by
  cases t with
  | var name => exact absurd rfl (h name)
  | con name =>
    intro heq
    have hground := (hκ name).ground
    rw [show κ name = .var x from heq] at hground
    exact not_ground_var x hground
  | _ => simp [replace]

/-! ## Applying bindings -/

theorem resolve_of_ne_var {s : Subst} {x : String} {t : Ty} (hx : s.get? x = some t)
    (h : ∀ y, t ≠ .var y) (depth : Nat) :
    resolve (depth + 1) s x = t.bind (resolve depth (s.erase x)) := by
  rw [resolve, hx]
  cases t with
  | var name => exact absurd rfl (h name)
  | _ => rfl

theorem resolve_replace (hκ : ∀ c, (κ c).Concrete) (depth : Nat) (s : Subst) (x : String) :
    (resolve depth s x).replace κ = resolve depth (s.map (replace κ)) x := by
  induction depth generalizing s x with
  | zero => rfl
  | succ depth ih =>
    cases hx : s.get? x with
    | none => simp [resolve, hx, replace]
    | some t =>
      by_cases hvar : ∃ y, t = .var y
      · rcases hvar with ⟨y, rfl⟩
        have hx' : (s.map (replace κ)).get? x = some (.var y) := by simp [hx, replace]
        rw [resolve, resolve, hx, hx']
        dsimp only
        split
        · rfl
        · rw [ih, Table.map_erase]
      · have hne : ∀ y, t ≠ .var y := fun y hy => hvar ⟨y, hy⟩
        have hx' : (s.map (replace κ)).get? x = some (t.replace κ) := by simp [hx]
        rw [resolve_of_ne_var hx hne, resolve_of_ne_var hx' (replace_ne_var hκ hne),
          replace_bind hκ]
        congr 1
        funext y
        rw [ih, Table.map_erase]

/-- Applying bindings commutes with replacing constants. -/
theorem apply_replace (hκ : ∀ c, (κ c).Concrete) (s : Subst) (t : Ty) :
    (t.apply s).replace κ = (t.replace κ).apply (s.map (replace κ)) := by
  rw [apply, apply, replace_bind hκ, Table.size_map]
  congr 1
  funext x
  exact resolve_replace hκ s.size s x

end Replace

/-! ## Matching after constants are replaced -/

/-- What stands for the constants of a type has at most `extra` parts more than a constant. -/
def Within (κ : String → Ty) (extra : Nat) (t : Ty) : Prop :=
  ∀ c ∈ t.constants, (κ c).size ≤ extra + 1

/-- The same for all bound types. -/
def WithinSubst (κ : String → Ty) (extra : Nat) (s : Subst) : Prop :=
  ∀ x t, s.get? x = some t → Within κ extra t

section Matching

variable {κ : String → Ty} {extra : Nat}

theorem within_dict {key value : Ty} :
    Within κ extra (.dict key value) ↔ Within κ extra key ∧ Within κ extra value := by
  simp only [Within, constants, List.mem_append]
  exact ⟨fun h => ⟨fun c hc => h c (Or.inl hc), fun c hc => h c (Or.inr hc)⟩,
    fun h c hc => hc.elim (h.1 c) (h.2 c)⟩

theorem within_fn {params : List Ty} {result : Ty} {variadic : Bool} :
    Within κ extra (.fn params result variadic) ↔
      ∀ t ∈ params ++ [result], Within κ extra t := by
  simp only [Within, constants, constantsAll_eq_flatMap, List.mem_append, List.mem_flatMap]
  constructor
  · rintro h t (ht | ht) c hc
    · exact h c (Or.inl ⟨t, ht, hc⟩)
    · rw [List.mem_singleton.mp ht] at hc
      exact h c (Or.inr hc)
  · rintro h c (⟨t, ht, hc⟩ | hc)
    · exact h t (Or.inl ht) c hc
    · exact h result (Or.inr (by simp)) c hc

theorem WithinSubst.insert {s : Subst} (hs : WithinSubst κ extra s) {x : String} {t : Ty}
    (ht : Within κ extra t) : WithinSubst κ extra (s.insert x t) := by
  intro y u hy
  rw [Table.get?_insert] at hy
  split at hy
  · cases hy
    exact ht
  · exact hs y u hy

/-- A success of `rec` becomes one of `rec'` when constants are replaced. -/
def Replaces (κ : String → Ty) (extra : Nat) (rec rec' : Ty → Ty → Subst → Option (Bool × Subst)) :
    Prop :=
  ∀ {p c : Ty} {s s' : Subst}, Within κ extra p → Within κ extra c → WithinSubst κ extra s →
    rec p c s = some (true, s') →
    rec' (p.replace κ) (c.replace κ) (s.map (replace κ)) = some (true, s'.map (replace κ)) ∧
      WithinSubst κ extra s'

theorem matchAll_replace {rec rec' : Ty → Ty → Subst → Option (Bool × Subst)}
    (hrec : Replaces κ extra rec rec') {ps cs : List Ty} {s s' : Subst}
    (hps : ∀ p ∈ ps, Within κ extra p) (hcs : ∀ c ∈ cs, Within κ extra c)
    (hs : WithinSubst κ extra s) (h : matchAll rec ps cs s = some (true, s')) :
    matchAll rec' (ps.map (replace κ)) (cs.map (replace κ)) (s.map (replace κ)) =
        some (true, s'.map (replace κ)) ∧ WithinSubst κ extra s' := by
  induction ps generalizing cs s with
  | nil =>
    cases cs with
    | nil =>
      simp only [matchAll, Option.some.injEq, Prod.mk.injEq, true_and] at h
      subst h
      exact ⟨rfl, hs⟩
    | cons c cs => simp [matchAll] at h
  | cons p ps ih =>
    cases cs with
    | nil => simp [matchAll] at h
    | cons c cs =>
      simp only [matchAll] at h
      split at h
      · next s₁ h₁ =>
        rcases hrec (hps p (by simp)) (hcs c (by simp)) hs h₁ with ⟨hstep, hs₁⟩
        rcases ih (fun q hq => hps q (by simp [hq])) (fun d hd => hcs d (by simp [hd])) hs₁ h with
          ⟨hrest, hs'⟩
        refine ⟨?_, hs'⟩
        rw [List.map_cons, List.map_cons, matchAll, hstep]
        exact hrest
      · next hne => exact absurd h (hne s')

/-- Parts of two types neither of which is a variable; two constants are left to the caller. -/
theorem matchParts_replace {rec rec' : Ty → Ty → Subst → Option (Bool × Subst)}
    (hrec : Replaces κ extra rec rec') {p c : Ty} {s s' : Subst} (hcon : ∀ name, p ≠ .con name)
    (hp : Within κ extra p) (hc : Within κ extra c) (hs : WithinSubst κ extra s)
    (h : matchParts rec p c s = some (true, s')) :
    matchParts rec' (p.replace κ) (c.replace κ) (s.map (replace κ)) =
        some (true, s'.map (replace κ)) ∧ WithinSubst κ extra s' := by
  unfold matchParts at h
  split at h
  · next a b => exact absurd rfl (hcon a)
  · exact hrec hp hc hs h
  · have hp' := within_dict.mp hp
    have hc' := within_dict.mp hc
    exact matchAll_replace hrec (by simpa using hp') (by simpa using hc') hs h
  · next ps r v qs t w =>
    split at h
    · simp at h
    · next hshape =>
      simp only [ne_eq, decide_not, Bool.or_eq_true, Bool.not_eq_true', decide_eq_false_iff_not,
        bne_iff_ne, not_or, not_not] at hshape
      have hall := matchAll_replace hrec (within_fn.mp hp) (within_fn.mp hc) hs h
      refine ⟨?_, hall.2⟩
      rw [List.map_append, List.map_append] at hall
      simpa [matchParts, replace, replaceAll_eq_map, hshape.1, hshape.2] using hall.1
  · simp at h

/-- A match that succeeds still succeeds when constants are replaced, in a few steps more. -/
theorem matchWithin_replace (hκ : ∀ c, (κ c).Concrete) (depth : Nat) :
    Replaces κ extra (matchWithin depth) (matchWithin (depth + extra)) := by
  induction depth with
  | zero =>
    intro p c s s' hp hc hs h
    simp [matchWithin] at h
  | succ depth ih =>
    intro p c s s' hp hc hs h
    rw [Nat.add_right_comm]
    by_cases hpvar : ∃ a, p = .var a
    · rcases hpvar with ⟨a, rfl⟩
      cases hget : s.get? a with
      | some bound =>
        have hget' : (s.map (replace κ)).get? a = some (bound.replace κ) := by simp [hget]
        rw [matchWithin_bound hget] at h
        rw [replace, matchWithin_bound hget']
        exact ih (hs a bound hget) hc hs h
      | none =>
        have hget' : (s.map (replace κ)).get? a = none := by simp [hget]
        by_cases hcvar : ∃ b, c = .var b
        · rcases hcvar with ⟨b, rfl⟩
          simp only [matchWithin, hget, Option.some.injEq, Prod.mk.injEq, true_and] at h
          simp only [matchWithin, replace, hget']
          split at h
          · next hab =>
            subst h
            simp [hab, hs]
          · next hab =>
            subst h
            simp [hab, Table.map_insert, replace, hs.insert hc]
        · have hne : ∀ x, c ≠ .var x := fun x hx => hcvar ⟨x, hx⟩
          rw [matchWithin_unbound hget hne] at h
          cases h
          rw [replace, matchWithin_unbound hget' (replace_ne_var hκ hne), Table.map_insert]
          exact ⟨rfl, hs.insert hc⟩
    · have hpne : ∀ x, p ≠ .var x := fun x hx => hpvar ⟨x, hx⟩
      by_cases hcvar : ∃ b, c = .var b
      · rcases hcvar with ⟨b, rfl⟩
        rw [matchWithin_swap hpne] at h
        rw [replace, matchWithin_swap (replace_ne_var hκ hpne)]
        exact ih hc hp hs h
      · have hcne : ∀ x, c ≠ .var x := fun x hx => hcvar ⟨x, hx⟩
        rw [matchWithin_parts hpne hcne] at h
        by_cases hpcon : ∃ a, p = .con a
        · -- A constant matches only itself, and so does what stands for it.
          rcases hpcon with ⟨a, rfl⟩
          cases c with
          | con b =>
            simp only [matchParts, Option.some.injEq, Prod.mk.injEq, beq_iff_eq] at h
            rcases h with ⟨rfl, rfl⟩
            have hsize : (κ a).size ≤ extra + 1 := hp a (by simp [constants])
            exact ⟨matchWithin_self (hκ a) (by omega) _, hs⟩
          | _ => simp [matchParts] at h
        · have hcon : ∀ name, p ≠ .con name := fun name hname => hpcon ⟨name, hname⟩
          rw [matchWithin_parts (replace_ne_var hκ hpne) (replace_ne_var hκ hcne)]
          exact matchParts_replace ih hcon hp hc hs h

end Matching

/-! ## Sizes -/

section Sizes

variable {κ : String → Ty}

theorem sum_map_le_of_le {α : Type} {f g : α → Nat} {as : List α} (h : ∀ a ∈ as, f a ≤ g a) :
    (as.map f).sum ≤ (as.map g).sum := by
  induction as with
  | nil => simp
  | cons a as ih =>
    have ha := h a (by simp)
    have has := ih fun b hb => h b (by simp [hb])
    simp only [List.map_cons, List.sum_cons]
    omega

/-- Where one summand grows by `n`, the sum grows by `n` at least. -/
theorem sum_map_add_le {α : Type} {f g : α → Nat} {n : Nat} {a : α} {as : List α} (ha : a ∈ as)
    (hn : n + f a ≤ g a + 1) (h : ∀ a ∈ as, f a ≤ g a) :
    n + (as.map f).sum ≤ (as.map g).sum + 1 := by
  induction as with
  | nil => exact absurd ha List.not_mem_nil
  | cons b bs ih =>
    have hb := h b (by simp)
    have hbs : ∀ c ∈ bs, f c ≤ g c := fun c hc => h c (by simp [hc])
    simp only [List.map_cons, List.sum_cons]
    rcases List.mem_cons.mp ha with rfl | ha
    · have hle := sum_map_le_of_le hbs
      omega
    · have hle := ih ha hbs
      omega

theorem sizeAll_replaceAll (ts : List Ty) :
    sizeAll (replaceAll κ ts) = (ts.map fun t => (t.replace κ).size).sum := by
  rw [sizeAll_eq_sum, replaceAll_eq_map, List.map_map]
  rfl

theorem size_le_replace (t : Ty) : t.size ≤ (t.replace κ).size := by
  induction t with
  | missing => exact Nat.le_refl _
  | var name => exact Nat.le_refl _
  | con name => exact size_pos (κ name)
  | list elem ih =>
    simp only [replace, size]
    omega
  | dict key value ihk ihv =>
    simp only [replace, size]
    omega
  | fn params result variadic ihp ihr =>
    have hle := sum_map_le_of_le ihp
    rw [replace, size, size, sizeAll_replaceAll, sizeAll_eq_sum]
    omega

/-- A type grows by as much as what stands for one of its constants has beyond a constant. -/
theorem size_replace_of_mem {c : String} {t : Ty} (hc : c ∈ t.constants) :
    (κ c).size + t.size ≤ (t.replace κ).size + 1 := by
  induction t with
  | missing => exact absurd hc List.not_mem_nil
  | var name => exact absurd hc List.not_mem_nil
  | con name =>
    rw [constants, List.mem_singleton] at hc
    subst hc
    exact Nat.le_refl _
  | list elem ih =>
    have hle := ih hc
    simp only [replace, size]
    omega
  | dict key value ihk ihv =>
    have hkey := size_le_replace (κ := κ) key
    have hvalue := size_le_replace (κ := κ) value
    simp only [replace, size]
    rcases List.mem_append.mp hc with hc | hc
    · have hle := ihk hc
      omega
    · have hle := ihv hc
      omega
  | fn params result variadic ihp ihr =>
    have hresult := size_le_replace (κ := κ) result
    have hparams : ∀ p ∈ params, p.size ≤ (p.replace κ).size := fun p _ => size_le_replace p
    rw [replace, size, size, sizeAll_replaceAll, sizeAll_eq_sum]
    rw [constants, constantsAll_eq_flatMap, List.mem_append, List.mem_flatMap] at hc
    rcases hc with ⟨p, hp, hc⟩ | hc
    · have hle := sum_map_add_le hp (ihp p hp hc) hparams
      omega
    · have hle := ihr hc
      have hsum := sum_map_le_of_le hparams
      omega

theorem substSize_eq_sum (s : Subst) : substSize s = (s.entries.map fun e => e.2.size).sum := by
  rw [substSize, sizeAll_eq_sum, List.map_map]
  rfl

theorem substSize_map (s : Subst) :
    substSize (s.map (replace κ)) = (s.entries.map fun e => (e.2.replace κ).size).sum := by
  rw [substSize_eq_sum, Table.map, List.map_map]
  rfl

theorem substSize_le_map (s : Subst) : substSize s ≤ substSize (s.map (replace κ)) := by
  rw [substSize_map, substSize_eq_sum]
  exact sum_map_le_of_le fun e _ => size_le_replace e.2

/-- Replacing constants gives a match as many steps more as it needs. -/
theorem matchDepth_replace (κ : String → Ty) (p c : Ty) (s : Subst) :
    ∃ extra, Within κ extra p ∧ Within κ extra c ∧ WithinSubst κ extra s ∧
      matchDepth p c s + extra ≤ matchDepth (p.replace κ) (c.replace κ) (s.map (replace κ)) := by
  have hp := size_le_replace (κ := κ) p
  have hc := size_le_replace (κ := κ) c
  have hs := substSize_le_map (κ := κ) s
  -- The growth of everything together bounds the growth of each part.
  rcases Nat.exists_eq_add_of_le (Nat.add_le_add (Nat.add_le_add hp hc) hs) with ⟨extra, hextra⟩
  refine ⟨extra, fun x hx => ?_, fun x hx => ?_, fun y t ht x hx => ?_, ?_⟩
  · have hle := size_replace_of_mem (κ := κ) hx
    omega
  · have hle := size_replace_of_mem (κ := κ) hx
    omega
  · have hle : (κ x).size + substSize s ≤ substSize (s.map (replace κ)) + 1 := by
      rw [substSize_map, substSize_eq_sum]
      exact sum_map_add_le (Table.mem_of_get? ht) (size_replace_of_mem hx)
        fun e _ => size_le_replace e.2
    omega
  · simp only [matchDepth, hextra]
    generalize p.size + c.size + substSize s = n
    have hpow : (n + extra + 2) * ((n + extra + 2) * (n + extra + 2)) =
        (n + 2) * ((n + 2) * (n + 2)) + extra +
          extra * (3 * n ^ 2 + 12 * n + 11 + 3 * (n + 2) * extra + extra ^ 2) := by ring
    omega

end Sizes

/-- A match that succeeds still succeeds when constants are replaced, with the same bindings. -/
theorem matchTypes?_replace {κ : String → Ty} (hκ : ∀ c, (κ c).Concrete) {p c : Ty}
    {s s' : Subst} (h : matchTypes? p c s = some (true, s')) :
    matchTypes? (p.replace κ) (c.replace κ) (s.map (replace κ)) =
      some (true, s'.map (replace κ)) := by
  rcases matchDepth_replace κ p c s with ⟨extra, hp, hc, hs, hdepth⟩
  exact matchWithin_mono hdepth (matchWithin_replace hκ _ hp hc hs h).1

end Ty

end TreeLang
