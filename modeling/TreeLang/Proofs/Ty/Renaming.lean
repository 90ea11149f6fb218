import Mathlib.Logic.Equiv.Basic
import TreeLang.Proofs.Ty.Constants

/-!
# Renaming type variables

Names of type variables carry no meaning: if no two variables get the same new name, then types
behave under their new names as they did under the old ones. Main statements: `apply_rename`,
`matchTypes?_rename` and `same_rename`, all of them equations, so that a failure stays a failure.
`exists_renaming` gives a renaming that turns a list of new variables into another one and leaves
all other variables alone.
-/

namespace TreeLang

/-! ## Renamings -/

/-- Names without repetition are turned into as many others by swapping names one after the other.
Names in neither list stay. -/
theorem exists_renaming {xs ys : List String} (hxs : xs.Nodup) (hys : ys.Nodup)
    (hlength : xs.length = ys.length) :
    ∃ ρ : Equiv.Perm String, xs.map ρ = ys ∧ ∀ z, z ∉ xs → z ∉ ys → ρ z = z := by
  induction xs generalizing ys with
  | nil =>
    have hnil : ys = [] := List.length_eq_zero_iff.mp hlength.symm
    subst hnil
    exact ⟨Equiv.refl String, rfl, fun _ _ _ => rfl⟩
  | cons x xs ih =>
    obtain ⟨y, ys, rfl⟩ := List.exists_cons_of_length_eq_add_one hlength.symm
    rw [List.nodup_cons] at hxs hys
    obtain ⟨ρ, hmap, hrest⟩ := ih hxs.2 hys.2 (Nat.succ.inj hlength)
    -- The first name goes where it should, and the other name there takes its place.
    refine ⟨ρ.trans (Equiv.swap (ρ x) y), ?_, fun z hz hz' => ?_⟩
    · rw [List.map_cons, Equiv.trans_apply, Equiv.swap_apply_left]
      congr 1
      refine Eq.trans (List.map_congr_left fun z hz => ?_) hmap
      have hne : ρ z ≠ ρ x := fun h => hxs.1 (ρ.injective h ▸ hz)
      have hne' : ρ z ≠ y := fun h => hys.1 (hmap ▸ h ▸ List.mem_map_of_mem hz)
      rw [Equiv.trans_apply, Equiv.swap_apply_of_ne_of_ne hne hne']
    · rw [List.mem_cons, not_or] at hz hz'
      have hz₀ : ρ z = z := hrest z hz.2 hz'.2
      have hne : z ≠ ρ x := fun h => hz.1 (ρ.injective (hz₀.trans h))
      rw [Equiv.trans_apply, hz₀, Equiv.swap_apply_of_ne_of_ne hne hz'.1]

/-- The type with its variables renamed. -/
def Ty.rename (ρ : String → String) (t : Ty) : Ty := t.bind fun x => .var (ρ x)

/-- The bindings with all variables renamed, bound ones and those in bound types. -/
def Subst.rename (ρ : String → String) (s : Subst) : Subst :=
  ⟨s.entries.map fun e => (ρ e.1, e.2.rename ρ)⟩

namespace Ty

variable {ρ : String → String}

/-! ## Shapes -/

@[simp] theorem rename_missing : missing.rename ρ = .missing := rfl

@[simp] theorem rename_var (x : String) : (var x).rename ρ = .var (ρ x) := rfl

@[simp] theorem rename_con (name : String) : (con name).rename ρ = .con name := rfl

@[simp] theorem rename_list (elem : Ty) : (list elem).rename ρ = .list (elem.rename ρ) := rfl

@[simp] theorem rename_dict (key value : Ty) :
    (dict key value).rename ρ = .dict (key.rename ρ) (value.rename ρ) := rfl

@[simp] theorem rename_fn (params : List Ty) (result : Ty) (variadic : Bool) :
    (fn params result variadic).rename ρ =
      .fn (params.map (rename ρ)) (result.rename ρ) variadic := by
  rw [rename, bind, bindAll_eq_map]
  rfl

/-- A type whose variables keep their names stays as it is. -/
theorem rename_eq_self {t : Ty} (h : ∀ x ∈ t.occurrences, ρ x = x) : t.rename ρ = t := by
  have hvar : t.bind (fun x => .var (ρ x)) = t.bind .var := bind_congr fun x hx => by rw [h x hx]
  exact hvar.trans (bind_var t)

theorem rename_rename (ρ' : String → String) (t : Ty) :
    (t.rename ρ).rename ρ' = t.rename (ρ' ∘ ρ) := bind_bind _ _ t

theorem rename_ne_var {t : Ty} (h : ∀ x, t ≠ .var x) (x : String) : t.rename ρ ≠ .var x := by
  cases t with
  | var name => exact absurd rfl (h name)
  | fn params result variadic => simp
  | _ => simp

@[simp] theorem size_rename (t : Ty) : (t.rename ρ).size = t.size := by
  induction t with
  | missing | var | con => rfl
  | list elem ih => simp only [rename_list, size, ih]
  | dict key value ihk ihv => simp only [rename_dict, size, ihk, ihv]
  | fn params result variadic ihp ihr =>
    have hparams : (params.map (rename ρ)).map size = params.map size := by
      rw [List.map_map]
      exact List.map_congr_left ihp
    simp only [rename_fn, size, sizeAll_eq_sum, hparams, ihr]

theorem Whole.rename {t : Ty} (h : t.Whole) : (t.rename ρ).Whole := by
  induction t with
  | missing => exact h
  | var x => simp [Whole, same]
  | con name => exact h
  | list elem ih => exact whole_list.mpr (ih (whole_list.mp h))
  | dict key value ihk ihv =>
    have hkv := whole_dict.mp h
    exact whole_dict.mpr ⟨ihk hkv.1, ihv hkv.2⟩
  | fn params result variadic ihp ihr =>
    have hpr := whole_fn.mp h
    rw [rename_fn, whole_fn]
    refine ⟨fun q hq => ?_, ihr hpr.2⟩
    obtain ⟨p, hp, rfl⟩ := List.mem_map.mp hq
    exact ihp p hp (hpr.1 p hp)

/-- Types that are the same stay the same under new names. -/
theorem same_rename {a b : Ty} (h : a.same b = true) :
    (a.rename ρ).same (b.rename ρ) = true := by
  have heq := eq_of_same h
  subst heq
  exact Whole.rename h

end Ty

/-! ## Bindings -/

namespace Subst

variable {ρ : String → String}

@[simp] theorem rename_empty : rename ρ ∅ = ∅ := rfl

@[simp] theorem size_rename (s : Subst) : (s.rename ρ).size = s.size := by
  simp [rename, Table.size]

theorem get?_rename (hρ : ρ.Injective) (s : Subst) (x : String) :
    (s.rename ρ).get? (ρ x) = (s.get? x).map (Ty.rename ρ) := by
  rcases s with ⟨entries⟩
  simp only [rename, Table.get?]
  induction entries with
  | nil => rfl
  | cons e rest ih =>
    simp only [List.map_cons, Table.lookup, hρ.eq_iff]
    split
    · rfl
    · exact ih

theorem rename_insert (hρ : ρ.Injective) (s : Subst) (x : String) (t : Ty) :
    rename ρ (s.insert x t) = (s.rename ρ).insert (ρ x) (t.rename ρ) := by
  rcases s with ⟨entries⟩
  simp only [rename, Table.insert, Table.mk.injEq]
  induction entries with
  | nil => rfl
  | cons e rest ih =>
    simp only [Table.write, List.map_cons, hρ.eq_iff]
    split
    · rfl
    · rw [List.map_cons, ih]

theorem rename_erase (hρ : ρ.Injective) (s : Subst) (x : String) :
    rename ρ (s.erase x) = (s.rename ρ).erase (ρ x) := by
  rcases s with ⟨entries⟩
  simp only [rename, Table.erase, Table.mk.injEq, List.filter_map]
  congr 2
  funext e
  simp [hρ.eq_iff]

theorem substSize_rename (s : Subst) : Ty.substSize (s.rename ρ) = Ty.substSize s := by
  rw [Ty.substSize_eq_sum, Ty.substSize_eq_sum, rename, List.map_map]
  congr 1
  exact List.map_congr_left fun e _ => Ty.size_rename e.2

end Subst

namespace Ty

variable {ρ : String → String}

theorem resolve_rename (hρ : ρ.Injective) (depth : Nat) (s : Subst) (x : String) :
    resolve depth (s.rename ρ) (ρ x) = (resolve depth s x).rename ρ := by
  induction depth generalizing s x with
  | zero => rfl
  | succ depth ih =>
    have hget := Subst.get?_rename hρ s x
    cases hx : s.get? x with
    | none =>
      rw [hx] at hget
      simp only [Option.map_none] at hget
      rw [resolve, resolve, hget, hx]
      rfl
    | some t =>
      rw [hx, Option.map_some] at hget
      by_cases hvar : ∃ y, t = .var y
      · obtain ⟨y, rfl⟩ := hvar
        rw [rename_var] at hget
        rw [resolve, resolve, hget, hx]
        dsimp only
        by_cases hy : y = x
        · rw [if_pos hy, if_pos (congrArg ρ hy), rename_var]
        · rw [if_neg hy, if_neg fun h => hy (hρ h), ← Subst.rename_erase hρ, ih]
      · have hne : ∀ y, t ≠ .var y := fun y hy => hvar ⟨y, hy⟩
        rw [resolve_of_ne_var hx hne, resolve_of_ne_var hget (rename_ne_var hne), rename, rename,
          bind_bind, bind_bind]
        refine bind_congr fun y _ => ?_
        rw [bind, ← Subst.rename_erase hρ, ih]
        rfl

/-- Applying bindings gives the same type under new names. -/
theorem apply_rename (hρ : ρ.Injective) (s : Subst) (t : Ty) :
    (t.rename ρ).apply (s.rename ρ) = (t.apply s).rename ρ := by
  rw [apply, apply, Subst.size_rename, rename, rename, bind_bind, bind_bind]
  refine bind_congr fun x _ => ?_
  rw [bind, resolve_rename hρ]
  rfl

/-! ## Matching -/

/-- What a match gives under new names. -/
def renameAnswer (ρ : String → String) (r : Option (Bool × Subst)) : Option (Bool × Subst) :=
  r.map fun a => (a.1, a.2.rename ρ)

/-- Matching by `rec` gives the same answer under new names. -/
def Renameable (ρ : String → String) (rec : Ty → Ty → Subst → Option (Bool × Subst)) : Prop :=
  ∀ p c s, rec (p.rename ρ) (c.rename ρ) (s.rename ρ) = renameAnswer ρ (rec p c s)

theorem matchAll_rename {rec : Ty → Ty → Subst → Option (Bool × Subst)} (hrec : Renameable ρ rec)
    (ps cs : List Ty) (s : Subst) :
    matchAll rec (ps.map (rename ρ)) (cs.map (rename ρ)) (s.rename ρ) =
      renameAnswer ρ (matchAll rec ps cs s) := by
  induction ps generalizing cs s with
  | nil => cases cs <;> rfl
  | cons p ps ih =>
    cases cs with
    | nil => rfl
    | cons c cs =>
      rw [List.map_cons, List.map_cons, matchAll, matchAll, hrec]
      cases rec p c s with
      | none => rfl
      | some r =>
        obtain ⟨matched, s'⟩ := r
        cases matched with
        | true => exact ih cs s'
        | false => rfl

theorem matchParts_rename {rec : Ty → Ty → Subst → Option (Bool × Subst)}
    (hrec : Renameable ρ rec) : Renameable ρ (matchParts rec) := by
  intro p c s
  cases p with
  | missing | var | con => cases c <;> simp [matchParts, renameAnswer]
  | list a =>
    cases c with
    | list b => exact hrec a b s
    | _ => simp [matchParts, renameAnswer]
  | dict a b =>
    cases c with
    | dict a' b' => exact matchAll_rename hrec [a, b] [a', b'] s
    | _ => simp [matchParts, renameAnswer]
  | fn ps r v =>
    cases c with
    | fn qs t w =>
      have hall := matchAll_rename hrec (ps ++ [r]) (qs ++ [t]) s
      rw [List.map_append, List.map_append] at hall
      simp only [rename_fn, matchParts, List.length_map]
      split
      · rfl
      · exact hall
    | _ => simp [matchParts, renameAnswer]

theorem matchWithin_rename (hρ : ρ.Injective) (depth : Nat) :
    Renameable ρ (matchWithin depth) := by
  induction depth with
  | zero => exact fun _ _ _ => rfl
  | succ depth ih =>
    intro p c s
    by_cases hpvar : ∃ a, p = .var a
    · obtain ⟨a, rfl⟩ := hpvar
      have hget := Subst.get?_rename hρ s a
      cases ha : s.get? a with
      | some bound =>
        rw [ha] at hget
        rw [rename_var, matchWithin_bound hget, matchWithin_bound ha]
        exact ih bound c s
      | none =>
        rw [ha] at hget
        by_cases hcvar : ∃ b, c = .var b
        · obtain ⟨b, rfl⟩ := hcvar
          simp only [rename_var, matchWithin, ha, hget, Option.map_none, renameAnswer,
            Option.map_some, hρ.eq_iff]
          split
          · rfl
          · rw [Subst.rename_insert hρ, rename_var]
        · have hne : ∀ x, c ≠ .var x := fun x hx => hcvar ⟨x, hx⟩
          rw [rename_var, matchWithin_unbound hget (rename_ne_var hne),
            matchWithin_unbound ha hne, renameAnswer, Option.map_some, Subst.rename_insert hρ]
    · have hpne : ∀ x, p ≠ .var x := fun x hx => hpvar ⟨x, hx⟩
      by_cases hcvar : ∃ b, c = .var b
      · obtain ⟨b, rfl⟩ := hcvar
        rw [rename_var, matchWithin_swap (rename_ne_var hpne), matchWithin_swap hpne]
        exact ih (.var b) p s
      · have hcne : ∀ x, c ≠ .var x := fun x hx => hcvar ⟨x, hx⟩
        rw [matchWithin_parts (rename_ne_var hpne) (rename_ne_var hcne),
          matchWithin_parts hpne hcne]
        exact matchParts_rename ih p c s

/-- Matching gives the same answer under new names, in as many steps. -/
theorem matchTypes?_rename (hρ : ρ.Injective) (p c : Ty) (s : Subst) :
    matchTypes? (p.rename ρ) (c.rename ρ) (s.rename ρ) =
      renameAnswer ρ (matchTypes? p c s) := by
  have hdepth : matchDepth (p.rename ρ) (c.rename ρ) (s.rename ρ) = matchDepth p c s := by
    simp only [matchDepth, size_rename, Subst.substSize_rename]
  rw [matchTypes?, hdepth]
  exact matchWithin_rename hρ _ p c s

end Ty

end TreeLang
