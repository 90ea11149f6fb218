import TreeLang.Ty.Subst

/-!
# Types as terms

Induction on types, what structural equality decides, and how replacing variables composes. A type
is ground when no variable occurs in it; replacing variables leaves a ground type alone.
-/

namespace TreeLang.Ty

/-- Induction on types; the parameters of a function type come as the members of their list. -/
@[elab_as_elim, induction_eliminator]
theorem induction {motive : Ty → Prop} (missing : motive .missing)
    (var : ∀ name, motive (.var name)) (con : ∀ name, motive (.con name))
    (list : ∀ elem, motive elem → motive (.list elem))
    (dict : ∀ key value, motive key → motive value → motive (.dict key value))
    (fn : ∀ params result variadic, (∀ p ∈ params, motive p) → motive result →
      motive (.fn params result variadic)) (t : Ty) : motive t :=
  @Ty.rec motive (fun ps => ∀ p ∈ ps, motive p) missing var con list dict fn
    (fun _ h => absurd h List.not_mem_nil)
    (fun _ _ hp hps _ h => by
      rcases List.mem_cons.mp h with rfl | h
      · exact hp
      · exact hps _ h) t

/-! ## The twin functions on lists -/

section Lists

-- Proofs about types unfold these in every case, so their equations are made here, at once.
attribute [local simp] bind bindAll occurrences occurrencesAll same sameAll

theorem bindAll_eq_map (f : String → Ty) (ts : List Ty) : bindAll f ts = ts.map (·.bind f) := by
  induction ts with
  | nil => rfl
  | cons t ts ih => simp [ih]

theorem occurrencesAll_eq_flatMap (ts : List Ty) :
    occurrencesAll ts = ts.flatMap occurrences := by
  induction ts with
  | nil => rfl
  | cons t ts ih => simp [ih]

end Lists

/-! ## Structural equality -/

theorem sameAll_sound {as bs : List Ty} (hsame : ∀ a ∈ as, ∀ b, a.same b = true → a = b)
    (h : sameAll as bs = true) : as = bs := by
  induction as generalizing bs with
  | nil => cases bs <;> simp_all [sameAll]
  | cons a as ih =>
    cases bs with
    | nil => simp [sameAll] at h
    | cons b bs =>
      simp only [sameAll, Bool.and_eq_true] at h
      have hab : a = b := hsame a (by simp) b h.1
      have hrest : as = bs := ih (fun x hx => hsame x (by simp [hx])) h.2
      rw [hab, hrest]

/-- Types that are structurally equal are equal. The converse fails: a missing type is the same as
no type. -/
theorem eq_of_same {a b : Ty} (h : a.same b = true) : a = b := by
  induction a generalizing b with
  | missing => cases b <;> simp [same] at h
  | var name => cases b <;> simp_all [same]
  | con name => cases b <;> simp_all [same]
  | list elem ih =>
    cases b <;> simp [same] at h
    rw [ih h]
  | dict key value ihk ihv =>
    cases b <;> simp [same] at h
    rw [ihk h.1, ihv h.2]
  | fn params result variadic ihp ihr =>
    cases b <;> simp [same] at h
    have hps := sameAll_sound (fun p hp b hb => ihp p hp hb) h.1.2
    rw [h.1.1, hps, ihr h.2]

/-! ## Replacing variables -/

theorem bind_congr {f g : String → Ty} {t : Ty} (h : ∀ x ∈ t.occurrences, f x = g x) :
    t.bind f = t.bind g := by
  induction t with
  | missing => rfl
  | con name => rfl
  | var name => exact h name (by simp [occurrences])
  | list elem ih => simp only [bind, ih h]
  | dict key value ihk ihv =>
    simp only [occurrences, List.mem_append] at h
    simp only [bind, ihk fun x hx => h x (Or.inl hx), ihv fun x hx => h x (Or.inr hx)]
  | fn params result variadic ihp ihr =>
    simp only [occurrences, occurrencesAll_eq_flatMap, List.mem_append, List.mem_flatMap] at h
    have hps : params.map (·.bind f) = params.map (·.bind g) :=
      List.map_congr_left fun p hp => ihp p hp fun x hx => h x (Or.inl ⟨p, hp, hx⟩)
    simp only [bind, bindAll_eq_map, hps, ihr fun x hx => h x (Or.inr hx)]

/-- Where the type reads the same, its variables stand for the same types. -/
theorem eq_of_bind_eq {f g : String → Ty} {t : Ty} (h : t.bind f = t.bind g) :
    ∀ x ∈ t.occurrences, f x = g x := by
  induction t with
  | missing => simp [occurrences]
  | con name => simp [occurrences]
  | var name => simpa [occurrences, bind] using h
  | list elem ih => exact ih (list.inj h)
  | dict key value ihk ihv =>
    intro x hx
    rcases List.mem_append.mp hx with hx | hx
    · exact ihk (dict.inj h).1 x hx
    · exact ihv (dict.inj h).2 x hx
  | fn params result variadic ihp ihr =>
    intro x hx
    simp only [bind, bindAll_eq_map, fn.injEq] at h
    simp only [occurrences, occurrencesAll_eq_flatMap, List.mem_append, List.mem_flatMap] at hx
    rcases hx with ⟨p, hp, hx⟩ | hx
    · exact ihp p hp (List.map_inj_left.mp h.1 p hp) x hx
    · exact ihr h.2.1 x hx

theorem bind_var (t : Ty) : t.bind .var = t := by
  induction t with
  | missing => rfl
  | con name => rfl
  | var name => rfl
  | list elem ih => simp only [bind, ih]
  | dict key value ihk ihv => simp only [bind, ihk, ihv]
  | fn params result variadic ihp ihr =>
    have hps : params.map (·.bind .var) = params := by
      conv => rhs; rw [← List.map_id params]
      exact List.map_congr_left ihp
    simp only [bind, bindAll_eq_map, hps, ihr]

theorem bind_bind (f g : String → Ty) (t : Ty) :
    (t.bind f).bind g = t.bind fun x => (f x).bind g := by
  induction t with
  | missing => rfl
  | con name => rfl
  | var name => rfl
  | list elem ih => simp only [bind, ih]
  | dict key value ihk ihv => simp only [bind, ihk, ihv]
  | fn params result variadic ihp ihr =>
    simp only [bind, bindAll_eq_map, List.map_map, ihr]
    congr 1
    exact List.map_congr_left ihp

theorem mem_occurrences_bind {f : String → Ty} {t : Ty} {x : String} :
    x ∈ (t.bind f).occurrences ↔ ∃ y ∈ t.occurrences, x ∈ (f y).occurrences := by
  induction t with
  | missing => simp [bind, occurrences]
  | con name => simp [bind, occurrences]
  | var name => simp [bind, occurrences]
  | list elem ih => simp only [bind, occurrences, ih]
  | dict key value ihk ihv =>
    simp only [bind, occurrences, List.mem_append, ihk, ihv]
    constructor
    · rintro (⟨y, hy, hx⟩ | ⟨y, hy, hx⟩)
      · exact ⟨y, Or.inl hy, hx⟩
      · exact ⟨y, Or.inr hy, hx⟩
    · rintro ⟨y, hy | hy, hx⟩
      · exact Or.inl ⟨y, hy, hx⟩
      · exact Or.inr ⟨y, hy, hx⟩
  | fn params result variadic ihp ihr =>
    simp only [bind, bindAll_eq_map, occurrences, occurrencesAll_eq_flatMap, List.mem_append,
      List.mem_flatMap, List.mem_map, ihr]
    constructor
    · rintro (⟨_, ⟨p, hp, rfl⟩, hx⟩ | ⟨y, hy, hx⟩)
      · rcases (ihp p hp).mp hx with ⟨y, hy, hxy⟩
        exact ⟨y, Or.inl ⟨p, hp, hy⟩, hxy⟩
      · exact ⟨y, Or.inr hy, hx⟩
    · rintro ⟨y, ⟨p, hp, hy⟩ | hy, hx⟩
      · exact Or.inl ⟨_, ⟨p, hp, rfl⟩, (ihp p hp).mpr ⟨y, hy, hx⟩⟩
      · exact Or.inr ⟨y, hy, hx⟩

/-! ## Ground types -/

/-- No variable occurs in the type. -/
def Ground (t : Ty) : Prop := t.occurrences = []

instance (t : Ty) : Decidable t.Ground := inferInstanceAs (Decidable (_ = _))

@[simp] theorem ground_con (name : String) : (con name).Ground := rfl

@[simp] theorem ground_missing : missing.Ground := rfl

@[simp] theorem not_ground_var (name : String) : ¬ (var name).Ground := by
  simp [Ground, occurrences]

@[simp] theorem ground_list {elem : Ty} : (list elem).Ground ↔ elem.Ground := Iff.rfl

@[simp] theorem ground_dict {key value : Ty} :
    (dict key value).Ground ↔ key.Ground ∧ value.Ground := by
  simp [Ground, occurrences]

@[simp] theorem ground_fn {params : List Ty} {result : Ty} {variadic : Bool} :
    (fn params result variadic).Ground ↔ (∀ p ∈ params, p.Ground) ∧ result.Ground := by
  simp [Ground, occurrences, occurrencesAll_eq_flatMap, List.flatMap_eq_nil_iff]

/-- Replacing variables leaves a ground type alone. -/
theorem Ground.bind_eq {t : Ty} (h : t.Ground) (f : String → Ty) : t.bind f = t := by
  rw [← bind_var t, bind_bind]
  apply bind_congr
  intro x hx
  rw [h] at hx
  exact absurd hx List.not_mem_nil

theorem ground_bind {f : String → Ty} {t : Ty} (h : ∀ x ∈ t.occurrences, (f x).Ground) :
    (t.bind f).Ground := by
  apply List.eq_nil_iff_forall_not_mem.mpr
  intro x hx
  rcases mem_occurrences_bind.mp hx with ⟨y, hy, hxy⟩
  rw [h y hy] at hxy
  exact absurd hxy List.not_mem_nil

/-! ## Types that are the same as themselves -/

/-- No part of the type is missing, so the type is the same as itself. -/
def Whole (t : Ty) : Prop := t.same t = true

instance (t : Ty) : Decidable t.Whole := inferInstanceAs (Decidable (_ = _))

theorem sameAll_self_iff {ts : List Ty} : sameAll ts ts = true ↔ ∀ t ∈ ts, t.Whole := by
  induction ts with
  | nil => simp [sameAll]
  | cons t ts ih => simp [sameAll, ih, Whole]

@[simp] theorem whole_list {elem : Ty} : (list elem).Whole ↔ elem.Whole := by
  simp [Whole, same]

@[simp] theorem whole_dict {key value : Ty} : (dict key value).Whole ↔ key.Whole ∧ value.Whole := by
  simp [Whole, same]

@[simp] theorem whole_fn {params : List Ty} {result : Ty} {variadic : Bool} :
    (fn params result variadic).Whole ↔ (∀ p ∈ params, p.Whole) ∧ result.Whole := by
  simp [Whole, same, sameAll_self_iff]

@[simp] theorem not_whole_missing : ¬ missing.Whole := by
  simp [Whole, same]

/-- The types that may stand in the place of constants. -/
structure Concrete (t : Ty) : Prop where
  ground : t.Ground
  whole : t.Whole

instance (t : Ty) : Decidable t.Concrete :=
  decidable_of_iff (t.Ground ∧ t.Whole) ⟨fun h => ⟨h.1, h.2⟩, fun h => ⟨h.ground, h.whole⟩⟩

theorem concrete_con (name : String) : (con name).Concrete := ⟨rfl, by simp [Whole, same]⟩

end TreeLang.Ty
