import Mathlib.Logic.Basic
import TreeLang.Proofs.Ty.Structure
import TreeLang.Proofs.Value.Structure

/-!
# The type that a value shows

A collection shows the type of its first entry, whatever the other ones are. `v.Shows t` says that a
value has a type at every depth. So a value has the type that it shows exactly if it is uniform:
what comes after the first entry of a collection has the type that the first entry shows. A value
may have other types as well, since an empty collection leaves its type open; but all of them are
instances of the type that it shows.

Main statements: `shows_runtimeType_iff` and `exists_bind_of_shows`.
-/

namespace TreeLang.Value

mutual

/-- The value has the type at every depth: every element of a list and every key and value of a
dictionary has its part of the type, and everything else has the type that it shows. -/
def Shows : Value → Ty → Prop
  | .list elems _, t => ∃ a, t = .list a ∧ ShowAll elems a
  | .dict entries _, t => ∃ k v, t = .dict k v ∧ ShowEntries entries k v
  | .number _ _, t => t = .number
  | .text _ _, t => t = .text
  | .bool _ _, t => t = .boolean
  | .nil, t => t = .void
  | .function f, t => t = (Value.function f).runtimeType
  | .builtin b, t => t = (Value.builtin b).runtimeType

/-- All values have the type. -/
def ShowAll : List Value → Ty → Prop
  | [], _ => True
  | v :: vs, t => v.Shows t ∧ ShowAll vs t

/-- All keys have the first type and all values the second one. -/
def ShowEntries : List (Key × Value) → Ty → Ty → Prop
  | [], _, _ => True
  | (k, v) :: es, kt, vt => (keyType k = kt ∧ v.Shows vt) ∧ ShowEntries es kt vt

end

/-- In every collection that is reached by way of first entries, the other entries have the type
that the first one shows. -/
inductive Uniform : Value → Prop
  | number {x : Float} {i : Identity} : Uniform (.number x i)
  | text {s : String} {i : Identity} : Uniform (.text s i)
  | bool {b : Bool} {i : Identity} : Uniform (.bool b i)
  | nil : Uniform .nil
  | emptyList {i : Identity} : Uniform (.list [] i)
  | list {v : Value} {vs : List Value} {i : Identity} : Uniform v →
      (∀ w ∈ vs, w.Shows v.runtimeType) → Uniform (.list (v :: vs) i)
  | emptyDict {i : Identity} : Uniform (.dict [] i)
  | dict {k : Key} {v : Value} {es : List (Key × Value)} {i : Identity} : Uniform v →
      (∀ e ∈ es, keyType e.1 = keyType k ∧ e.2.Shows v.runtimeType) →
      Uniform (.dict ((k, v) :: es) i)
  | function {f : UserFunction} : Uniform (.function f)
  | builtin {b : Builtin} : Uniform (.builtin b)

/-! ## Collections -/

section Lists

attribute [local simp] Shows ShowAll ShowEntries

theorem showAll_iff {vs : List Value} {t : Ty} : ShowAll vs t ↔ ∀ v ∈ vs, v.Shows t := by
  induction vs with
  | nil => simp
  | cons v vs ih => simp [ih]

theorem showEntries_iff {es : List (Key × Value)} {k v : Ty} :
    ShowEntries es k v ↔ ∀ e ∈ es, keyType e.1 = k ∧ e.2.Shows v := by
  induction es with
  | nil => simp
  | cons e es ih => simp [ih]

theorem shows_list {elems : List Value} {i : Identity} {t : Ty} :
    (list elems i).Shows t ↔ ∃ a, t = .list a ∧ ∀ v ∈ elems, v.Shows a := by
  simp only [Shows, showAll_iff]

theorem shows_dict {entries : List (Key × Value)} {i : Identity} {t : Ty} :
    (dict entries i).Shows t ↔
      ∃ k v, t = .dict k v ∧ ∀ e ∈ entries, keyType e.1 = k ∧ e.2.Shows v := by
  simp only [Shows, showEntries_iff]

theorem shows_key {k : Key} {t : Ty} : k.value.Shows t ↔ keyType k = t := by
  cases k <;> simp [Key.value, keyType, eq_comm]

end Lists

/-! ## The type that is shown -/

theorem uniform_list_cons {v : Value} {vs : List Value} {i : Identity} :
    (list (v :: vs) i).Uniform ↔ v.Uniform ∧ ∀ w ∈ vs, w.Shows v.runtimeType := by
  constructor
  · intro h
    cases h with
    | list hv hvs => exact ⟨hv, hvs⟩
  · rintro ⟨hv, hvs⟩
    exact .list hv hvs

theorem uniform_dict_cons {k : Key} {v : Value} {es : List (Key × Value)} {i : Identity} :
    (dict ((k, v) :: es) i).Uniform ↔
      v.Uniform ∧ ∀ e ∈ es, keyType e.1 = keyType k ∧ e.2.Shows v.runtimeType := by
  constructor
  · intro h
    cases h with
    | dict hv hes => exact ⟨hv, hes⟩
  · rintro ⟨hv, hes⟩
    exact .dict hv hes

attribute [local simp] runtimeType in
/-- A value has the type that it shows exactly if it is uniform. -/
theorem shows_runtimeType_iff {v : Value} : v.Shows v.runtimeType ↔ v.Uniform := by
  induction v with
  | number x i => simp [Shows, Uniform.number]
  | text s i => simp [Shows, Uniform.text]
  | bool b i => simp [Shows, Uniform.bool]
  | nil => simp [Shows, Uniform.nil]
  | list elems i ih =>
    cases elems with
    | nil => simp [shows_list, Uniform.emptyList]
    | cons v vs =>
      rw [uniform_list_cons, ← ih v (by simp), runtimeType, shows_list]
      simp
  | dict entries i ih =>
    cases entries with
    | nil => simp [shows_dict, Uniform.emptyDict]
    | cons e es =>
      rcases e with ⟨k, v⟩
      rw [uniform_dict_cons, ← ih (k, v) (by simp), runtimeType, shows_dict]
      simp only [List.forall_mem_cons]
      constructor
      · rintro ⟨_, _, h, ⟨-, hv⟩, hes⟩
        cases h
        exact ⟨hv, hes⟩
      · rintro ⟨hv, hes⟩
        exact ⟨_, _, rfl, ⟨rfl, hv⟩, hes⟩
  | function f => simp [Shows, Uniform.function]
  | builtin b => simp [Shows, Uniform.builtin]

/-- Every type that a value has is an instance of the one that it shows. -/
theorem exists_bind_of_shows {v : Value} {t : Ty} (h : v.Shows t) :
    ∃ σ : String → Ty, t = v.runtimeType.bind σ := by
  induction v generalizing t with
  | list elems i ih =>
    obtain ⟨a, rfl, hall⟩ := shows_list.mp h
    cases elems with
    | nil => exact ⟨fun _ => a, rfl⟩
    | cons v vs =>
      obtain ⟨σ, rfl⟩ := ih v (by simp) (hall v (by simp))
      exact ⟨σ, by rw [runtimeType, Ty.bind]⟩
  | dict entries i ih =>
    obtain ⟨a, b, rfl, hall⟩ := shows_dict.mp h
    cases entries with
    | nil => exact ⟨fun name => if name = "K" then a else b, by simp [runtimeType, Ty.bind]⟩
    | cons e es =>
      rcases e with ⟨k, v⟩
      obtain ⟨hkey, hv⟩ := hall (k, v) (by simp)
      obtain ⟨σ, rfl⟩ := ih (k, v) (by simp) hv
      have hclosed : (keyType k).bind σ = keyType k := by cases k <;> rfl
      exact ⟨σ, by rw [runtimeType, Ty.bind, hclosed, ← hkey]⟩
  | _ =>
    -- Nothing else leaves a part of its type open.
    refine ⟨.var, ?_⟩
    rw [Ty.bind_var]
    simpa [Shows, runtimeType] using h

/-! ## Numbering -/

/-- A value shows the same type whatever its objects are numbered. -/
theorem runtimeType_numberFrom (v : Value) (n : Nat) :
    (v.numberFrom n).1.runtimeType = v.runtimeType := by
  induction v generalizing n with
  | list elems i ih =>
    cases i with
    | fresh =>
      cases elems with
      | nil => rfl
      | cons v vs => exact congrArg Ty.list (ih v (by simp) _)
    | shared => rfl
    | made m => rfl
  | dict entries i ih =>
    cases i with
    | fresh =>
      cases entries with
      | nil => rfl
      | cons e es => exact congrArg₂ Ty.dict (keyType_numberFrom ..) (ih e (by simp) _)
    | shared => rfl
    | made m => rfl
  | number x i => cases i <;> rfl
  | text s i => cases i <;> rfl
  | bool b i => cases i <;> rfl
  | nil => rfl
  | function f => rfl
  | builtin b => rfl

theorem Shows.numberFrom {v : Value} {t : Ty} (h : v.Shows t) (n : Nat) :
    (v.numberFrom n).1.Shows t := by
  induction v generalizing t n with
  | list elems i ih =>
    cases i with
    | fresh =>
      obtain ⟨a, rfl, hall⟩ := shows_list.mp h
      refine shows_list.mpr ⟨a, rfl, fun w hw => ?_⟩
      obtain ⟨v, hv, k, rfl⟩ := mem_numberAllFrom hw
      exact ih v hv (hall v hv) k
    | shared => exact h
    | made m => exact h
  | dict entries i ih =>
    cases i with
    | fresh =>
      obtain ⟨a, b, rfl, hall⟩ := shows_dict.mp h
      refine shows_dict.mpr ⟨a, b, rfl, fun e he => ?_⟩
      obtain ⟨e₀, he₀, j, k, rfl⟩ := mem_numberEntriesFrom he
      obtain ⟨hkey, hvalue⟩ := hall e₀ he₀
      exact ⟨by rw [keyType_numberFrom, hkey], ih e₀ he₀ hvalue k⟩
    | shared => exact h
    | made m => exact h
  | number x i => cases i <;> exact h
  | text s i => cases i <;> exact h
  | bool b i => cases i <;> exact h
  | nil => exact h
  | function f => exact h
  | builtin b => exact h

end TreeLang.Value
