import TreeLang.Proofs.Value.Structure
import TreeLang.Proofs.Ty.Structure

/-!
# Values of a type

`v.Inhabits t` says that a value has a type at every depth: every element of a list and every key
and value of a dictionary has its part of the type, and a function has exactly its declared type.
`Fits` says in addition that all functions inside the value are known ones, so that a proof about a
run can go on with their bodies.
-/

namespace TreeLang

namespace Value

mutual

/-- The value has the type at every depth, and all functions inside it are known. -/
def Fits (known : Value → Prop) : Value → Ty → Prop
  | .number _ _, t => t = .number
  | .text _ _, t => t = .text
  | .bool _ _, t => t = .boolean
  | .nil, t => t = .void
  | .list elems _, t => ∃ a, t = .list a ∧ FitAll known elems a
  | .dict entries _, t => ∃ k v, t = .dict k v ∧ FitEntries known entries k v
  | .function f, t => known (.function f) ∧ t = f.definition.signature.toTy
  | .builtin b, t => known (.builtin b) ∧ t = b.type.toTy

/-- All values have the type. -/
def FitAll (known : Value → Prop) : List Value → Ty → Prop
  | [], _ => True
  | v :: vs, t => v.Fits known t ∧ FitAll known vs t

/-- All keys have the first type and all values the second one. -/
def FitEntries (known : Value → Prop) : List (Key × Value) → Ty → Ty → Prop
  | [], _, _ => True
  | (k, v) :: es, kt, vt => (keyType k = kt ∧ v.Fits known vt) ∧ FitEntries known es kt vt

end

/-- The value has the type at every depth. -/
def Inhabits (v : Value) (t : Ty) : Prop := v.Fits (fun _ => True) t

variable {known : Value → Prop}

section Lists

attribute [local simp] Fits FitAll FitEntries

theorem fitAll_iff {vs : List Value} {t : Ty} :
    FitAll known vs t ↔ ∀ v ∈ vs, v.Fits known t := by
  induction vs with
  | nil => simp
  | cons v vs ih => simp [ih]

theorem fitEntries_iff {es : List (Key × Value)} {k v : Ty} :
    FitEntries known es k v ↔ ∀ e ∈ es, keyType e.1 = k ∧ e.2.Fits known v := by
  induction es with
  | nil => simp
  | cons e es ih => simp [ih]

theorem fits_list {elems : List Value} {id : Identity} {t : Ty} :
    (list elems id).Fits known t ↔ ∃ a, t = .list a ∧ ∀ v ∈ elems, v.Fits known a := by
  simp only [Fits, fitAll_iff]

theorem fits_dict {entries : List (Key × Value)} {id : Identity} {t : Ty} :
    (dict entries id).Fits known t ↔
      ∃ k v, t = .dict k v ∧ ∀ e ∈ entries, keyType e.1 = k ∧ e.2.Fits known v := by
  simp only [Fits, fitEntries_iff]

end Lists

/-- Every value that fits inhabits its type. -/
theorem Fits.mono {known' : Value → Prop} (hknown : ∀ v, known v → known' v) {v : Value} {t : Ty}
    (h : v.Fits known t) : v.Fits known' t := by
  induction v generalizing t with
  | number x id => exact h
  | text s id => exact h
  | bool b id => exact h
  | nil => exact h
  | list elems id ih =>
    rcases fits_list.mp h with ⟨a, rfl, hall⟩
    exact fits_list.mpr ⟨a, rfl, fun v hv => ih v hv (hall v hv)⟩
  | dict entries id ih =>
    rcases fits_dict.mp h with ⟨k, v, rfl, hall⟩
    exact fits_dict.mpr ⟨k, v, rfl, fun e he => ⟨(hall e he).1, ih e he (hall e he).2⟩⟩
  | function f => exact ⟨hknown _ h.1, h.2⟩
  | builtin b => exact ⟨hknown _ h.1, h.2⟩

/-- A value has its type whatever its objects are numbered. -/
theorem Fits.numberFrom {v : Value} {t : Ty} (h : v.Fits known t) (n : Nat) :
    (v.numberFrom n).1.Fits known t := by
  induction v generalizing t n with
  | number x id => cases id <;> exact h
  | text s id => cases id <;> exact h
  | bool b id => cases id <;> exact h
  | nil => exact h
  | list elems id ih =>
    cases id with
    | fresh =>
      rcases fits_list.mp h with ⟨a, rfl, hall⟩
      refine fits_list.mpr ⟨a, rfl, fun w hw => ?_⟩
      rcases mem_numberAllFrom hw with ⟨v, hv, k, rfl⟩
      exact ih v hv (hall v hv) k
    | shared => exact h
    | made m => exact h
  | dict entries id ih =>
    cases id with
    | fresh =>
      rcases fits_dict.mp h with ⟨k, v, rfl, hall⟩
      refine fits_dict.mpr ⟨k, v, rfl, fun e he => ?_⟩
      rcases mem_numberEntriesFrom he with ⟨e₀, he₀, i, j, rfl⟩
      exact ⟨by simpa using (hall e₀ he₀).1, ih e₀ he₀ (hall e₀ he₀).2 j⟩
    | shared => exact h
    | made m => exact h
  | function f => exact h
  | builtin b => exact h

/-! ## Values of a given type -/

theorem fits_number_iff {v : Value} : v.Fits known .number ↔ ∃ x id, v = .number x id := by
  cases v <;> simp [Fits, Ty.number, Ty.text, Ty.boolean, Ty.void, FnType.toTy]

theorem fits_text_iff {v : Value} : v.Fits known .text ↔ ∃ s id, v = .text s id := by
  cases v <;> simp [Fits, Ty.number, Ty.text, Ty.boolean, Ty.void, FnType.toTy]

theorem fits_boolean_iff {v : Value} : v.Fits known .boolean ↔ ∃ b id, v = .bool b id := by
  cases v <;> simp [Fits, Ty.number, Ty.text, Ty.boolean, Ty.void, FnType.toTy]

theorem fits_list_iff {v : Value} {a : Ty} :
    v.Fits known (.list a) ↔ ∃ elems id, v = .list elems id ∧ ∀ w ∈ elems, w.Fits known a := by
  cases v with
  | list elems id => simp [fits_list]
  | _ => simp [Fits, Ty.number, Ty.text, Ty.boolean, Ty.void, FnType.toTy]

theorem fits_dict_iff {v : Value} {a b : Ty} :
    v.Fits known (.dict a b) ↔ ∃ entries id, v = .dict entries id ∧
      ∀ e ∈ entries, keyType e.1 = a ∧ e.2.Fits known b := by
  cases v with
  | dict entries id =>
    simp only [fits_dict, Ty.dict.injEq, dict.injEq]
    constructor
    · rintro ⟨k, v, ⟨rfl, rfl⟩, h⟩
      exact ⟨entries, id, ⟨rfl, rfl⟩, h⟩
    · rintro ⟨_, _, ⟨rfl, rfl⟩, h⟩
      exact ⟨a, b, ⟨rfl, rfl⟩, h⟩
  | _ => simp [Fits, Ty.number, Ty.text, Ty.boolean, Ty.void, FnType.toTy]

theorem fits_fn_iff {v : Value} {ps : List Ty} {r : Ty} {variadic : Bool} :
    v.Fits known (.fn ps r variadic) ↔ known v ∧
      ((∃ f, v = .function f ∧ f.definition.signature = ⟨ps, r, variadic⟩) ∨
        ∃ b, v = .builtin b ∧ b.type = ⟨ps, r, variadic⟩) := by
  have hsig : ∀ g : FnType, Ty.fn ps r variadic = g.toTy ↔ g = ⟨ps, r, variadic⟩ := by
    intro g
    rcases g with ⟨ps', r', variadic'⟩
    simp only [FnType.toTy, Ty.fn.injEq, FnType.mk.injEq]
    constructor <;> rintro ⟨rfl, rfl, rfl⟩ <;> exact ⟨rfl, rfl, rfl⟩
  cases v <;> simp [Fits, Ty.number, Ty.text, Ty.boolean, Ty.void, hsig]

/-- The types of dictionary keys. -/
def keyTypes : List Ty := [.number, .text, .boolean]

theorem Fits.key {v : Value} {t : Ty} (h : v.Fits known t) (ht : t ∈ keyTypes) :
    ∃ k, Key.ofValue? v = some k ∧ keyType k = t := by
  simp only [keyTypes, List.mem_cons, List.not_mem_nil, or_false] at ht
  rcases ht with rfl | rfl | rfl
  · rcases fits_number_iff.mp h with ⟨x, id, rfl⟩
    exact ⟨_, rfl, rfl⟩
  · rcases fits_text_iff.mp h with ⟨s, id, rfl⟩
    exact ⟨_, rfl, rfl⟩
  · rcases fits_boolean_iff.mp h with ⟨b, id, rfl⟩
    exact ⟨_, rfl, rfl⟩

theorem fits_key (k : Key) : k.value.Fits known (keyType k) := by
  cases k <;> rfl

end Value

end TreeLang
