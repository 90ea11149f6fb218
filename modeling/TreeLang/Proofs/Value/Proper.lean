import TreeLang.Proofs.Value.Merge

/-!
# What is in a value

A property can be asked of a value and of all that is in it, at any depth. Two such properties
matter below: that no dictionary has a key twice, which setting entries never breaks, and that no
number is NaN.
-/

namespace TreeLang

namespace Value

/-- The first value is the second one, or in it, at any depth. Keys do not count. -/
inductive Part (w : Value) : Value → Prop
  | self : Part w w
  | elem {v : Value} {elems : List Value} {id : Identity} :
      v ∈ elems → Part w v → Part w (.list elems id)
  | entry {e : Key × Value} {entries : List (Key × Value)} {id : Identity} :
      e ∈ entries → Part w e.2 → Part w (.dict entries id)

/-- The property holds of the value and of all values in it. -/
def Throughout (P : Value → Prop) (v : Value) : Prop := ∀ w, Part w v → P w

/-- No dictionary has a key twice. -/
def Proper : Value → Prop := Throughout fun
  | .dict entries _ => Dict.Distinct entries
  | _ => True

/-- No number is NaN. -/
def NaNFree : Value → Prop := Throughout fun
  | .number x _ => x.isNaN = false
  | _ => True

section Throughout

variable {P : Value → Prop} {id : Identity}

theorem throughout_list {elems : List Value} :
    Throughout P (list elems id) ↔ P (list elems id) ∧ ∀ v ∈ elems, Throughout P v := by
  refine ⟨fun h => ⟨h _ .self, fun v hv w hw => h w (.elem hv hw)⟩, fun ⟨hself, hall⟩ w hw => ?_⟩
  cases hw with
  | self => exact hself
  | elem hv hw => exact hall _ hv w hw

theorem throughout_dict {entries : Dict} :
    Throughout P (dict entries id) ↔ P (dict entries id) ∧ ∀ e ∈ entries, Throughout P e.2 := by
  refine ⟨fun h => ⟨h _ .self, fun e he w hw => h w (.entry he hw)⟩, fun ⟨hself, hall⟩ w hw => ?_⟩
  cases hw with
  | self => exact hself
  | entry he hw => exact hall _ he w hw

/-- A value that is no collection has no other values in it. -/
theorem throughout_atom {v : Value} (hlist : ∀ elems id, v ≠ list elems id)
    (hdict : ∀ entries id, v ≠ dict entries id) : Throughout P v ↔ P v := by
  refine ⟨fun h => h _ .self, fun h w hw => ?_⟩
  cases hw with
  | self => exact h
  | elem => exact absurd rfl (hlist _ _)
  | entry => exact absurd rfl (hdict _ _)

end Throughout

section

variable {id : Identity}

theorem proper_key (k : Key) : k.value.Proper := by
  cases k <;> simp [Key.value, Proper, throughout_atom]

@[simp] theorem proper_list {elems : List Value} :
    (list elems id).Proper ↔ ∀ v ∈ elems, v.Proper := by
  simp only [Proper, throughout_list, true_and]

@[simp] theorem proper_dict {entries : Dict} :
    (dict entries id).Proper ↔ Dict.Distinct entries ∧ ∀ e ∈ entries, e.2.Proper := by
  simp only [Proper, throughout_dict]

/-- Setting entries one after the other never makes a key twice. -/
theorem proper_ofEntries {es : List (Key × Value)} (h : ∀ e ∈ es, e.2.Proper) :
    (dict (Dict.ofEntries es) id).Proper := by
  refine proper_dict.mpr ⟨Dict.distinct_ofEntries es, fun e he => ?_⟩
  exact (Dict.merge_induct (K := fun _ => True) (V := Proper) (List.forall_mem_nil _)
    (fun e he => ⟨trivial, h e he⟩) e he).2

@[simp] theorem nanFree_number {x : Float} : (number x id).NaNFree ↔ x.isNaN = false :=
  throughout_atom nofun nofun

@[simp] theorem nanFree_list {elems : List Value} :
    (list elems id).NaNFree ↔ ∀ v ∈ elems, v.NaNFree := by
  simp only [NaNFree, throughout_list, true_and]

@[simp] theorem nanFree_dict {entries : Dict} :
    (dict entries id).NaNFree ↔ ∀ e ∈ entries, e.2.NaNFree := by
  simp only [NaNFree, throughout_dict, true_and]

end

/-! ## Numbering objects -/

theorem id_numberFrom (k : Key) (n : Nat) : (k.numberFrom n).1.id = k.id := by
  unfold Key.numberFrom
  split <;> rfl

theorem map_id_numberEntriesFrom (es : List (Key × Value)) (n : Nat) :
    (numberEntriesFrom n es).1.map (·.1.id) = es.map (·.1.id) := by
  induction es generalizing n with
  | nil => rfl
  | cons e es ih =>
    rcases e with ⟨k, v⟩
    rw [numberEntriesFrom, List.map_cons, List.map_cons, id_numberFrom, ih]

theorem distinct_numberEntriesFrom {es : Dict} (h : Dict.Distinct es) (n : Nat) :
    Dict.Distinct (numberEntriesFrom n es).1 := by
  have hids : (es.map (·.1.id)).Pairwise (· ≠ ·) := List.pairwise_map.mpr h
  rw [← map_id_numberEntriesFrom es n] at hids
  exact List.pairwise_map.mp hids

theorem Proper.numberFrom {v : Value} (h : v.Proper) (n : Nat) : (v.numberFrom n).1.Proper := by
  induction v generalizing n with
  | list elems id ih =>
    cases id with
    | fresh =>
      refine proper_list.mpr fun w hw => ?_
      obtain ⟨v, hv, k, rfl⟩ := mem_numberAllFrom hw
      exact ih v hv (proper_list.mp h v hv) k
    | shared | made => exact h
  | dict entries id ih =>
    cases id with
    | fresh =>
      obtain ⟨hdistinct, hproper⟩ := proper_dict.mp h
      refine proper_dict.mpr ⟨distinct_numberEntriesFrom hdistinct _, fun e he => ?_⟩
      obtain ⟨e₀, he₀, i, j, rfl⟩ := mem_numberEntriesFrom he
      exact ih e₀ he₀ (hproper e₀ he₀) j
    | shared | made => exact h
  | number x id => cases id <;> exact proper_key (.number x _)
  | text s id => cases id <;> exact proper_key (.text s _)
  | bool b id => cases id <;> exact proper_key (.bool b _)
  | nil | function | builtin => exact h

end Value

end TreeLang
