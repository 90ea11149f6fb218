import TreeLang.Value.Basic

/-!
# Induction on values

Elements come as the members of their list, entries with their values. Numbering objects changes the
members of a collection one by one, so what holds of every member survives it.
-/

namespace TreeLang

namespace Value

/-- Induction on values. -/
@[elab_as_elim, induction_eliminator]
theorem induction {motive : Value → Prop} (number : ∀ x id, motive (.number x id))
    (text : ∀ s id, motive (.text s id)) (bool : ∀ b id, motive (.bool b id))
    (nil : motive .nil) (list : ∀ elems id, (∀ v ∈ elems, motive v) → motive (.list elems id))
    (dict : ∀ entries id, (∀ e ∈ entries, motive e.2) → motive (.dict entries id))
    (function : ∀ f, motive (.function f)) (builtin : ∀ b, motive (.builtin b)) (v : Value) :
    motive v :=
  @Value.rec motive (fun vs => ∀ v ∈ vs, motive v) (fun es => ∀ e ∈ es, motive e.2)
    (fun e => motive e.2) number text bool nil list dict function builtin
    (fun _ h => absurd h List.not_mem_nil)
    (fun _ _ hv hvs _ h => by
      rcases List.mem_cons.mp h with rfl | h
      · exact hv
      · exact hvs _ h)
    (fun _ h => absurd h List.not_mem_nil)
    (fun _ _ he hes _ h => by
      rcases List.mem_cons.mp h with rfl | h
      · exact he
      · exact hes _ h)
    (fun _ _ hv => hv) v

/-! ## Numbering the members of a collection -/

theorem mem_numberAllFrom {vs : List Value} {n : Nat} {w : Value}
    (h : w ∈ (numberAllFrom n vs).1) : ∃ v ∈ vs, ∃ k, w = (v.numberFrom k).1 := by
  induction vs generalizing n with
  | nil => simp [numberAllFrom] at h
  | cons v vs ih =>
    rw [numberAllFrom] at h
    rcases List.mem_cons.mp h with rfl | h
    · exact ⟨v, by simp, n, rfl⟩
    · rcases ih h with ⟨u, hu, k, rfl⟩
      exact ⟨u, by simp [hu], k, rfl⟩

theorem mem_numberEntriesFrom {es : List (Key × Value)} {n : Nat} {e : Key × Value}
    (h : e ∈ (numberEntriesFrom n es).1) :
    ∃ e' ∈ es, ∃ i j, e = ((e'.1.numberFrom i).1, (e'.2.numberFrom j).1) := by
  induction es generalizing n with
  | nil => simp [numberEntriesFrom] at h
  | cons e₀ es ih =>
    rcases e₀ with ⟨k, v⟩
    rw [numberEntriesFrom] at h
    rcases List.mem_cons.mp h with rfl | h
    · exact ⟨(k, v), by simp, n, _, rfl⟩
    · rcases ih h with ⟨e', he', i, j, rfl⟩
      exact ⟨e', by simp [he'], i, j, rfl⟩

@[simp] theorem keyType_numberFrom (k : Key) (n : Nat) :
    keyType (k.numberFrom n).1 = keyType k := by
  unfold Key.numberFrom
  split <;> rfl

end Value

/-! ## Entries of dictionaries -/

@[simp] theorem Key.ofValue?_value (k : Key) : ofValue? k.value = some k := by cases k <;> rfl

namespace Dict

theorem mem_set {d : Dict} {k : Key} {v : Value} {e : Key × Value} (h : e ∈ set k v d) :
    e ∈ d ∨ e = (k, v) ∨ (e.2 = v ∧ ∃ w, (e.1, w) ∈ d) := by
  induction d with
  | nil => simp_all [set]
  | cons e₀ d ih =>
    rcases e₀ with ⟨k₀, w₀⟩
    rw [set] at h
    split at h
    · rcases List.mem_cons.mp h with rfl | h
      · exact Or.inr (Or.inr ⟨rfl, w₀, by simp⟩)
      · exact Or.inl (by simp [h])
    · rcases List.mem_cons.mp h with rfl | h
      · exact Or.inl (by simp)
      · rcases ih h with h | h | ⟨h, w, hw⟩
        · exact Or.inl (by simp [h])
        · exact Or.inr (Or.inl h)
        · exact Or.inr (Or.inr ⟨h, w, by simp [hw]⟩)

/-- What holds of all keys and of all values of a dictionary holds after an entry is set. -/
theorem set_induct {K : Key → Prop} {V : Value → Prop} {d : Dict} {k : Key} {v : Value}
    (hd : ∀ e ∈ d, K e.1 ∧ V e.2) (hk : K k) (hv : V v) : ∀ e ∈ set k v d, K e.1 ∧ V e.2 := by
  intro e he
  rcases mem_set he with he | rfl | ⟨rfl, w, hw⟩
  · exact hd e he
  · exact ⟨hk, hv⟩
  · exact ⟨(hd _ hw).1, hv⟩

theorem merge_induct {K : Key → Prop} {V : Value → Prop} {a b : Dict}
    (ha : ∀ e ∈ a, K e.1 ∧ V e.2) (hb : ∀ e ∈ b, K e.1 ∧ V e.2) :
    ∀ e ∈ merge a b, K e.1 ∧ V e.2 := by
  induction b generalizing a with
  | nil => exact ha
  | cons e b ih =>
    have he := hb e (by simp)
    exact ih (set_induct ha he.1 he.2) fun x hx => hb x (by simp [hx])

theorem mem_of_get? {d : Dict} {k : Key} {v : Value} (h : get? k d = some v) :
    ∃ e ∈ d, e.2 = v := by
  induction d with
  | nil => cases h
  | cons e d ih =>
    rcases e with ⟨k₀, w₀⟩
    rw [get?] at h
    split at h
    · exact ⟨(k₀, w₀), by simp, Option.some.inj h⟩
    · rcases ih h with ⟨e, he, hv⟩
      exact ⟨e, by simp [he], hv⟩

end Dict

end TreeLang
