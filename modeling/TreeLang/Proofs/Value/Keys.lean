import TreeLang.Proofs.Value.Structure

/-!
# Dictionaries as maps

The keys of a dictionary differ from one another, since an entry is only added under a key that is
not there yet. So each entry is the one that is found under its key.
-/

namespace TreeLang

namespace Dict

variable {d : Dict} {k : Key} {v : Value} {e : Key × Value}

/-- No two entries have the same key. -/
def Distinct (d : Dict) : Prop := d.Pairwise fun e e' => e.1.id ≠ e'.1.id

/-- The dictionary has a value under either zero. -/
def HasBothZeros (d : Dict) : Prop :=
  (∃ e ∈ d, e.1.id = .number (0.0 : Float).toBits) ∧
    ∃ e ∈ d, e.1.id = .number (-0.0 : Float).toBits

theorem set_of_new (h : ∀ e ∈ d, e.1.id ≠ k.id) : set k v d = d ++ [(k, v)] := by
  induction d with
  | nil => rfl
  | cons e d ih =>
    rw [set, if_neg (h e (by simp)), ih fun e' he' => h e' (by simp [he'])]
    rfl

/-- The keys that are there after an entry is set. -/
theorem id_of_mem_set (h : e ∈ set k v d) : e.1.id = k.id ∨ ∃ e' ∈ d, e'.1.id = e.1.id := by
  rcases mem_set h with h | rfl | ⟨-, w, hw⟩
  · exact .inr ⟨e, h, rfl⟩
  · exact .inl rfl
  · exact .inr ⟨_, hw, rfl⟩

theorem set_distinct (h : Distinct d) : Distinct (set k v d) := by
  induction d with
  | nil => exact List.pairwise_singleton ..
  | cons e d ih =>
    obtain ⟨hhead, htail⟩ := List.pairwise_cons.mp h
    rw [set]
    split
    · exact List.pairwise_cons.mpr ⟨hhead, htail⟩
    · next hk =>
      refine List.pairwise_cons.mpr ⟨fun e' he' => ?_, ih htail⟩
      rcases id_of_mem_set he' with hid | ⟨e'', he'', hid⟩
      · rwa [hid]
      · rw [← hid]
        exact hhead e'' he''

theorem merge_distinct {a b : Dict} (h : Distinct a) : Distinct (merge a b) := by
  induction b generalizing a with
  | nil => exact h
  | cons e b ih => exact ih (set_distinct h)

theorem distinct_of_perm {a b : Dict} (hp : a.Perm b) (hb : Distinct b) : Distinct a :=
  hp.symm.pairwise hb fun h => h.symm

/-- The value of an entry is found under its key. -/
theorem get?_of_mem (hd : Distinct d) (he : e ∈ d) (hk : e.1.id = k.id) : get? k d = some e.2 := by
  induction d with
  | nil => cases he
  | cons e₀ d ih =>
    obtain ⟨hhead, htail⟩ := List.pairwise_cons.mp hd
    rw [get?]
    rcases List.mem_cons.mp he with rfl | he
    · rw [if_pos hk]
    · rw [if_neg (by rw [← hk]; exact hhead e he)]
      exact ih htail he

end Dict

namespace Value

theorem equalEntries_iff {es : List (Key × Value)} {d : Dict} :
    equalEntries es d = true ↔ ∀ e ∈ es, ∃ w, Dict.get? e.1 d = some w ∧ e.2.equal w = true := by
  induction es with
  | nil => simp [equalEntries]
  | cons e es ih =>
    simp only [equalEntries, Bool.and_eq_true, ih, List.forall_mem_cons]
    refine and_congr_left fun _ => ?_
    cases Dict.get? e.1 d <;> simp

end Value

end TreeLang
