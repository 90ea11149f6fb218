import Mathlib
import TreeLang.Proofs.Value.Proper

/-!
# Equality of values

Equality is symmetric and transitive, and a value equals itself if and only if there is no NaN in
it. Dictionaries are compared in one direction: each entry of the first one has to be in the second
one. Symmetry holds nevertheless, since two dictionaries of the same size one of which has all keys
of the other have the same keys, provided that no dictionary has a key twice. In which order entries
were set does not matter.

Main statement: `equal_equivalence`.
-/

namespace TreeLang

/-! ## Keys of dictionaries of the same size -/

namespace Dict

variable {a b d : Dict} {k l : Key} {v : Value}

theorem get?_congr (h : k.id = l.id) (d : Dict) : get? k d = get? l d := by
  rw [get?_eq_find?, get?_eq_find?, h]

/-- What is found is the value of an entry with that key. -/
theorem exists_of_get? (h : get? k d = some v) : ∃ e ∈ d, e.1.id = k.id ∧ e.2 = v := by
  rw [get?_eq_find?, Option.map_eq_some_iff] at h
  obtain ⟨e, he, hv⟩ := h
  exact ⟨e, List.mem_of_find?_eq_some he, by simpa using List.find?_some he, hv⟩

/-- A dictionary that has all keys of another one of its size has no other keys. -/
theorem exists_of_length (ha : Distinct a) (hlen : a.length = b.length)
    (hsub : ∀ e ∈ a, ∃ e' ∈ b, e'.1.id = e.1.id) {e' : Key × Value} (he' : e' ∈ b) :
    ∃ e ∈ a, e.1.id = e'.1.id := by
  have hnodup : (a.map (·.1.id)).Nodup := List.pairwise_map.mpr ha
  have hsubset : a.map (·.1.id) ⊆ b.map (·.1.id) := by
    intro id hid
    obtain ⟨e, he, rfl⟩ := List.mem_map.mp hid
    exact List.mem_map.mpr (hsub e he)
  have hperm : (a.map (·.1.id)).Perm (b.map (·.1.id)) :=
    (List.subperm_of_subset hnodup hsubset).perm_of_length_le (by simp [hlen])
  exact List.mem_map.mp (hperm.mem_iff.mpr (List.mem_map_of_mem he'))

end Dict

namespace Value

/-! ## Comparing collections -/

theorem equal_dict_iff {a b : Dict} {i j : Identity} :
    (dict a i).equal (dict b j) = true ↔
      a.length = b.length ∧ ∀ e ∈ a, ∃ w, Dict.get? e.1 b = some w ∧ e.2.equal w = true := by
  rw [equal, Bool.and_eq_true, equalEntries_iff, beq_iff_eq]

theorem equalAll_symm {xs ys : List Value}
    (hxy : ∀ x ∈ xs, ∀ y ∈ ys, x.equal y = true → y.equal x = true)
    (h : equalAll xs ys = true) : equalAll ys xs = true := by
  induction xs generalizing ys with
  | nil =>
    cases ys with
    | nil => rfl
    | cons y ys => cases h
  | cons x xs ih =>
    cases ys with
    | nil => cases h
    | cons y ys =>
      rw [equalAll, Bool.and_eq_true] at h ⊢
      refine ⟨hxy x (by simp) y (by simp) h.1, ih (fun x' hx' y' hy' => ?_) h.2⟩
      exact hxy x' (by simp [hx']) y' (by simp [hy'])

theorem equalAll_trans {xs ys zs : List Value}
    (hxyz : ∀ x ∈ xs, ∀ y z : Value, x.equal y = true → y.equal z = true → x.equal z = true)
    (h : equalAll xs ys = true) (h' : equalAll ys zs = true) : equalAll xs zs = true := by
  induction xs generalizing ys zs with
  | nil =>
    cases ys with
    | nil => exact h'
    | cons y ys => cases h
  | cons x xs ih =>
    cases ys with
    | nil => cases h
    | cons y ys =>
      cases zs with
      | nil => cases h'
      | cons z zs =>
        rw [equalAll, Bool.and_eq_true] at h h' ⊢
        exact ⟨hxyz x (by simp) y z h.1 h'.1,
          ih (fun x' hx' => hxyz x' (by simp [hx'])) h.2 h'.2⟩

theorem equalAll_self_iff {xs : List Value} :
    equalAll xs xs = true ↔ ∀ x ∈ xs, x.equal x = true := by
  induction xs with
  | nil => simp [equalAll]
  | cons x xs ih => simp [equalAll, ih]

/-! ## Symmetry -/

theorem equal_symm {v w : Value} (hv : v.Proper) (hw : w.Proper) (h : v.equal w = true) :
    w.equal v = true := by
  induction v generalizing w with
  | number x id =>
    cases w with
    | number y => exact BEq.symm h
    | _ => cases h
  | list xs id ih =>
    cases w with
    | list ys =>
      rw [equal] at h ⊢
      rw [proper_list] at hv hw
      exact equalAll_symm (fun x hx y hy => ih x hx (hv x hx) (hw y hy)) h
    | _ => cases h
  | dict a id ih =>
    cases w with
    | dict b =>
      obtain ⟨ha, hav⟩ := proper_dict.mp hv
      obtain ⟨hb, hbv⟩ := proper_dict.mp hw
      obtain ⟨hlen, hfound⟩ := equal_dict_iff.mp h
      have hkeys : ∀ e ∈ a, ∃ e' ∈ b, e'.1.id = e.1.id := by
        intro e he
        obtain ⟨w, hw, -⟩ := hfound e he
        obtain ⟨e', he', hid, -⟩ := Dict.exists_of_get? hw
        exact ⟨e', he', hid⟩
      refine equal_dict_iff.mpr ⟨hlen.symm, fun e' he' => ?_⟩
      -- Each entry of `b` is the one that was found for an entry of `a`.
      obtain ⟨e, he, hid⟩ := Dict.exists_of_length ha hlen hkeys he'
      obtain ⟨w, hw, heq⟩ := hfound e he
      rw [Dict.get?_of_mem hb he' hid.symm, Option.some.injEq] at hw
      subst hw
      exact ⟨e.2, Dict.get?_of_mem ha he hid, ih e he (hav e he) (hbv e' he') heq⟩
    | _ => cases h
  | text | bool | nil | function | builtin => cases w <;> simp_all [equal]

/-! ## Transitivity -/

theorem equal_trans {u v w : Value} (h : u.equal v = true) (h' : v.equal w = true) :
    u.equal w = true := by
  induction u generalizing v w with
  | number x id =>
    cases v with
    | number y =>
      cases w with
      | number z => exact BEq.trans h h'
      | _ => cases h'
    | _ => cases h
  | list xs id ih =>
    cases v with
    | list ys =>
      cases w with
      | list zs =>
        rw [equal] at h h' ⊢
        exact equalAll_trans (fun x hx y z => ih x hx) h h'
      | _ => cases h'
    | _ => cases h
  | dict a id ih =>
    cases v with
    | dict b =>
      cases w with
      | dict c =>
        obtain ⟨hlen, hfound⟩ := equal_dict_iff.mp h
        obtain ⟨hlen', hfound'⟩ := equal_dict_iff.mp h'
        refine equal_dict_iff.mpr ⟨hlen.trans hlen', fun e he => ?_⟩
        obtain ⟨v, hv, heq⟩ := hfound e he
        obtain ⟨e', he', hid, rfl⟩ := Dict.exists_of_get? hv
        obtain ⟨w, hw, heq'⟩ := hfound' e' he'
        exact ⟨w, Dict.get?_congr hid c ▸ hw, ih e he heq heq'⟩
      | _ => cases h'
    | _ => cases h
  | text | bool | nil | function | builtin => cases v <;> cases w <;> simp_all [equal]

/-! ## Values that equal themselves -/

theorem equal_self_iff {v : Value} (hv : v.Proper) : v.equal v = true ↔ v.NaNFree := by
  induction v with
  | number x id =>
    rw [nanFree_number, equal, Float.beq_self_iff]
    simp
  | list xs id ih =>
    rw [proper_list] at hv
    rw [nanFree_list, equal, equalAll_self_iff]
    exact forall₂_congr fun x hx => ih x hx (hv x hx)
  | dict a id ih =>
    obtain ⟨ha, hav⟩ := proper_dict.mp hv
    rw [nanFree_dict, equal_dict_iff]
    simp only [true_and]
    refine forall₂_congr fun e he => ?_
    rw [Dict.get?_of_mem ha he rfl, ← ih e he (hav e he)]
    simp
  | text | bool | nil | function | builtin => simp [equal, NaNFree, throughout_atom]

/-- A dictionary with the entries in another order. -/
theorem equal_of_perm {d es : Dict} {i : Identity} (hd : (dict d i).Proper)
    (hn : (dict d i).NaNFree) (hp : es.Perm d) (j : Identity) :
    (dict es j).equal (dict d i) = true := by
  obtain ⟨hdistinct, hproper⟩ := proper_dict.mp hd
  rw [nanFree_dict] at hn
  refine equal_dict_iff.mpr ⟨hp.length_eq, fun e he => ?_⟩
  have hmem : e ∈ d := hp.mem_iff.mp he
  exact ⟨e.2, Dict.get?_of_mem hdistinct hmem rfl,
    (equal_self_iff (hproper e hmem)).mpr (hn e hmem)⟩

/-- Equality is symmetric and transitive, values without NaN equal themselves, and a dictionary
without NaN equals the one into which its entries are set in any order. -/
theorem equal_equivalence :
    (∀ v w : Value, v.Proper → w.Proper → v.equal w = w.equal v) ∧
      (∀ u v w : Value, u.equal v = true → v.equal w = true → u.equal w = true) ∧
      (∀ v : Value, v.Proper → v.NaNFree → v.equal v = true) ∧
      ∀ (d es : Dict) (i j : Identity), (dict d i).Proper → (dict d i).NaNFree → es.Perm d →
        (dict (Dict.ofEntries es) j).equal (dict d i) = true ∧
          (dict d i).equal (dict (Dict.ofEntries es) j) = true := by
  refine ⟨fun v w hv hw => ?_, fun u v w => equal_trans,
    fun v hv => (equal_self_iff hv).mpr, fun d es i j hd hn hp => ?_⟩
  · exact Bool.eq_iff_iff.mpr ⟨equal_symm hv hw, equal_symm hw hv⟩
  · obtain ⟨hdistinct, hproper⟩ := proper_dict.mp hd
    have hes : Dict.Distinct es := Dict.distinct_of_perm hp hdistinct
    have hesd : (dict es j).equal (dict d i) = true := equal_of_perm hd hn hp j
    have hesproper : (dict (Dict.ofEntries es) j).Proper :=
      proper_ofEntries fun e he => hproper e (hp.mem_iff.mp he)
    rw [Dict.ofEntries, Dict.nil_merge hes] at hesproper ⊢
    exact ⟨hesd, equal_symm hesproper hd hesd⟩

/-- A dictionary of collections, whose keys are the two zeros, and its entries backwards. -/
theorem zeros_equivalence :
    let d : Dict :=
      [(.number 0 .fresh, .list [.number 0 .fresh, .nil] .fresh),
        (.number (-0) .fresh, .dict [(.text "a" .fresh, .number 1 .fresh)] .fresh)]
    let es := d.reverse
    let v := dict d .fresh
    let w := dict (Dict.ofEntries es) .fresh
    (v.Proper ∧ w.Proper ∧ v.NaNFree ∧ es.Perm d) ∧
      v.equal w = w.equal v ∧ v.equal v = true ∧ w.equal v = true ∧ v.equal w = true ∧
      (w.equal v = true → v.equal w = true → w.equal w = true) := by
  intro d es v w
  have hdistinct : Dict.Distinct d := by
    unfold Dict.Distinct
    decide
  have hproper : ∀ e ∈ d, e.2.Proper := by
    simp [d, Proper, throughout_list, throughout_dict, throughout_atom, Dict.Distinct]
  have hv : v.Proper := proper_dict.mpr ⟨hdistinct, hproper⟩
  have hn : v.NaNFree := by
    have hnil : Value.nil.NaNFree := by simp [NaNFree, throughout_atom]
    simp only [v, d, nanFree_dict, nanFree_list, nanFree_number, List.forall_mem_cons]
    exact ⟨⟨rfl, hnil, List.forall_mem_nil _⟩, ⟨rfl, List.forall_mem_nil _⟩,
      List.forall_mem_nil _⟩
  have hp : es.Perm d := List.reverse_perm d
  have hw : w.Proper := proper_ofEntries fun e he => hproper e (hp.mem_iff.mp he)
  obtain ⟨hsymm, htrans, hrefl, hperm⟩ := equal_equivalence
  obtain ⟨hwv, hvw⟩ := hperm d es .fresh .fresh hv hn hp
  exact ⟨⟨hv, hw, hn, hp⟩, hsymm v w hv hw, hrefl v hv hn, hwv, hvw, htrans w v w⟩

end Value

end TreeLang
