import Mathlib.Data.List.Basic
import TreeLang.Value.Store
import TreeLang.Proofs.Value.Merge

/-!
# Dictionaries in memory are maps in order of insertion

`Models m ds` says that the dictionaries in a memory have the entries `ds`: the array of each has
them in its first cells, its index says where, and no two dictionaries share an array or an index.
Each request keeps this (`step_models`), with the effect on `ds` that it should have; in particular
it leaves the entries of all other dictionaries alone. So after any requests a dictionary has the
entries that were set in it, and in what it was copied from before (`run_models`).

Main statement: `run_ordered`.
-/

namespace TreeLang

namespace Store

variable {m m' : Store} {grow : Nat → Nat} {o o' : DictObject} {es : Dict} {ds : List Dict}
  {d d' : Nat}

/-! ## One dictionary -/

/-- The object has these entries: they are in its array, and its index says in which cells. -/
structure Holds (m : Store) (o : DictObject) (es : Dict) : Prop where
  array_lt : o.array < m.arrays.length
  index_lt : o.index < m.indexes.length
  cells : (m.array o.array).take o.length = es.map some
  length : o.length = es.length
  /-- The index has each entry's cell and nothing else. -/
  indexed : ∀ id i, (m.index o.index).lookup id = some i ↔ ∃ e, es[i]? = some e ∧ e.1.id = id

namespace Holds

/-- What an object has depends on its array and on its index only. -/
theorem frame (h : m.Holds o es) (harray : m'.arrays[o.array]? = m.arrays[o.array]?)
    (hindex : m'.indexes[o.index]? = m.indexes[o.index]?) : m'.Holds o es where
  array_lt := by
    rw [List.getElem?_eq_getElem h.array_lt] at harray
    exact (List.getElem?_eq_some_iff.mp harray).1
  index_lt := by
    rw [List.getElem?_eq_getElem h.index_lt] at hindex
    exact (List.getElem?_eq_some_iff.mp hindex).1
  cells := by
    rw [array, harray]
    exact h.cells
  length := h.length
  indexed id i := by
    rw [index, hindex]
    exact h.indexed id i

/-- The index has one cell for a key, so no two entries have the same key. -/
theorem distinct (h : m.Holds o es) : Dict.Distinct es := by
  refine List.pairwise_iff_getElem.mpr fun i j hi hj hlt hid => ?_
  have hcell (n : Nat) (hn : n < es.length) :
      (m.index o.index).lookup es[n].1.id = some n :=
    (h.indexed _ n).mpr ⟨es[n], List.getElem?_eq_getElem hn, rfl⟩
  have hsame := hcell i hi
  rw [hid, hcell j hj, Option.some.injEq] at hsame
  omega

theorem cell (h : m.Holds o es) {i : Nat} {e : Key × Value} (he : es[i]? = some e) :
    (m.array o.array)[i]? = some (some e) := by
  obtain ⟨hi, -⟩ := List.getElem?_eq_some_iff.mp he
  have htake : ((m.array o.array).take o.length)[i]? = some (some e) := by
    rw [h.cells, List.getElem?_map, he]
    rfl
  rwa [List.getElem?_take_of_lt (h.length ▸ hi)] at htake

theorem lookup_eq_none_iff (h : m.Holds o es) {k : Key} :
    (m.index o.index).lookup k.id = none ↔ ∀ e ∈ es, e.1.id ≠ k.id := by
  rw [Option.eq_none_iff_forall_ne_some]
  constructor
  · intro hnone e he hid
    obtain ⟨i, hi⟩ := List.mem_iff_getElem?.mp he
    exact hnone i ((h.indexed _ i).mpr ⟨e, hi, hid⟩)
  · intro hne i hi
    obtain ⟨e, he, hid⟩ := (h.indexed _ i).mp hi
    exact hne e (List.mem_of_getElem? he) hid

theorem pairs (h : m.Holds o es) (ho : m.objects[d]? = some o) : m.pairs d = es := by
  rw [Store.pairs, ho]
  simp only [h.cells]
  simp [List.filterMap_map]

theorem position (h : m.Holds o es) (ho : m.objects[d]? = some o) (id : KeyId) (i : Nat) :
    m.position d id = some i ↔ ∃ e, es[i]? = some e ∧ e.1.id = id := by
  rw [Store.position, ho]
  exact h.indexed id i

theorem get (h : m.Holds o es) (ho : m.objects[d]? = some o) (key : Value) :
    m.get d key = Dict.lookup key es := by
  rw [Store.get, Dict.lookup, ho]
  cases Key.ofValue? key with
  | none => rfl
  | some k =>
    simp only [Option.bind_eq_bind, Option.bind_some]
    cases hi : (m.index o.index).lookup k.id with
    | none =>
      have hnone := h.lookup_eq_none_iff.mp hi
      rw [Option.bind_none, Dict.get?_eq_find?, List.find?_eq_none.mpr (by simpa using hnone)]
      rfl
    | some i =>
      obtain ⟨e, he, hid⟩ := (h.indexed _ i).mp hi
      rw [Dict.get?_of_mem h.distinct (List.mem_of_getElem? he) hid]
      simp [h.cell he]

/-! ### Changing the entries -/

/-- The value of an entry is overwritten in its cell. -/
theorem overwrite (h : m.Holds o es) {i : Nat} {k : Key}
    (hi : (m.index o.index).lookup k.id = some i) (v : Value) :
    (m.overwrite o.array i v).Holds o (Dict.set k v es) := by
  obtain ⟨e, he, hid⟩ := (h.indexed _ i).mp hi
  have hset : Dict.set k v es = es.modify i fun e => (e.1, v) :=
    Dict.set_of_getElem? h.distinct he hid
  have harray : (m.overwrite o.array i v).array o.array =
      (m.array o.array).modify i fun cell => cell.map fun e => (e.1, v) := by
    simp [Store.overwrite, array, List.getElem?_eq_getElem h.array_lt]
  refine ⟨?_, h.index_lt, ?_, ?_, fun id j => ?_⟩
  · simpa [Store.overwrite] using h.array_lt
  · rw [harray, List.take_modify, h.cells, hset]
    refine List.ext_getElem? fun j => ?_
    simp only [List.getElem?_modify, List.getElem?_map]
    cases es[j]? with
    | none => rfl
    | some e' => by_cases hj : i = j <;> simp [hj]
  · rw [hset, List.length_modify]
    exact h.length
  -- No key has moved.
  · have hsame : (m.overwrite o.array i v).index o.index = m.index o.index := rfl
    rw [hsame, h.indexed, hset]
    simp only [List.getElem?_modify]
    cases es[j]? with
    | none => simp
    | some e' => by_cases hj : i = j <;> simp [hj]

/-- The index after an entry is added says where it is. -/
theorem indexed_append (h : m.Holds o es) (e : Key × Value)
    (hnew : (m.index o.index).lookup e.1.id = none) (id : KeyId) (i : Nat) :
    ((e.1.id, o.length) :: m.index o.index).lookup id = some i ↔
      ∃ e', (es ++ [e])[i]? = some e' ∧ e'.1.id = id := by
  have hother := h.lookup_eq_none_iff.mp hnew
  rw [List.lookup_cons]
  by_cases hid : id = e.1.id
  · subst hid
    simp only [BEq.rfl, Option.some.injEq, h.length]
    constructor
    · rintro rfl
      exact ⟨e, List.getElem?_concat_length, rfl⟩
    · rintro ⟨e', he', hid'⟩
      by_contra hne
      rw [List.getElem?_append] at he'
      split at he'
      · exact hother e' (List.mem_of_getElem? he') hid'
      · next hi =>
        rw [List.getElem?_singleton, if_neg (by omega)] at he'
        cases he'
  · have hfalse : (id == e.1.id) = false := by simpa using hid
    simp only [hfalse, h.indexed]
    constructor
    · rintro ⟨e', he', hid'⟩
      obtain ⟨hi, -⟩ := List.getElem?_eq_some_iff.mp he'
      exact ⟨e', by rw [List.getElem?_append_left hi, he'], hid'⟩
    · rintro ⟨e', he', hid'⟩
      rw [List.getElem?_append] at he'
      split at he'
      · exact ⟨e', he', hid'⟩
      · rw [List.getElem?_singleton] at he'
        split at he'
        · cases he'
          exact absurd hid'.symm hid
        · cases he'

/-- The object has an entry more if its cells and its index do. -/
theorem append (h : m.Holds o es) {e : Key × Value}
    (hnew : (m.index o.index).lookup e.1.id = none) {a : Nat} {cells : List (Option (Key × Value))}
    (harray : m'.arrays[a]? = some cells) (hcells : cells.take es.length = es.map some)
    (hcell : cells[es.length]? = some (some e))
    (hindex : m'.indexes[o.index]? = some ((e.1.id, o.length) :: m.index o.index)) :
    m'.Holds ⟨a, o.index, o.length + 1⟩ (es ++ [e]) where
  array_lt := (List.getElem?_eq_some_iff.mp harray).1
  index_lt := (List.getElem?_eq_some_iff.mp hindex).1
  cells := by
    rw [array, harray, Option.getD_some, h.length, List.take_add_one, hcells, hcell]
    simp
  length := by simp [h.length]
  indexed id i := by
    rw [index, hindex]
    exact h.indexed_append e hnew id i

end Holds

/-! ## All dictionaries -/

/-- The dictionaries in memory have these entries, each in an array and an index of its own. -/
structure Models (m : Store) (ds : List Dict) : Prop where
  length : m.objects.length = ds.length
  holds : ∀ {d : Nat} {o : DictObject} {es : Dict}, m.objects[d]? = some o →
    ds[d]? = some es → m.Holds o es
  apart : ∀ {d d' : Nat} {o o' : DictObject}, m.objects[d]? = some o →
    m.objects[d']? = some o' → d ≠ d' → o.array ≠ o'.array ∧ o.index ≠ o'.index

/-- The object `o` has become `o'`; arrays and indexes that it did not have are as before, and if
it has got another array it is a new one. -/
structure Changes (m m' : Store) (o o' : DictObject) : Prop where
  array : o'.array = o.array ∨ m.arrays.length ≤ o'.array
  index : o'.index = o.index
  arrays : ∀ a, a < m.arrays.length → a ≠ o.array → m'.arrays[a]? = m.arrays[a]?
  indexes : ∀ x, x ≠ o.index → m'.indexes[x]? = m.indexes[x]?

namespace Models

theorem empty : Models {} [] := ⟨rfl, nofun, nofun⟩

theorem object (h : m.Models ds) (hd : ds[d]? = some es) :
    ∃ o, m.objects[d]? = some o ∧ m.Holds o es := by
  obtain ⟨hlt, -⟩ := List.getElem?_eq_some_iff.mp hd
  rw [← h.length] at hlt
  have ho : m.objects[d]? = some m.objects[d] := List.getElem?_eq_getElem hlt
  exact ⟨_, ho, h.holds ho hd⟩

theorem dict (h : m.Models ds) (ho : m.objects[d]? = some o) :
    ∃ es, ds[d]? = some es ∧ m.Holds o es := by
  obtain ⟨hlt, -⟩ := List.getElem?_eq_some_iff.mp ho
  rw [h.length] at hlt
  have hd : ds[d]? = some ds[d] := List.getElem?_eq_getElem hlt
  exact ⟨_, hd, h.holds ho hd⟩

theorem pairs (h : m.Models ds) (hd : ds[d]? = some es) : m.pairs d = es := by
  obtain ⟨o, ho, hholds⟩ := h.object hd
  exact hholds.pairs ho

theorem get (h : m.Models ds) (hd : ds[d]? = some es) (key : Value) :
    m.get d key = Dict.lookup key es := by
  obtain ⟨o, ho, hholds⟩ := h.object hd
  exact hholds.get ho key

/-- A dictionary is changed, and the others keep their entries. -/
theorem change (h : m.Models ds) (ho : m.objects[d]? = some o)
    (hobjects : m'.objects = m.objects.set d o') (hc : m.Changes m' o o')
    (hes : m'.Holds o' es) : m'.Models (ds.set d es) := by
  obtain ⟨hlt, -⟩ := List.getElem?_eq_some_iff.mp ho
  have hself : m'.objects[d]? = some o' := by
    rw [hobjects, List.getElem?_set_self hlt]
  have hother {d₁ : Nat} (hne : d ≠ d₁) : m'.objects[d₁]? = m.objects[d₁]? := by
    rw [hobjects, List.getElem?_set_ne hne]
  have hapart {d₁ : Nat} {o₁ : DictObject} (hne : d ≠ d₁) (ho₁ : m.objects[d₁]? = some o₁) :
      o'.array ≠ o₁.array ∧ o'.index ≠ o₁.index := by
    obtain ⟨_, -, hholds⟩ := h.dict ho₁
    obtain ⟨harray, hindex⟩ := h.apart ho ho₁ hne
    refine ⟨?_, hc.index ▸ hindex⟩
    rcases hc.array with hsame | hnew
    · exact hsame ▸ harray
    · exact fun heq => absurd hholds.array_lt (by omega)
  refine ⟨by simp [hobjects, h.length], fun {d₁ o₁ es₁} ho₁ hes₁ => ?_,
    fun {d₁ d₂ o₁ o₂} ho₁ ho₂ hne => ?_⟩
  · by_cases hd : d = d₁
    · subst hd
      rw [hself] at ho₁
      rw [List.getElem?_set_self (h.length ▸ hlt)] at hes₁
      cases ho₁
      cases hes₁
      exact hes
    · rw [hother hd] at ho₁
      rw [List.getElem?_set_ne hd] at hes₁
      have hholds := h.holds ho₁ hes₁
      obtain ⟨harray, hindex⟩ := h.apart ho ho₁ hd
      exact hholds.frame (hc.arrays _ hholds.array_lt harray.symm) (hc.indexes _ hindex.symm)
  · by_cases hd₁ : d = d₁
    · subst hd₁
      rw [hself] at ho₁
      rw [hother hne] at ho₂
      cases ho₁
      exact hapart hne ho₂
    · rw [hother hd₁] at ho₁
      by_cases hd₂ : d = d₂
      · subst hd₂
        rw [hself] at ho₂
        cases ho₂
        exact ⟨(hapart hd₁ ho₁).1.symm, (hapart hd₁ ho₁).2.symm⟩
      · rw [hother hd₂] at ho₂
        exact h.apart ho₁ ho₂ hne

/-- A dictionary is made, in a new array and with a new index. -/
theorem add (h : m.Models ds) (hobjects : m'.objects = m.objects ++ [o'])
    (harray : m.arrays.length ≤ o'.array) (hindex : m.indexes.length ≤ o'.index)
    (harrays : ∀ a, a < m.arrays.length → m'.arrays[a]? = m.arrays[a]?)
    (hindexes : ∀ x, x < m.indexes.length → m'.indexes[x]? = m.indexes[x]?)
    (hes : m'.Holds o' es) : m'.Models (ds ++ [es]) := by
  have hold {d₁ : Nat} {o₁ : DictObject} (ho₁ : m'.objects[d₁]? = some o₁) :
      m.objects[d₁]? = some o₁ ∨ d₁ = m.objects.length ∧ o₁ = o' := by
    rw [hobjects, List.getElem?_append] at ho₁
    split at ho₁
    · exact .inl ho₁
    · rw [List.getElem?_singleton] at ho₁
      split at ho₁
      · cases ho₁
        exact .inr ⟨by omega, rfl⟩
      · cases ho₁
  have hapart {d₁ : Nat} {o₁ : DictObject} (ho₁ : m.objects[d₁]? = some o₁) :
      o₁.array ≠ o'.array ∧ o₁.index ≠ o'.index := by
    obtain ⟨_, -, hholds⟩ := h.dict ho₁
    have harray_lt := hholds.array_lt
    have hindex_lt := hholds.index_lt
    constructor <;> omega
  refine ⟨by simp [hobjects, h.length], fun {d₁ o₁ es₁} ho₁ hes₁ => ?_,
    fun {d₁ d₂ o₁ o₂} ho₁ ho₂ hne => ?_⟩
  · rcases hold ho₁ with ho₁ | ⟨rfl, rfl⟩
    · obtain ⟨hlt, -⟩ := List.getElem?_eq_some_iff.mp ho₁
      rw [List.getElem?_append_left (h.length ▸ hlt)] at hes₁
      have hholds := h.holds ho₁ hes₁
      exact hholds.frame (harrays _ hholds.array_lt) (hindexes _ hholds.index_lt)
    · rw [h.length, List.getElem?_concat_length] at hes₁
      cases hes₁
      exact hes
  · rcases hold ho₁ with ho₁ | ⟨rfl, rfl⟩
    · rcases hold ho₂ with ho₂ | ⟨rfl, rfl⟩
      · exact h.apart ho₁ ho₂ hne
      · exact hapart ho₁
    · rcases hold ho₂ with ho₂ | ⟨rfl, rfl⟩
      · exact ⟨(hapart ho₂).1.symm, (hapart ho₂).2.symm⟩
      · exact absurd rfl hne

end Models

/-! ## One request -/

/-- What a request does to the entries of dictionaries. -/
def Request.apply (ds : List Dict) : Request → List Dict
  | .new => ds ++ [[]]
  | .set d key value =>
    match Key.ofValue? key with
    | none => ds
    | some k => ds.modify d (Dict.set k value)
  | .copy d => ds ++ [ds[d]?.getD []]

theorem make_models (h : m.Models ds) {index : List (KeyId × Nat)}
    (hindex : ∀ id i, index.lookup id = some i ↔ ∃ e, es[i]? = some e ∧ e.1.id = id) :
    (m.make (es.map some) index).Models (ds ++ [es]) := by
  refine h.add rfl (Nat.le_refl _) (Nat.le_refl _) (fun a ha => List.getElem?_append_left ha)
    (fun x hx => List.getElem?_append_left hx) ?_
  refine ⟨by simp [make], by simp [make], ?_, by simp, fun id i => ?_⟩
  · simp [make, array, List.take_of_length_le]
  · simpa [make, Store.index] using hindex id i

theorem new_models (h : m.Models ds) : m.new.Models (ds ++ [[]]) := by
  have hindex (id : KeyId) (i : Nat) : List.lookup id ([] : List (KeyId × Nat)) = some i ↔
      ∃ e, ([] : Dict)[i]? = some e ∧ e.1.id = id := by simp
  exact make_models h hindex

theorem copy_models (h : m.Models ds) (d : Nat) :
    (m.copy d).Models (ds ++ [ds[d]?.getD []]) := by
  unfold copy
  cases ho : m.objects[d]? with
  | none =>
    have hnone : ds[d]? = none := by
      rw [List.getElem?_eq_none_iff] at ho ⊢
      exact h.length ▸ ho
    rw [hnone]
    exact new_models h
  | some o =>
    obtain ⟨es, hes, hholds⟩ := h.dict ho
    rw [hes]
    simp only [hholds.cells]
    exact make_models h hholds.indexed

/-- Overwriting the value of an entry touches the array of its dictionary only. -/
theorem overwrite_changes (m : Store) (o : DictObject) (i : Nat) (v : Value) :
    m.Changes (m.overwrite o.array i v) o o where
  array := .inl rfl
  index := rfl
  arrays a _ hne := by simp [overwrite, hne.symm]
  indexes _ _ := rfl

/-- An entry is added, whether there was room for it or not. -/
theorem append_models (h : m.Models ds) (ho : m.objects[d]? = some o) (hes : m.Holds o es)
    (e : Key × Value) (hnew : (m.index o.index).lookup e.1.id = none) :
    (m.append grow d o e).Models (ds.set d (es ++ [e])) := by
  have hindexes (x : Nat) (hne : x ≠ o.index) :
      (m.indexes.modify o.index ((e.1.id, o.length) :: ·))[x]? = m.indexes[x]? := by
    simp [hne.symm]
  have hindex : (m.indexes.modify o.index ((e.1.id, o.length) :: ·))[o.index]? =
      some ((e.1.id, o.length) :: m.index o.index) := by
    simp [index, List.getElem?_eq_getElem hes.index_lt]
  have hcells := hes.cells
  rw [hes.length] at hcells
  by_cases hroom : o.length < (m.array o.array).length
  · have harray : (m.arrays.modify o.array (·.set o.length (some e)))[o.array]? =
        some ((m.array o.array).set o.length (some e)) := by
      simp [array, List.getElem?_eq_getElem hes.array_lt]
    simp only [append, if_pos hroom]
    refine h.change ho rfl ⟨.inl rfl, rfl, fun a _ hne => by simp [hne.symm], hindexes⟩ ?_
    refine hes.append hnew harray ?_ ?_ hindex
    · rw [hes.length, List.take_set_of_le (Nat.le_refl _), hcells]
    · rw [← hes.length, List.getElem?_set_self hroom]
  · simp only [append, if_neg hroom]
    refine h.change ho rfl
      ⟨.inr (Nat.le_refl _), rfl, fun a ha _ => List.getElem?_append_left ha, hindexes⟩ ?_
    refine hes.append hnew List.getElem?_concat_length ?_ ?_ hindex
    · rw [hes.length, hcells]
      simp
    · rw [hes.length, hcells]
      simp

/-- A value that cannot be a key is refused. -/
theorem set_of_none {key : Value} (h : Key.ofValue? key = none) (d : Nat) (value : Value) :
    m.set grow d key value = (false, m) := by
  rw [set, h]

theorem set_fst (d : Nat) (key value : Value) :
    (m.set grow d key value).1 = (Key.ofValue? key).isSome := by
  unfold set
  split
  · next h => rw [h]; rfl
  · next h =>
    rw [h]
    split
    · rfl
    · split <;> rfl

variable (grow) in
/-- Setting a value under a key: the dictionary has it then, and the others are as before. -/
theorem set_models (h : m.Models ds) (d : Nat) {key : Value} {k : Key}
    (hkey : Key.ofValue? key = some k) (value : Value) :
    (m.set grow d key value).2.Models (ds.modify d (Dict.set k value)) := by
  unfold set
  rw [hkey]
  dsimp only
  split
  · next ho =>
    rw [List.getElem?_eq_none_iff, h.length] at ho
    rw [List.modify_eq_self ho]
    exact h
  · next o ho =>
    obtain ⟨es, hes, hholds⟩ := h.dict ho
    rw [List.modify_eq_set, hes, Option.getD_some]
    split
    · next i hi =>
      refine h.change ho ?_ (m.overwrite_changes o i value) (hholds.overwrite hi value)
      obtain ⟨hlt, rfl⟩ := List.getElem?_eq_some_iff.mp ho
      exact (List.set_getElem_self hlt).symm
    · next hi =>
      rw [Dict.set_of_new (hholds.lookup_eq_none_iff.mp hi)]
      exact append_models h ho hholds (k, value) hi

/-- Every request has the effect that it should have, and no other. -/
theorem step_models (h : m.Models ds) (r : Request) : (m.step grow r).Models (r.apply ds) := by
  cases r with
  | new => exact new_models h
  | set d key value =>
    rw [step, Request.apply]
    split
    · next hkey =>
      rw [set_of_none hkey]
      exact h
    · next k hkey => exact set_models grow h d hkey value
  | copy d => exact copy_models h d

variable (grow) in
theorem run_models (h : m.Models ds) (rs : List Request) :
    (m.run grow rs).Models (rs.foldl Request.apply ds) := by
  induction rs generalizing m ds with
  | nil => exact h
  | cons r rs ih => exact ih (step_models h r)

/-! ## Merging -/

/-- Setting a value in a dictionary leaves all other objects alone. -/
theorem set_objects (m : Store) {d d' : Nat} (hne : d ≠ d') (key value : Value) :
    (m.set grow d key value).2.objects[d']? = m.objects[d']? := by
  unfold set
  split
  · rfl
  · split
    · rfl
    · split
      · rfl
      · unfold Store.append
        dsimp only
        split <;> exact List.getElem?_set_ne hne

theorem setAll_models {x y : Dict} (h : m.Models (ds ++ [x])) {b : Nat} (hb : ds[b]? = some y) :
    (m.setAll grow ds.length b).Models (ds ++ [Dict.merge x y]) := by
  obtain ⟨hlt, -⟩ := List.getElem?_eq_some_iff.mp hb
  have hstays (z : Dict) : (ds ++ [z])[b]? = some y := by
    rwa [List.getElem?_append_left hlt]
  obtain ⟨o, ho, hholds⟩ := h.object (hstays x)
  -- After `n` turns the first `n` entries have been set, and `b` is as it was.
  let turns (n : Nat) : Store :=
    (List.range n).foldl (fun m i => m.setCell grow ds.length o.array i) m
  suffices hturns : ∀ n ≤ y.length,
      (turns n).Models (ds ++ [Dict.merge x (y.take n)]) ∧ (turns n).objects[b]? = some o by
    have hall := (hturns y.length (Nat.le_refl _)).1
    rw [List.take_length, ← hholds.length] at hall
    rw [setAll, ho]
    exact hall
  intro n hn
  induction n with
  | zero => exact ⟨h, ho⟩
  | succ n ih =>
    obtain ⟨hdone, hob⟩ := ih (Nat.le_of_succ_le hn)
    have he : y[n]? = some y[n] := List.getElem?_eq_getElem hn
    have hturn : turns (n + 1) = ((turns n).set grow ds.length y[n].1.value y[n].2).2 := by
      simp only [turns, List.range_succ, List.foldl_append, List.foldl_cons, List.foldl_nil]
      rw [setCell, (hdone.holds hob (hstays _)).cell he]
    rw [hturn, List.take_add_one, he, Dict.merge_append]
    refine ⟨?_, (set_objects _ (Nat.ne_of_gt hlt) _ _).trans hob⟩
    have hset := set_models grow hdone ds.length (Key.ofValue?_value y[n].1) y[n].2
    simpa [List.modify_eq_set, Dict.merge_cons] using hset

variable (grow) in
/-- A merged dictionary is a new one; all others keep their entries. -/
theorem merge_models {x y : Dict} (h : m.Models ds) {a b : Nat} (ha : ds[a]? = some x)
    (hb : ds[b]? = some y) : (m.merge grow a b).Models (ds ++ [Dict.merge x y]) := by
  have hcopy := copy_models h a
  rw [ha, Option.getD_some] at hcopy
  rw [merge, next, h.length]
  exact setAll_models hcopy hb

/-- All dictionaries that the first memory has are in the second one as they were. -/
structure Keeps (m m' : Store) : Prop where
  pairs : ∀ d < m.next, m'.pairs d = m.pairs d
  get : ∀ d < m.next, ∀ key, m'.get d key = m.get d key

theorem Models.keeps {more : List Dict} (h : m.Models ds) (h' : m'.Models (ds ++ more)) :
    m.Keeps m' := by
  have hsame {d : Nat} (hd : d < m.next) :
      ∃ es, ds[d]? = some es ∧ (ds ++ more)[d]? = some es := by
    rw [next, h.length] at hd
    have hes : ds[d]? = some ds[d] := List.getElem?_eq_getElem hd
    exact ⟨_, hes, (List.getElem?_append_left hd).trans hes⟩
  constructor
  · intro d hd
    obtain ⟨es, hes, hes'⟩ := hsame hd
    rw [h'.pairs hes', h.pairs hes]
  · intro d hd key
    obtain ⟨es, hes, hes'⟩ := hsame hd
    rw [h'.get hes', h.get hes]

/-! ## Any requests -/

/-- The entries that were set in each dictionary, and in what it was copied from before, once there
is another request. -/
def Request.record (hs : List (List (Key × Value))) : Request → List (List (Key × Value))
  | .new => hs ++ [[]]
  | .set d key value =>
    match Key.ofValue? key with
    | none => hs
    | some k => hs.modify d (· ++ [(k, value)])
  | .copy d => hs ++ [hs[d]?.getD []]

/-- The entries that were set in each dictionary, if these requests were made. -/
def history (rs : List Request) : List (List (Key × Value)) := rs.foldl Request.record []

theorem ofEntries_concat (es : List (Key × Value)) (e : Key × Value) :
    Dict.ofEntries (es ++ [e]) = Dict.set e.1 e.2 (Dict.ofEntries es) := Dict.merge_append [] es [e]

theorem apply_ofEntries (hs : List (List (Key × Value))) (r : Request) :
    r.apply (hs.map Dict.ofEntries) = (r.record hs).map Dict.ofEntries := by
  have hempty : Dict.ofEntries [] = [] := rfl
  cases r with
  | new => simp [Request.apply, Request.record, hempty]
  | set d key value =>
    rw [Request.apply, Request.record]
    cases Key.ofValue? key with
    | none => rfl
    | some k =>
      refine List.ext_getElem? fun i => ?_
      simp only [List.getElem?_modify, List.getElem?_map]
      cases hs[i]? with
      | none => rfl
      | some es => by_cases hi : d = i <;> simp [hi, ofEntries_concat]
  | copy d =>
    rw [Request.apply, Request.record, List.map_append, List.getElem?_map]
    cases hs[d]? <;> rfl

/-- After any requests the dictionaries have the entries that were set in them. -/
theorem history_models (grow : Nat → Nat) (rs : List Request) :
    (run {} grow rs).Models ((history rs).map Dict.ofEntries) := by
  have hfold (hs : List (List (Key × Value))) :
      rs.foldl Request.apply (hs.map Dict.ofEntries) =
        (rs.foldl Request.record hs).map Dict.ofEntries := by
    induction rs generalizing hs with
    | nil => rfl
    | cons r rs ih => rw [List.foldl_cons, apply_ofEntries, ih, List.foldl_cons]
  have hrun := run_models grow Models.empty rs
  have hnil := hfold []
  rw [List.map_nil] at hnil
  rwa [hnil] at hrun

/-- Requests that set nothing in a dictionary leave its entries as they are. -/
theorem apply_getElem? {r : Request} (hr : ∀ key value, r ≠ .set d key value)
    (hd : ds[d]? = some es) : (r.apply ds)[d]? = some es := by
  obtain ⟨hlt, -⟩ := List.getElem?_eq_some_iff.mp hd
  cases r with
  | new => rwa [Request.apply, List.getElem?_append_left hlt]
  | copy d' => rwa [Request.apply, List.getElem?_append_left hlt]
  | set d' key value =>
    have hne : d' ≠ d := fun heq => hr key value (by rw [heq])
    rw [Request.apply]
    split
    · exact hd
    · rwa [List.getElem?_modify_ne _ _ hne]

theorem applyAll_getElem? {rs : List Request} (hrs : ∀ key value, .set d key value ∉ rs)
    (hd : ds[d]? = some es) : (rs.foldl Request.apply ds)[d]? = some es := by
  induction rs generalizing ds with
  | nil => exact hd
  | cons r rs ih =>
    refine ih (fun key value h => hrs key value (List.mem_cons_of_mem r h)) (apply_getElem? ?_ hd)
    exact fun key value h => hrs key value (h ▸ List.mem_cons_self)

/-- The dictionary is the map that these sets make, in the order in which keys are first set. -/
structure Ordered (m : Store) (d : Nat) (sets : List (Key × Value)) : Prop where
  /-- The keys differ. -/
  distinct : (m.pairs d).Pairwise fun e e' => e.1.id ≠ e'.1.id
  /-- The index has the position of each entry under its key, and nothing else. -/
  indexed : ∀ id i, m.position d id = some i ↔ ∃ e, (m.pairs d)[i]? = some e ∧ e.1.id = id
  /-- Under each key there is the value that was set last, if there was one. -/
  get : ∀ key, m.get d key = (Key.ofValue? key).bind fun k =>
    (sets.reverse.find? (·.1.id = k.id)).map (·.2)
  /-- Each key has the place at which it was set first. -/
  order : (m.pairs d).map (·.1) = (sets.map (·.1)).eraseDupsBy fun k l => k.id == l.id
  /-- The evaluator computes with the same entries and the same values under keys. -/
  pairs : m.pairs d = Dict.ofEntries sets
  get_pairs : ∀ key, m.get d key = Dict.lookup key (m.pairs d)

theorem Models.ordered (h : m.Models ds) {sets : List (Key × Value)}
    (hd : ds[d]? = some (Dict.ofEntries sets)) : m.Ordered d sets := by
  obtain ⟨o, ho, hholds⟩ := h.object hd
  have hpairs := h.pairs hd
  refine ⟨?_, fun id i => ?_, fun key => ?_, ?_, hpairs, fun key => ?_⟩
  · rw [hpairs]
    exact hholds.distinct
  · rw [hpairs]
    exact hholds.position ho id i
  · rw [h.get hd, Dict.lookup]
    cases Key.ofValue? key with
    | none => rfl
    | some k =>
      rw [Option.bind_some, Option.bind_some, Dict.ofEntries, Dict.get?_merge_find?]
      exact Option.or_none
  · rw [hpairs, Dict.ofEntries]
    have hkeys := Dict.keys_merge [] sets
    simpa [Dict.keys, Dict.has, Dict.get?] using hkeys
  · rw [hpairs]
    exact h.get hd key

/-- After any requests, and however arrays grow, a dictionary is the map of the sets that made it, in
order of insertion. A value that cannot be a key is refused and changes nothing. A copy starts with
the same entries, and from then on neither of the two is affected by what is set in the other one,
nor by any other request. -/
theorem run_ordered (grow : Nat → Nat) (rs : List Request) (d : Nat) (sets : List (Key × Value))
    (h : (history rs)[d]? = some sets) :
    let m := run {} grow rs
    m.Ordered d sets ∧
      (∀ key value, (m.set grow d key value).1 = (Key.ofValue? key).isSome) ∧
      (∀ key value, Key.ofValue? key = none → m.set grow d key value = (false, m)) ∧
      (m.copy d).Ordered m.next sets ∧
      ∀ later, (∀ key value, .set d key value ∉ later) → (m.run grow later).Ordered d sets := by
  intro m
  have hmodels : m.Models ((history rs).map Dict.ofEntries) := history_models grow rs
  have hd : ((history rs).map Dict.ofEntries)[d]? = some (Dict.ofEntries sets) := by
    rw [List.getElem?_map, h]
    rfl
  refine ⟨hmodels.ordered hd, set_fst d, fun key value hkey => set_of_none hkey d value, ?_,
    fun later hlater => ?_⟩
  · refine (copy_models hmodels d).ordered ?_
    rw [next, hmodels.length, hd]
    exact List.getElem?_concat_length
  · exact (run_models grow hmodels later).ordered (applyAll_getElem? hlater hd)

/-- A dictionary whose text `a` is set again after it was copied, while the copy gets a key more and
a list is refused as a key. -/
theorem run_ordered_copied :
    let text (s : String) : Value := .text s .fresh
    let rs : List Request := [.new, .set 0 (text "a") (text "x"), .set 0 (text "b") .nil, .copy 0,
      .set 0 (.list [] .fresh) .nil, .set 0 (text "a") (text "y"), .set 1 (text "c") .nil]
    let sets : List (Key × Value) :=
      [(.text "a" .fresh, text "x"), (.text "b" .fresh, .nil), (.text "a" .fresh, text "y")]
    let m := run {} id rs
    (history rs)[0]? = some sets ∧
    m.Ordered 0 sets ∧
      (∀ key value, (m.set id 0 key value).1 = (Key.ofValue? key).isSome) ∧
      (∀ key value, Key.ofValue? key = none → m.set id 0 key value = (false, m)) ∧
      (m.copy 0).Ordered m.next sets ∧
      ∀ later, (∀ key value, .set 0 key value ∉ later) → (m.run id later).Ordered 0 sets :=
  ⟨rfl, run_ordered id _ 0 _ rfl⟩

end Store

end TreeLang
