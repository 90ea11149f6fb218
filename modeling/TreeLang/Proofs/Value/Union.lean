import TreeLang.Eval.Builtins
import TreeLang.Proofs.Value.Store

/-!
# The union of dictionaries

The builtin function `merge` is a union in which the right dictionary wins: it is associative, the
empty dictionary is neutral on both sides, and every dictionary is its own union with itself. What
`get` and `keys` say of a merged dictionary they say of the two that it was made from. In memory a
merged dictionary is a new one, and all that were there stay as they were.

Main statement: `merge_union`.
-/

namespace TreeLang

open Dict

/-! ## Builtin functions on dictionaries -/

namespace Primitive

variable (call : Value → List Value → Exec Value) (d : Dict) (i : Identity)

theorem run_get (key : Value) :
    get.run call [.dict d i, key] = Exec.pure ((lookup key d).getD .nil) := rfl

theorem run_keys :
    keys.run call [.dict d i] = Exec.pure (.list ((Dict.keys d).map Key.value) .fresh) := by
  simp only [run, pureResult, asDict, Dict.keys, List.map_map]
  rfl

theorem run_merge (d' : Dict) (i' : Identity) :
    merge.run call [.dict d i, .dict d' i'] = Exec.pure (.dict (Dict.merge d d') .fresh) := rfl

/-- In a merged dictionary `get` finds what it finds in the right one, if that has the key, and else
what it finds in the left one. -/
theorem run_get_merge {d' : Dict} (hd' : Distinct d') (i' : Identity) (key : Value) :
    get.run call [.dict (Dict.merge d d') i, key] =
      if (lookup key d').isSome then get.run call [.dict d' i', key]
      else get.run call [.dict d i, key] := by
  rw [run_get, run_get, run_get, lookup_merge hd']
  cases lookup key d' <;> rfl

end Primitive

namespace Store

/-- A merged dictionary in memory has the merged entries, and all others stay as they were. -/
theorem run_merge_pairs (grow : Nat → Nat) (rs : List Request) {x y : Nat}
    (hx : x < (run {} grow rs).next) (hy : y < (run {} grow rs).next) :
    let m := run {} grow rs
    (m.merge grow x y).pairs m.next = Dict.merge (m.pairs x) (m.pairs y) ∧
      m.Keeps (m.merge grow x y) := by
  intro m
  have hmodels : m.Models ((history rs).map Dict.ofEntries) := history_models grow rs
  generalize (history rs).map Dict.ofEntries = ds at hmodels
  rw [next, hmodels.length] at hx hy
  have hmerged := merge_models grow hmodels (List.getElem?_eq_getElem hx)
    (List.getElem?_eq_getElem hy)
  rw [hmodels.pairs (List.getElem?_eq_getElem hx), hmodels.pairs (List.getElem?_eq_getElem hy)]
  refine ⟨hmerged.pairs ?_, hmodels.keeps hmerged⟩
  rw [next, hmodels.length]
  exact List.getElem?_concat_length

end Store

/-- The builtin function `merge` makes the union of two dictionaries in which the right one wins. -/
structure Unites (a b : Dict) : Prop where
  value : ∀ call i j, Primitive.merge.run call [.dict a i, .dict b j] =
    Exec.pure (.dict (merge a b) .fresh)
  /-- Under a key that the right dictionary has there is its value. -/
  get : ∀ call i j key, Primitive.get.run call [.dict (merge a b) i, key] =
    if (lookup key b).isSome then Primitive.get.run call [.dict b j, key]
    else Primitive.get.run call [.dict a i, key]
  /-- The keys of the left dictionary come first, then those that only the right one has. -/
  keys : ∀ call i, Primitive.keys.run call [.dict (merge a b) i] =
    Exec.pure (.list ((keys a ++ (keys b).filter fun k => !has k a).map Key.value) .fresh)
  /-- Wherever the two are in memory, the union is a new dictionary, and they stay as they were. -/
  memory : ∀ grow rs x y, let m := Store.run {} grow rs
    x < m.next → y < m.next → m.pairs x = a → m.pairs y = b →
      (m.merge grow x y).pairs m.next = merge a b ∧ m.Keeps (m.merge grow x y)

theorem unites (a : Dict) {b : Dict} (hb : Distinct b) : Unites a b where
  value _ _ _ := rfl
  get call i j key := Primitive.run_get_merge call a i hb j key
  keys call i := by rw [Primitive.run_keys, keys_merge_of_distinct a hb]
  memory := by
    rintro grow rs x y m hx hy rfl rfl
    exact Store.run_merge_pairs grow rs hx hy

/-- Merging is associative, with the same entries in the same order, the empty dictionary is neutral
and a dictionary merged with itself is the same; and it makes the union in which the right one
wins. -/
theorem merge_union {a b c : Dict} (ha : Distinct a) (hb : Distinct b) (hc : Distinct c) :
    merge (merge a b) c = merge a (merge b c) ∧
      merge a [] = a ∧ merge [] a = a ∧ merge a a = a ∧ Unites a b :=
  ⟨merge_assoc ha hb hc, merge_nil a, nil_merge ha, merge_self ha, unites a hb⟩

/-- Three dictionaries that share a key, each with a key that the others do not have. -/
theorem sharing_union :
    let entry (k v : String) : Key × Value := (.text k .fresh, .text v .fresh)
    let a := [entry "k" "1", entry "a" "1"]
    let b := [entry "b" "2", entry "k" "2"]
    let c := [entry "k" "3", entry "c" "3"]
    (Distinct a ∧ Distinct b ∧ Distinct c) ∧
      merge (merge a b) c = merge a (merge b c) ∧
      merge a [] = a ∧ merge [] a = a ∧ merge a a = a ∧ Unites a b := by
  intro entry a b c
  have ha : Distinct a := by
    unfold Distinct
    decide
  have hb : Distinct b := by
    unfold Distinct
    decide
  have hc : Distinct c := by
    unfold Distinct
    decide
  exact ⟨⟨ha, hb, hc⟩, merge_union ha hb hc⟩

end TreeLang
