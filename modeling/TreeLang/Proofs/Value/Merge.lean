import Mathlib.Data.List.Basic
import TreeLang.Proofs.Value.Keys

/-!
# Setting entries one after the other

What a dictionary has, and in which order, after many entries have been set: under each key the last
value, at the place of the first entry with that key. Merging sets the entries of one dictionary in
another one, so this is also what a merged dictionary has. A dictionary whose keys differ is known
by its keys in order and by what is found under them (`eq_of_keys_of_get?`), and with that the
equations of merging are read off: it is associative, the empty dictionary is neutral, and merging a
dictionary with itself changes nothing.
-/

namespace TreeLang.Dict

variable {a b c d : Dict} {k l : Key} {v : Value}

/-- The keys of a dictionary in order. -/
def keys (d : Dict) : List Key := d.map (·.1)

/-- The dictionary has a value under the key. -/
def has (k : Key) (d : Dict) : Bool := (get? k d).isSome

/-- What is found under a value, if it can be a key. -/
def lookup (key : Value) (d : Dict) : Option Value := (Key.ofValue? key).bind fun k => get? k d

/-- The dictionary that has entries set one after the other, from the empty one on. -/
def ofEntries (es : List (Key × Value)) : Dict := merge [] es

@[simp] theorem keys_append (a b : Dict) : keys (a ++ b) = keys a ++ keys b := List.map_append

@[simp] theorem merge_nil (a : Dict) : merge a [] = a := rfl

theorem merge_cons (a : Dict) (e : Key × Value) (b : Dict) :
    merge a (e :: b) = merge (set e.1 e.2 a) b := rfl

theorem merge_append (a b c : Dict) : merge a (b ++ c) = merge (merge a b) c := List.foldl_append

/-- The value of an entry that is there is replaced in its place. -/
theorem set_of_getElem? {i : Nat} {e : Key × Value} (hd : Distinct d) (he : d[i]? = some e)
    (hk : e.1.id = k.id) : set k v d = d.modify i fun e => (e.1, v) := by
  induction d generalizing i with
  | nil => cases he
  | cons e₀ d ih =>
    obtain ⟨hhead, htail⟩ := List.pairwise_cons.mp hd
    cases i with
    | zero =>
      cases he
      rw [set, if_pos hk]
      rfl
    | succ i =>
      rw [set, if_neg (by rw [← hk]; exact hhead e (List.mem_of_getElem? he)), ih htail he]
      rfl

/-! ## Looking up -/

theorem get?_set (k l : Key) (v : Value) (d : Dict) :
    get? l (set k v d) = if k.id = l.id then some v else get? l d := by
  induction d with
  | nil => rfl
  | cons e d ih =>
    rcases e with ⟨k', w⟩
    rw [set]
    split
    · next hk =>
      simp only [get?, hk]
      split <;> rfl
    · next hk =>
      simp only [get?, ih]
      split
      · next hl => rw [if_neg fun h => hk (hl.trans h.symm)]
      · rfl

theorem get?_eq_find? (k : Key) (d : Dict) :
    get? k d = (d.find? (·.1.id = k.id)).map (·.2) := by
  induction d with
  | nil => rfl
  | cons e d ih =>
    rcases e with ⟨k', w⟩
    rw [get?, List.find?_cons]
    by_cases h : k'.id = k.id
    · simp [h]
    · simp [h, ih]

theorem has_iff : has k d = true ↔ ∃ l ∈ keys d, l.id = k.id := by
  rw [has, get?_eq_find?, Option.isSome_map, List.find?_isSome]
  simp [keys]

/-- Of the entries that are set under a key the last one counts. -/
theorem get?_merge_find? (k : Key) (a b : Dict) :
    get? k (merge a b) = ((b.reverse.find? (·.1.id = k.id)).map (·.2)).or (get? k a) := by
  induction b generalizing a with
  | nil => rfl
  | cons e b ih =>
    rw [merge_cons, ih, get?_set, List.reverse_cons, List.find?_append]
    cases b.reverse.find? (·.1.id = k.id) with
    | some x => rfl
    | none =>
      by_cases h : e.1.id = k.id
      · simp [h]
      · simp [h]

theorem has_merge (k : Key) (a b : Dict) : has k (merge a b) = (has k a || has k b) := by
  rw [has, get?_merge_find?, Option.isSome_or, Option.isSome_map, Bool.or_comm]
  refine congrArg (has k a || ·) ?_
  rw [Bool.eq_iff_iff, has_iff, List.find?_isSome]
  simp [keys]

/-- Where keys differ there is one entry under a key, whichever end one looks from. -/
theorem find?_reverse (hd : Distinct d) (k : Key) :
    d.reverse.find? (·.1.id = k.id) = d.find? (·.1.id = k.id) := by
  induction d with
  | nil => rfl
  | cons e d ih =>
    obtain ⟨hhead, htail⟩ := List.pairwise_cons.mp hd
    rw [List.reverse_cons, List.find?_append, ih htail, List.find?_cons]
    by_cases h : e.1.id = k.id
    · have hnone : d.find? (·.1.id = k.id) = none := by
        rw [List.find?_eq_none]
        intro e' he'
        rw [← h]
        simpa using (hhead e' he').symm
      simp [h, hnone]
    · simp [h]

/-- The right dictionary overrides the left one. -/
theorem get?_merge (hb : Distinct b) (k : Key) :
    get? k (merge a b) = (get? k b).or (get? k a) := by
  rw [get?_merge_find?, find?_reverse hb, ← get?_eq_find?]

theorem lookup_merge (hb : Distinct b) (key : Value) :
    lookup key (merge a b) = (lookup key b).or (lookup key a) := by
  unfold lookup
  cases Key.ofValue? key with
  | none => rfl
  | some k => exact get?_merge hb k

/-! ## The order of keys -/

/-- A key that is there keeps its place; a new one goes to the end. -/
theorem keys_set (k : Key) (v : Value) (d : Dict) :
    keys (set k v d) = if has k d then keys d else keys d ++ [k] := by
  induction d with
  | nil => rfl
  | cons e d ih =>
    rcases e with ⟨k', w⟩
    by_cases h : k'.id = k.id
    · simp [set, has, get?, keys, h]
    · have hhas : has k ((k', w) :: d) = has k d := by simp [has, get?, h]
      rw [hhas, set, if_neg h]
      simp only [keys, List.map_cons] at ih ⊢
      rw [ih]
      split <;> rfl

/-- New keys go to the end in the order in which they are first set. -/
theorem keys_merge (a b : Dict) :
    keys (merge a b) =
      keys a ++ ((keys b).filter fun k => !has k a).eraseDupsBy fun k l => k.id == l.id := by
  induction b generalizing a with
  | nil => simp [keys, List.eraseDupsBy, List.eraseDupsBy.loop]
  | cons e b ih =>
    rw [merge_cons, ih, keys_set]
    have hcons : keys (e :: b) = e.1 :: keys b := rfl
    have hnext (k : Key) : has k (set e.1 e.2 a) = (e.1.id == k.id || has k a) := by
      rw [has, get?_set]
      by_cases h : e.1.id = k.id
      · simp [h]
      · simp [h, has]
    cases h : has e.1 a with
    | true =>
      -- No key of `b` that is new to `a` is this one, so the filters agree.
      have hsame (k : Key) : (e.1.id == k.id || has k a) = has k a := by
        by_cases hk : e.1.id = k.id
        · rw [has_iff] at h
          rw [hk] at h
          simp [has_iff.mpr h]
        · simp [hk]
      simp [hcons, h, hnext, hsame]
    | false =>
      rw [hcons, List.filter_cons_of_pos (by simp [h]), List.eraseDupsBy_cons, List.filter_filter]
      simp only [hnext, Bool.false_eq_true, if_false, List.append_assoc, List.singleton_append,
        Bool.not_or]
      refine congrArg (fun ks => keys a ++ e.1 :: List.eraseDupsBy _ ks) ?_
      refine List.filter_congr fun k _ => ?_
      simp [eq_comm (a := k.id), beq_eq_decide]

/-- Of keys that differ none is dropped. -/
theorem eraseDupsBy_of_pairwise {ks : List Key} (h : ks.Pairwise fun k l => k.id ≠ l.id) :
    (ks.eraseDupsBy fun k l => k.id == l.id) = ks := by
  induction ks with
  | nil => rfl
  | cons k ks ih =>
    obtain ⟨hhead, htail⟩ := List.pairwise_cons.mp h
    have hkeep : ks.filter (fun l => (l.id == k.id) = false) = ks := by
      rw [List.filter_eq_self]
      intro l hl
      simpa using (hhead l hl).symm
    rw [List.eraseDupsBy_cons, hkeep, ih htail]

theorem distinct_iff : Distinct d ↔ (keys d).Pairwise fun k l => k.id ≠ l.id := by
  rw [keys, List.pairwise_map]
  rfl

/-- The keys of the left dictionary come first, then those that only the right one has. -/
theorem keys_merge_of_distinct (a : Dict) (hb : Distinct b) :
    keys (merge a b) = keys a ++ (keys b).filter fun k => !has k a := by
  rw [keys_merge, eraseDupsBy_of_pairwise]
  exact (distinct_iff.mp hb).sublist List.filter_sublist

/-! ## Equal dictionaries -/

/-- Two dictionaries with the same keys in the same order and the same values under them are the
same. -/
theorem eq_of_keys_of_get? (ha : Distinct a) (hb : Distinct b) (hkeys : keys a = keys b)
    (hget : ∀ k, get? k a = get? k b) : a = b := by
  have hlen : a.length = b.length := by simpa [keys] using congrArg List.length hkeys
  refine List.ext_getElem hlen fun i hi hi' => ?_
  have hkey : a[i].1 = b[i].1 := by
    have := List.getElem_of_eq hkeys (i := i) (by simpa [keys] using hi)
    simpa [keys] using this
  have hvalue := hget a[i].1
  rw [get?_of_mem ha (List.getElem_mem hi) rfl,
    get?_of_mem hb (List.getElem_mem hi') (congrArg Key.id hkey.symm)] at hvalue
  exact Prod.ext hkey (Option.some.inj hvalue)

theorem distinct_ofEntries (es : List (Key × Value)) : Distinct (ofEntries es) :=
  merge_distinct .nil

theorem nil_merge (ha : Distinct a) : merge [] a = a := by
  refine eq_of_keys_of_get? (distinct_ofEntries a) ha ?_ fun k => ?_
  · rw [keys_merge_of_distinct [] ha]
    simp [keys, has, get?]
  · rw [get?_merge ha]
    exact Option.or_none

theorem merge_self (ha : Distinct a) : merge a a = a := by
  refine eq_of_keys_of_get? (merge_distinct ha) ha ?_ fun k => ?_
  · rw [keys_merge_of_distinct a ha]
    have hnone : (keys a).filter (fun k => !has k a) = [] := by
      rw [List.filter_eq_nil_iff]
      intro k hk
      simpa using has_iff.mpr ⟨k, hk, rfl⟩
    rw [hnone, List.append_nil]
  · rw [get?_merge ha]
    exact Option.or_self

theorem merge_assoc (ha : Distinct a) (hb : Distinct b) (hc : Distinct c) :
    merge (merge a b) c = merge a (merge b c) := by
  have hab : Distinct (merge a b) := merge_distinct ha
  have hbc : Distinct (merge b c) := merge_distinct hb
  refine eq_of_keys_of_get? (merge_distinct hab) (merge_distinct ha) ?_ fun k => ?_
  · rw [keys_merge_of_distinct _ hc, keys_merge_of_distinct _ hb, keys_merge_of_distinct _ hbc,
      keys_merge_of_distinct _ hc, List.filter_append, List.filter_filter, List.append_assoc]
    -- A key of `c` is new to both, whether they are merged before or not.
    simp only [has_merge, Bool.not_or]
  · rw [get?_merge hc, get?_merge hb, get?_merge hbc, get?_merge hc, Option.or_assoc]

end TreeLang.Dict
