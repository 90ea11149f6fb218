import Mathlib
import TreeLang.Proofs.Decimal.Written
import TreeLang.Proofs.Value.Union

/-!
# Keys by their text, and equality

A dictionary files an entry under the kind of its key and the text of the key, while equality
compares numbers. The text of a number determines the number, so the two agree, but for two things:
the zeros are equal and have different texts, and NaN has a text but does not equal itself. What
`hasKey` finds is therefore a key that is equal, where the zero of the other sign does not count and
NaN counts as one key.

Main statement: `hasKey_iff_equal`.
-/

namespace TreeLang

open Dict

namespace Value

/-- The value is the number that does not equal itself. -/
def IsNaN : Value → Prop
  | .number x _ => x.isNaN = true
  | _ => False

/-- The values are zeros of different signs. -/
def AreZeros : Value → Value → Prop
  | .number x _, .number y _ => (x = 0 ∧ y = -0) ∨ (x = -0 ∧ y = 0)
  | _, _ => False

end Value

/-! ## Numbers -/

/-- Numbers are equal if they are the same, NaN apart, or the two zeros. -/
theorem equal_number_iff {x y : Float} {i j : Identity} :
    (Value.number x i).equal (.number y j) = true ↔
      (x = y ∧ x.isNaN = false) ∨ (Value.number x i).AreZeros (.number y j) := by
  have hzero : (0 : Float) ≠ Float.nan ∧ (-0 : Float) ≠ Float.nan := by
    simp only [← decide_eq_false_iff_not, ← Float.isNaN_eq_decide_eq_nan]
    decide +kernel
  have hnan (z : Float) : z.isNaN = false ↔ z ≠ Float.nan := by
    rw [Float.isNaN_eq_decide_eq_nan, decide_eq_false_iff_not]
  rw [Value.equal, Float.beq_iff_ne_nan_and_eq, Value.AreZeros, hnan]
  constructor
  · rintro ⟨hx, -, h | h | h⟩
    · exact .inl ⟨h, hx⟩
    · exact .inr (.inl h)
    · exact .inr (.inr h)
  · rintro (⟨rfl, hx⟩ | ⟨rfl, rfl⟩ | ⟨rfl, rfl⟩)
    · exact ⟨hx, hx, .inl rfl⟩
    · exact ⟨hzero.1, hzero.2, .inr (.inl ⟨rfl, rfl⟩)⟩
    · exact ⟨hzero.2, hzero.1, .inr (.inr ⟨rfl, rfl⟩)⟩

namespace Key

variable {k l : Key}

/-- What an entry is filed under: the kind of its key and the text of the key. -/
def filed (k : Key) : String × String := (k.value.kind, k.value.inspect)

theorem id_number {x y : Float} {i j : Identity} : (number x i).id = (number y j).id ↔ x = y := by
  have hpattern {z : Float} (h : z.toBits = 0x7FF8000000000001) : z.isNaN = true := by
    have hunpacked : (Float.Model.UnpackedFloat.unpack .binary64 z.toBits.toBitVec).isNaN = true := by
      rw [h]
      decide
    exact hunpacked
  refine ⟨fun h => ?_, fun h => by rw [h]; rfl⟩
  simp only [id, KeyId.number.injEq] at h
  split at h <;> split at h
  · next hx hy =>
    rw [Float.isNaN_eq_decide_eq_nan, decide_eq_true_eq] at hx hy
    rw [hx, hy]
  · next hy => exact absurd (hpattern h.symm) hy
  · next hx _ => exact absurd (hpattern h) hx
  · exact Float.toBits_inj.mp h

/-- Keys with the same kind and text are the same key. -/
theorem filed_inj : k.filed = l.filed ↔ k.id = l.id := by
  have htext (b c : Bool) : Value.boolText b = Value.boolText c ↔ b = c := by
    cases b <;> cases c <;> decide
  cases k <;> cases l
  case number.number x i y j =>
    rw [id_number, ← Decimal.written_inj]
    simp [filed, value, Value.kind, Value.inspect]
  case text.text => simp [filed, value, Value.kind, Value.inspect, id]
  case bool.bool => simp [filed, value, Value.kind, Value.inspect, id, htext]
  all_goals simp [filed, value, Value.kind, id]

/-- The same key is an equal value that is not the other zero, or NaN. -/
theorem id_eq_iff_equal :
    k.id = l.id ↔
      (k.value.equal l.value = true ∧ ¬k.value.AreZeros l.value) ∨
        (k.value.IsNaN ∧ l.value.IsNaN) := by
  cases k <;> cases l
  case number.number x i y j =>
    have hzeros : (0 : Float) ≠ -0 := by
      rw [ne_eq, ← Float.toBits_inj]
      decide
    rw [id_number, value, value, equal_number_iff]
    simp only [Value.IsNaN]
    constructor
    · rintro rfl
      have hsame : ¬(Value.number x i).AreZeros (.number x j) := by
        rintro (⟨h, h'⟩ | ⟨h, h'⟩)
        · exact hzeros (h.symm.trans h')
        · exact hzeros (h'.symm.trans h)
      cases hnan : x.isNaN with
      | true => exact .inr ⟨rfl, rfl⟩
      | false => exact .inl ⟨.inl ⟨rfl, rfl⟩, hsame⟩
    · rintro (⟨⟨h, -⟩ | h, hne⟩ | ⟨hx, hy⟩)
      · exact h
      · exact absurd h hne
      · rw [Float.isNaN_eq_decide_eq_nan, decide_eq_true_eq] at hx hy
        rw [hx, hy]
  case text.text => simp [id, value, Value.equal, Value.AreZeros, Value.IsNaN]
  case bool.bool => simp [id, value, Value.equal, Value.AreZeros, Value.IsNaN]
  all_goals simp [id, value, Value.equal, Value.IsNaN]

end Key

/-! ## Dictionaries -/

theorem Primitive.run_hasKey (call : Value → List Value → Exec Value) (d : Dict) (i : Identity)
    (k : Key) :
    hasKey.run call [.dict d i, k.value] = Exec.pure (.bool (has k d) .shared) := by
  cases k <;> rfl

namespace Store

/-- After any requests the dictionaries in memory have different keys, and the value under a key is
the one that the evaluator finds. -/
theorem run_pairs (grow : Nat → Nat) (rs : List Request) (d : Nat) :
    let m := run {} grow rs
    Distinct (m.pairs d) ∧ ∀ key, m.get d key = Dict.lookup key (m.pairs d) := by
  intro m
  have hmodels : m.Models ((history rs).map Dict.ofEntries) := history_models grow rs
  cases hd : ((history rs).map Dict.ofEntries)[d]? with
  | some es =>
    obtain ⟨o, -, hholds⟩ := hmodels.object hd
    rw [hmodels.pairs hd]
    exact ⟨hholds.distinct, hmodels.get hd⟩
  | none =>
    have hlen : m.objects.length ≤ d := by
      rw [hmodels.length]
      exact List.getElem?_eq_none_iff.mp hd
    have hnone : m.objects[d]? = none := List.getElem?_eq_none hlen
    have hpairs : m.pairs d = [] := by simp [pairs, hnone]
    rw [hpairs]
    refine ⟨.nil, fun key => ?_⟩
    cases h : Key.ofValue? key <;> simp [get, Dict.lookup, Dict.get?, h, hnone]

end Store

/-- Of every dictionary that sets have made, and every number, text or truth value: `hasKey` is true
if and only if some key of the dictionary has this kind and text. And that is so if and only if some
key of it equals the value and is not the zero of the other sign, or both are NaN. Two of its keys
are equal only as the two zeros, and one of them at most is NaN. -/
theorem hasKey_iff_equal (grow : Nat → Nat) (rs : List Store.Request) (d : Nat)
    (call : Value → List Value → Exec Value) (i : Identity) (k : Key) :
    let m := Store.run {} grow rs
    ∃ found keys,
      Primitive.hasKey.run call [.dict (m.pairs d) i, k.value] =
        Exec.pure (.bool found .shared) ∧
      (m.get d k.value).isSome = found ∧
      Primitive.keys.run call [.dict (m.pairs d) i] = Exec.pure (.list keys .fresh) ∧
      (found = true ↔ ∃ v ∈ keys, v.kind = k.value.kind ∧ v.inspect = k.value.inspect) ∧
      (found = true ↔ ∃ v ∈ keys,
        (v.equal k.value = true ∧ ¬v.AreZeros k.value) ∨ (v.IsNaN ∧ k.value.IsNaN)) ∧
      keys.Pairwise fun v w => (v.equal w = true → v.AreZeros w) ∧ ¬(v.IsNaN ∧ w.IsNaN) := by
  intro m
  obtain ⟨hdistinct, hget⟩ := Store.run_pairs grow rs d
  refine ⟨has k (m.pairs d), (Dict.keys (m.pairs d)).map Key.value,
    Primitive.run_hasKey call (m.pairs d) i k, ?_, Primitive.run_keys call (m.pairs d) i, ?_, ?_, ?_⟩
  · rw [hget]
    cases k <;> rfl
  · simp only [has_iff, List.mem_map, exists_exists_and_eq_and, ← Key.filed_inj, Key.filed,
      Prod.mk.injEq]
  · simp only [has_iff, List.mem_map, exists_exists_and_eq_and, Key.id_eq_iff_equal]
  · rw [List.pairwise_map]
    refine (distinct_iff.mp hdistinct).imp fun {l l'} hne => ?_
    rw [ne_eq, Key.id_eq_iff_equal, not_or, not_and_not_right] at hne
    exact hne

/-- Equality does not tell the zeros apart, and a dictionary does: with `0` as its only key it does
not have the key `-0`. -/
theorem not_hasKey_iff_equal :
    ¬∀ (grow : Nat → Nat) (rs : List Store.Request) (d : Nat)
        (call : Value → List Value → Exec Value) (i : Identity) (k : Key),
      let m := Store.run {} grow rs
      ∃ found keys,
        Primitive.hasKey.run call [.dict (m.pairs d) i, k.value] =
          Exec.pure (.bool found .shared) ∧
        Primitive.keys.run call [.dict (m.pairs d) i] = Exec.pure (.list keys .fresh) ∧
        (found = true ↔ ∃ v ∈ keys, v.equal k.value = true) ∧
        keys.Pairwise fun v w => v.equal w = false := by
  intro h
  let zero : Value := .number 0 .fresh
  obtain ⟨found, keys, hfound, hkeys, hiff, -⟩ :=
    h id [.new, .set 0 zero .nil] 0 (fun _ _ => Exec.pure .nil) .fresh (.number (-0) .fresh)
  have hnot : found = false := by
    have := congrArg Prod.fst (congrFun hfound default)
    cases this
    rfl
  have hzero : keys = [zero] := by
    have := congrArg Prod.fst (congrFun hkeys default)
    cases this
    rfl
  have hequal : zero.equal (.number (-0) .fresh) = true :=
    equal_number_iff.mpr (.inr (.inl ⟨rfl, rfl⟩))
  rw [hnot, hzero] at hiff
  exact absurd (hiff.mpr ⟨zero, by simp, hequal⟩) (by decide)

end TreeLang
