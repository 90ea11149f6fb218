import TreeLang.Eval.Builtins
import TreeLang.Eval.Operators
import TreeLang.Proofs.Value.Proper

/-!
# Properties that computing keeps

A property of values is hereditary if a collection has it because of what is in it. Operators and
builtin functions only take values apart and put them together, so all that they make of values with
such a property has it again (`Value.Hereditary.operator`, `Value.Hereditary.pureResult`).
-/

namespace TreeLang

/-- A property that values have because of the values in them. -/
structure Value.Hereditary (Q : Value → Prop) : Prop where
  number : ∀ x id, Q (.number x id)
  text : ∀ s id, Q (.text s id)
  bool : ∀ b id, Q (.bool b id)
  nil : Q .nil
  list : ∀ {elems id}, Q (.list elems id) ↔ ∀ v ∈ elems, Q v
  empty : Q (.dict [] .fresh)
  set : ∀ {d k v}, Q (.dict d .fresh) → Q v → Q (.dict (Dict.set k v d) .fresh)
  values : ∀ {d id}, Q (.dict d id) → ∀ e ∈ d, Q e.2
  /-- It does not matter which object a dictionary is. -/
  renew : ∀ {d id}, Q (.dict d id) → Q (.dict d .fresh)
  numberFrom : ∀ {v} n, Q v → Q (v.numberFrom n).1

theorem ok_of_bind {ε α β : Type} {x : Except ε α} {f : α → Except ε β} {b : β}
    (h : some (x >>= f) = some (.ok b)) : ∃ a, x = .ok a ∧ f a = .ok b := by
  cases x with
  | error e => cases h
  | ok a => exact ⟨a, rfl, Option.some.inj h⟩

theorem Primitive.asCallable_eq {p : Primitive} {v f : Value} (h : p.asCallable v = .ok f) :
    f = v := by
  unfold asCallable at h
  split at h
  · cases h
    rfl
  · cases h

variable {Q : Value → Prop}

namespace Value.Hereditary

variable (hQ : Hereditary Q)

include hQ

theorem key (k : Key) : Q k.value := by
  cases k with
  | number x id => exact hQ.number x id
  | text s id => exact hQ.text s id
  | bool b id => exact hQ.bool b id

theorem merge {a b : Dict} (ha : Q (.dict a .fresh)) (hb : ∀ e ∈ b, Q e.2) :
    Q (.dict (Dict.merge a b) .fresh) := by
  induction b generalizing a with
  | nil => exact ha
  | cons e b ih => exact ih (hQ.set ha (hb e (by simp))) fun x hx => hb x (by simp [hx])

/-! ## Operators -/

theorem plus {l r v : Value} (h : Operator.plus l r = .ok v) (hl : Q l) (hr : Q r) : Q v := by
  unfold Operator.plus at h
  split at h
  · cases h
    exact hQ.number _ _
  · cases h
    exact hQ.text _ _
  · cases h
    exact hQ.text _ _
  · cases h
    exact hQ.list.mpr (List.forall_mem_append.mpr ⟨hQ.list.mp hl, hQ.list.mp hr⟩)
  · cases h

theorem operator {op : Operator} {l r v : Value} (h : op.run l r = .ok v) (hl : Q l) (hr : Q r) :
    Q v := by
  have harith {o : Operator} {f : Float → Float → Float}
      (h : Operator.arithmetic o f l r = .ok v) : Q v := by
    unfold Operator.arithmetic at h
    split at h
    · cases h
      exact hQ.number _ _
    · cases h
  cases op with
  | add => exact hQ.plus h hl hr
  | sub | mul | div | rem => exact harith h
  | lt | gt | le | ge | eq | ne =>
    cases h
    exact hQ.bool _ _
  | other s => cases h

/-! ## Builtin functions -/

theorem asDict {p : Primitive} {v : Value} {d : Dict} (h : p.asDict v = .ok d) (hv : Q v) :
    Q (.dict d .fresh) := by
  cases v <;> cases h
  exact hQ.renew hv

theorem asList {p : Primitive} {v : Value} {xs : List Value} (h : p.asList v = .ok xs)
    (hv : Q v) : ∀ x ∈ xs, Q x := by
  cases v <;> cases h
  exact hQ.list.mp hv

/-- The value of a builtin function without effects. -/
theorem pureResult {p : Primitive} {args : List Value} {v : Value} (hargs : ∀ a ∈ args, Q a)
    (h : p.pureResult args = some (.ok v)) : Q v := by
  cases p with
  | print | input | map | filter | reduce => cases h
  | add | mul =>
    obtain ⟨xs, -, hv⟩ := ok_of_bind h
    cases hv
    exact hQ.number _ _
  | len =>
    simp only [Primitive.pureResult] at h
    split at h <;> cases h <;> exact hQ.number _ _
  | toUpperCase =>
    simp only [Primitive.pureResult] at h
    split at h
    · obtain ⟨s, -, hv⟩ := ok_of_bind h
      cases hv
      exact hQ.text _ _
    · cases h
  | not =>
    simp only [Primitive.pureResult] at h
    split at h
    · obtain ⟨b, -, hv⟩ := ok_of_bind h
      cases hv
      exact hQ.bool _ _
    · cases h
  | and | or =>
    simp only [Primitive.pureResult] at h
    split at h
    · obtain ⟨x, -, h⟩ := ok_of_bind h
      obtain ⟨y, -, hv⟩ := ok_of_bind (congrArg some h)
      cases hv
      exact hQ.bool _ _
    · cases h
  | join =>
    simp only [Primitive.pureResult] at h
    split at h
    · obtain ⟨xs, -, h⟩ := ok_of_bind h
      obtain ⟨sep, -, hv⟩ := ok_of_bind (congrArg some h)
      cases hv
      exact hQ.text _ _
    · cases h
  | split =>
    simp only [Primitive.pureResult] at h
    split at h
    · obtain ⟨s, -, h⟩ := ok_of_bind h
      obtain ⟨sep, -, hv⟩ := ok_of_bind (congrArg some h)
      cases hv
      refine hQ.list.mpr fun w hw => ?_
      obtain ⟨piece, -, rfl⟩ := List.mem_map.mp hw
      exact hQ.text _ _
    · cases h
  | keys =>
    simp only [Primitive.pureResult] at h
    split at h
    · obtain ⟨d, -, hv⟩ := ok_of_bind h
      cases hv
      refine hQ.list.mpr fun w hw => ?_
      obtain ⟨e, -, rfl⟩ := List.mem_map.mp hw
      exact hQ.key e.1
    · cases h
  | values =>
    simp only [Primitive.pureResult] at h
    split at h
    · obtain ⟨d, hd, hv⟩ := ok_of_bind h
      cases hv
      refine hQ.list.mpr fun w hw => ?_
      obtain ⟨e, he, rfl⟩ := List.mem_map.mp hw
      exact hQ.values (hQ.asDict hd (hargs _ (by simp))) e he
    · cases h
  | get =>
    simp only [Primitive.pureResult] at h
    split at h
    · next a k =>
      obtain ⟨d, hd, hv⟩ := ok_of_bind h
      cases hv
      cases hget : (Key.ofValue? k).bind fun k => Dict.get? k d with
      | none => exact hQ.nil
      | some w =>
        obtain ⟨key, -, hkey⟩ := Option.bind_eq_some_iff.mp hget
        obtain ⟨e, he, rfl⟩ := Dict.mem_of_get? hkey
        exact hQ.values (hQ.asDict hd (hargs a (by simp))) e he
    · cases h
  | hasKey =>
    simp only [Primitive.pureResult] at h
    split at h
    · obtain ⟨d, -, hv⟩ := ok_of_bind h
      cases hv
      exact hQ.bool _ _
    · cases h
  | merge =>
    simp only [Primitive.pureResult] at h
    split at h
    · obtain ⟨a, ha, h⟩ := ok_of_bind h
      obtain ⟨b, hb, hv⟩ := ok_of_bind (congrArg some h)
      cases hv
      exact hQ.merge (hQ.asDict ha (hargs _ (by simp)))
        (hQ.values (hQ.asDict hb (hargs _ (by simp))))
    · cases h

end Value.Hereditary

/-- That no dictionary has a key twice is such a property. -/
theorem Value.proper_hereditary : Value.Hereditary Value.Proper where
  number x id := proper_key (.number x id)
  text s id := proper_key (.text s id)
  bool b id := proper_key (.bool b id)
  nil := by simp [Proper, throughout_atom]
  list := proper_list
  empty := proper_dict.mpr ⟨.nil, List.forall_mem_nil _⟩
  set hd hv := by
    obtain ⟨hdistinct, hproper⟩ := proper_dict.mp hd
    refine proper_dict.mpr ⟨Dict.set_distinct hdistinct, fun e he => ?_⟩
    exact (Dict.set_induct (K := fun _ => True) (fun e he => ⟨trivial, hproper e he⟩) trivial
      hv e he).2
  values hd := (proper_dict.mp hd).2
  renew hd := proper_dict.mpr (proper_dict.mp hd)
  numberFrom n h := h.numberFrom n

end TreeLang
