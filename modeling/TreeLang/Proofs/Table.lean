import TreeLang.Table

/-!
# Tables as lists of entries

What writing and erasing do to the list of entries itself, order included: a new name goes to the
end, and an entry that is written again stays in its place. Changing all entries by a function
(`Table.map`) goes along with every operation.
-/

namespace TreeLang.Table

variable {α : Type}

theorem lookup_append (name : String) (es es' : List (String × α)) :
    lookup name (es ++ es') = (lookup name es).or (lookup name es') := by
  induction es with
  | nil => rfl
  | cons e es ih =>
    simp only [List.cons_append, lookup]
    split
    · rfl
    · exact ih

theorem lookup_eq_none_iff {name : String} {es : List (String × α)} :
    lookup name es = none ↔ name ∉ es.map (·.1) := by
  induction es with
  | nil => simp [lookup]
  | cons e es ih =>
    simp only [lookup, List.map_cons, List.mem_cons, not_or]
    split
    · next h => simp [h]
    · next h => simp [ih, Ne.symm h]

theorem mem_of_lookup {name : String} {a : α} {es : List (String × α)}
    (h : lookup name es = some a) : (name, a) ∈ es := by
  induction es with
  | nil => cases h
  | cons e es ih =>
    simp only [lookup] at h
    split at h
    · next hname =>
      cases h
      rw [← hname]
      exact List.mem_cons_self
    · exact List.mem_cons_of_mem e (ih h)

/-- A new name goes to the end. -/
theorem write_of_lookup_eq_none {name : String} {a : α} {es : List (String × α)}
    (h : lookup name es = none) : write name a es = es ++ [(name, a)] := by
  induction es with
  | nil => rfl
  | cons e es ih =>
    simp only [lookup] at h
    split at h
    · cases h
    · next hname => rw [write, if_neg hname, ih h, List.cons_append]

/-- Of two entries written under a name the last one stays. -/
theorem write_write (name : String) (a b : α) (es : List (String × α)) :
    write name b (write name a es) = write name b es := by
  induction es with
  | nil => simp [write]
  | cons e es ih =>
    simp only [write]
    split
    · next h => simp [write, h]
    · next h => simp [write, h, ih]

/-- Writing what is there changes nothing. -/
theorem write_of_lookup {name : String} {a : α} {es : List (String × α)}
    (h : lookup name es = some a) : write name a es = es := by
  induction es with
  | nil => cases h
  | cons e es ih =>
    simp only [lookup] at h
    split at h
    · next hname =>
      cases h
      rw [write, if_pos hname]
    · next hname => rw [write, if_neg hname, ih h]

/-- An entry that replaced another one is taken back by writing the other one. -/
theorem insert_insert_of_get? {t : Table α} {name : String} {a b : α} (h : t.get? name = some b) :
    (t.insert name a).insert name b = t := by
  rw [insert, insert, write_write, write_of_lookup h]

/-- An entry under a new name is taken back by erasing it. -/
theorem erase_insert_of_get? {t : Table α} {name : String} {a : α} (h : t.get? name = none) :
    (t.insert name a).erase name = t := by
  have hfilter : t.entries.filter (fun e => e.1 ≠ name) = t.entries := by
    rw [List.filter_eq_self]
    intro e he
    have hne := lookup_eq_none_iff.mp h
    simpa using fun heq : e.1 = name => hne (heq ▸ List.mem_map_of_mem he)
  rw [erase, insert, write_of_lookup_eq_none h, List.filter_append, hfilter]
  simp

theorem contains_of_get? {t : Table α} {name : String} {a : α} (h : t.get? name = some a) :
    t.contains name = true := by
  rw [contains, h]
  rfl

theorem contains_insert {t : Table α} {name other : String} {a : α} :
    (t.insert name a).contains other = true ↔ other = name ∨ t.contains other = true := by
  rw [contains, contains, get?_insert]
  split
  · next h => simp [h]
  · next h => simp [Ne.symm h]

theorem mem_names {t : Table α} {name : String} : name ∈ t.names ↔ t.contains name = true := by
  rw [names, sortNames, List.mem_mergeSort, contains, Option.isSome_iff_ne_none, get?, Ne,
    lookup_eq_none_iff, Decidable.not_not]

theorem mem_of_get? {t : Table α} {name : String} {a : α} (h : t.get? name = some a) :
    (name, a) ∈ t.entries :=
  mem_of_lookup h

/-! ## Writing several entries -/

/-- The table with entries written one after the other. -/
def insertAll (t : Table α) (ws : List (String × α)) : Table α :=
  ws.foldl (fun t w => t.insert w.1 w.2) t

theorem insertAll_append (t : Table α) (ws ws' : List (String × α)) :
    t.insertAll (ws ++ ws') = (t.insertAll ws).insertAll ws' := List.foldl_append

/-- Of several entries for a name the last one counts. -/
theorem get?_insertAll (t : Table α) (ws : List (String × α)) (name : String) :
    (t.insertAll ws).get? name =
      ((ws.reverse.find? (·.1 = name)).map (·.2)).or (t.get? name) := by
  induction ws generalizing t with
  | nil => rfl
  | cons w ws ih =>
    have hstep : (t.insertAll (w :: ws)).get? name = _ := ih (t.insert w.1 w.2)
    rw [hstep, get?_insert, List.reverse_cons, List.find?_append]
    cases ws.reverse.find? (·.1 = name) with
    | some x => rfl
    | none =>
      by_cases h : w.1 = name
      · simp [h]
      · simp [h]

theorem get?_insertAll_of_not_mem {t : Table α} {ws : List (String × α)} {name : String}
    (h : name ∉ ws.map (·.1)) : (t.insertAll ws).get? name = t.get? name := by
  induction ws generalizing t with
  | nil => rfl
  | cons w ws ih =>
    rw [List.map_cons, List.mem_cons, not_or] at h
    have hstep : (t.insertAll (w :: ws)).get? name = _ := @ih (t.insert w.1 w.2) h.2
    rw [hstep, get?_insert, if_neg (Ne.symm h.1)]

/-- Where no name is written twice, each entry stays. -/
theorem get?_insertAll_of_mem {t : Table α} {ws : List (String × α)}
    (hnodup : (ws.map (·.1)).Nodup) {w : String × α} (hw : w ∈ ws) :
    (t.insertAll ws).get? w.1 = some w.2 := by
  induction ws generalizing t with
  | nil => cases hw
  | cons v ws ih =>
    rw [List.map_cons, List.nodup_cons] at hnodup
    change ((t.insert v.1 v.2).insertAll ws).get? w.1 = some w.2
    rcases List.mem_cons.mp hw with rfl | hw
    · rw [get?_insertAll_of_not_mem hnodup.1, get?_insert, if_pos rfl]
    · exact ih hnodup.2 hw

/-! ## Changing all entries -/

variable {β : Type}

@[simp] theorem get?_map (f : α → β) (t : Table α) (name : String) :
    (t.map f).get? name = (t.get? name).map f := by
  rcases t with ⟨entries⟩
  simp only [get?, map]
  induction entries with
  | nil => rfl
  | cons e rest ih =>
    rcases e with ⟨n, a⟩
    simp only [List.map_cons, lookup]
    split
    · rfl
    · exact ih

theorem map_insert (f : α → β) (t : Table α) (name : String) (a : α) :
    (t.insert name a).map f = (t.map f).insert name (f a) := by
  rcases t with ⟨entries⟩
  simp only [insert, map, Table.mk.injEq]
  induction entries with
  | nil => rfl
  | cons e rest ih =>
    rcases e with ⟨n, b⟩
    simp only [write, List.map_cons]
    split
    · rfl
    · rw [List.map_cons, ih]

theorem map_erase (f : α → β) (t : Table α) (name : String) :
    (t.erase name).map f = (t.map f).erase name := by
  rcases t with ⟨entries⟩
  simp only [erase, map, Table.mk.injEq, List.filter_map]
  rfl

@[simp] theorem size_map (f : α → β) (t : Table α) : (t.map f).size = t.size := by
  simp [size, map]

end TreeLang.Table
