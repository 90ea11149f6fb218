/-!
# Tables: finite maps from names

A table has at most one entry per name. Writing an existing name replaces its entry in place, and a
new name goes to the end, so the order of entries is that of first writing. Main statements:
`get?_insert`, `get?_erase` and `get?_empty` say what every operation does to look-ups.
-/

namespace TreeLang

/-- A finite map from names, kept in order of first writing. -/
structure Table (α : Type) where
  entries : List (String × α)
deriving Repr, DecidableEq

namespace Table

variable {α β : Type}

/-- The table without entries. -/
def empty : Table α := ⟨[]⟩

instance : EmptyCollection (Table α) := ⟨empty⟩

instance : Inhabited (Table α) := ⟨empty⟩

/-- The entry of a name in a list of entries. -/
def lookup (name : String) : List (String × α) → Option α
  | [] => none
  | (n, a) :: rest => if n = name then some a else lookup name rest

/-- The list of entries with the name's entry replaced, or added at the end. -/
def write (name : String) (a : α) : List (String × α) → List (String × α)
  | [] => [(name, a)]
  | (n, b) :: rest => if n = name then (n, a) :: rest else (n, b) :: write name a rest

/-- The entry of a name. -/
def get? (t : Table α) (name : String) : Option α := lookup name t.entries

/-- The table with an entry for the name. -/
def insert (t : Table α) (name : String) (a : α) : Table α := ⟨write name a t.entries⟩

/-- The table without the name. -/
def erase (t : Table α) (name : String) : Table α := ⟨t.entries.filter fun e => e.1 ≠ name⟩

/-- The name has an entry. -/
def contains (t : Table α) (name : String) : Bool := (t.get? name).isSome

/-- The number of entries. -/
def size (t : Table α) : Nat := t.entries.length

/-- A table from entries; of several entries for a name the last one counts. -/
def ofList (entries : List (String × α)) : Table α :=
  entries.foldl (fun t e => t.insert e.1 e.2) empty

/-- Names in ascending order of their characters. -/
def sortNames (names : List String) : List String := names.mergeSort fun a b => !(b < a)

/-- The names, in ascending order. -/
def names (t : Table α) : List String := sortNames (t.entries.map (·.1))

/-- The table with every entry changed by `f`. -/
def map (f : α → β) (t : Table α) : Table β := ⟨t.entries.map fun e => (e.1, f e.2)⟩

/-! ## Look-ups after an operation -/

@[simp] theorem get?_empty (name : String) : (empty : Table α).get? name = none := rfl

theorem lookup_write (name other : String) (a : α) (es : List (String × α)) :
    lookup other (write name a es) = if name = other then some a else lookup other es := by
  induction es with
  | nil => simp [write, lookup]
  | cons e rest ih =>
    obtain ⟨n, b⟩ := e
    by_cases h : n = name
    · subst h
      by_cases h' : n = other <;> simp [write, lookup, h']
    · by_cases h' : n = other
      · subst h'
        simp [write, lookup, h, Ne.symm h]
      · simp [write, lookup, h, h', ih]

@[simp] theorem get?_insert (t : Table α) (name other : String) (a : α) :
    (t.insert name a).get? other = if name = other then some a else t.get? other :=
  lookup_write name other a t.entries

theorem lookup_filter (name other : String) (es : List (String × α)) :
    lookup other (es.filter fun e => e.1 ≠ name) =
      if name = other then none else lookup other es := by
  induction es with
  | nil => simp [lookup]
  | cons e rest ih =>
    obtain ⟨n, b⟩ := e
    by_cases h : n = name
    · subst h
      by_cases h' : n = other
      · subst h'
        simpa [lookup] using ih
      · simpa [lookup, h'] using ih
    · by_cases h' : n = other
      · subst h'
        simp [lookup, h, Ne.symm h]
      · simpa [lookup, h, h'] using ih

@[simp] theorem get?_erase (t : Table α) (name other : String) :
    (t.erase name).get? other = if name = other then none else t.get? other :=
  lookup_filter name other t.entries

end Table

end TreeLang
