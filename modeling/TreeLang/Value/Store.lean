import TreeLang.Value.Basic

/-!
# Dictionaries in memory

A dictionary is an object that can be changed. Its entries are the first cells of an array that may
have room for more, and an index gives for every key the cell of its entry. The object only refers
to the two, so a change to an array or to an index is a change to every dictionary that refers to
it: that no two dictionaries do is a fact about the operations, which `Store.run` performs one after
the other.

An entry that is added goes into the array while there is room, and else into a new and larger array
with the entries so far. How much larger is up to `grow`, which gives the room that is left.
-/

namespace TreeLang

/-- A dictionary object: the addresses of its array and of its index, and the number of its
entries. -/
structure DictObject where
  array : Nat
  index : Nat
  length : Nat
deriving DecidableEq, Repr, Inhabited

/-- The memory. Addresses are positions; a cell without an entry has not been written yet. -/
structure Store where
  arrays : List (List (Option (Key × Value))) := []
  indexes : List (List (KeyId × Nat)) := []
  objects : List DictObject := []
deriving Repr, Inhabited

namespace Store

/-- What can be asked of dictionaries, which are known by their numbers. -/
inductive Request where
  | new
  | set (d : Nat) (key value : Value)
  | copy (d : Nat)
deriving Repr, Inhabited

variable (m : Store) (grow : Nat → Nat)

/-- The number that the next new dictionary gets. -/
def next : Nat := m.objects.length

/-- The array at an address. -/
def array (a : Nat) : List (Option (Key × Value)) := m.arrays[a]?.getD []

/-- The index at an address. -/
def index (x : Nat) : List (KeyId × Nat) := m.indexes[x]?.getD []

/-! ## Reading -/

/-- The entries of a dictionary in order. -/
def pairs (d : Nat) : Dict :=
  match m.objects[d]? with
  | none => []
  | some o => ((m.array o.array).take o.length).filterMap id

/-- Where a dictionary has its entry under a key, as its index says. -/
def position (d : Nat) (id : KeyId) : Option Nat := do
  let o ← m.objects[d]?
  (m.index o.index).lookup id

/-- The value of a dictionary under a key, if the value can be a key and the dictionary has it. -/
def get (d : Nat) (key : Value) : Option Value := do
  let k ← Key.ofValue? key
  let o ← m.objects[d]?
  let i ← (m.index o.index).lookup k.id
  let cell ← (m.array o.array)[i]?
  let e ← cell
  pure e.2

/-! ## Writing -/

/-- Puts another value into the entry in a cell. -/
def overwrite (a i : Nat) (v : Value) : Store :=
  { m with arrays := m.arrays.modify a fun cells =>
      cells.modify i fun cell => cell.map fun e => (e.1, v) }

/-- Adds an entry to a dictionary: in the next cell of its array if there is one, else in a new
array. -/
def append (d : Nat) (o : DictObject) (e : Key × Value) : Store :=
  let indexes := m.indexes.modify o.index ((e.1.id, o.length) :: ·)
  let cells := m.array o.array
  if o.length < cells.length then
    { arrays := m.arrays.modify o.array (·.set o.length (some e))
      indexes
      objects := m.objects.set d { o with length := o.length + 1 } }
  else
    { arrays := m.arrays ++
        [cells.take o.length ++ some e :: List.replicate (grow (o.length + 1)) none]
      indexes
      objects := m.objects.set d { o with array := m.arrays.length, length := o.length + 1 } }

/-- Sets a value under a key, and says whether the key can be one. -/
def set (d : Nat) (key value : Value) : Bool × Store :=
  match Key.ofValue? key with
  | none => (false, m)
  | some k =>
    match m.objects[d]? with
    | none => (true, m)
    | some o =>
      match (m.index o.index).lookup k.id with
      | some i => (true, m.overwrite o.array i value)
      | none => (true, m.append grow d o (k, value))

/-- Makes a dictionary with these cells and this index, both of its own. -/
def make (cells : List (Option (Key × Value))) (index : List (KeyId × Nat)) : Store where
  arrays := m.arrays ++ [cells]
  indexes := m.indexes ++ [index]
  objects := m.objects ++ [⟨m.arrays.length, m.indexes.length, cells.length⟩]

/-- Makes a dictionary without entries. -/
def new : Store := m.make [] []

/-- Makes a dictionary with the entries of another one. -/
def copy (d : Nat) : Store :=
  match m.objects[d]? with
  | none => m.new
  | some o => m.make ((m.array o.array).take o.length) (m.index o.index)

/-- Sets the entry in a cell in a dictionary. -/
def setCell (c a i : Nat) : Store :=
  match (m.array a)[i]? with
  | some (some e) => (m.set grow c e.1.value e.2).2
  | _ => m

/-- Sets the entries of a dictionary in another one. The cells to read are those that the dictionary
has at the beginning; each is read when its turn comes. -/
def setAll (c b : Nat) : Store :=
  match m.objects[b]? with
  | none => m
  | some o => (List.range o.length).foldl (fun m i => m.setCell grow c o.array i) m

/-- Makes a dictionary with the entries of one dictionary, overwritten by those of another one. -/
def merge (a b : Nat) : Store := (m.copy a).setAll grow m.next b

/-- Does what is asked. -/
def step : Request → Store
  | .new => m.new
  | .set d key value => (m.set grow d key value).2
  | .copy d => m.copy d

/-- Does what is asked, one request after the other. -/
def run (rs : List Request) : Store := rs.foldl (fun m r => m.step grow r) m

end Store

end TreeLang
