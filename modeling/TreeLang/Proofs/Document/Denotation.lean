import TreeLang.Document.Item
import TreeLang.Document.Node
import TreeLang.Program.Reader

/-!
# Nodes that denote a document

`n.denotes i` says that a node tree is what the text of a document stands for: a number or a truth
value is a plain scalar with its text, a text and the name of a field are quoted scalars, and lists
and records have their parts in order. Positions are left open. The text of a document has no tab,
so that reading it starts from the text as it is (`normalize_render`).
-/

namespace TreeLang

namespace Document

/-- The node is a scalar without a tag in a style. -/
def Node.isScalar (style : Style) (text : String) : Node → Bool
  | .scalar _ none st t => st == style && t == text
  | _ => false

mutual

/-- The node tree is what the document says. -/
def Node.denotes (n : Node) : Item → Bool
  | .number x => n.isScalar .plain (Decimal.written x)
  | .int k => n.isScalar .plain (toString k)
  | .bool b => n.isScalar .plain (if b then "true" else "false")
  | .text s => n.isScalar .quoted s
  | .list items =>
    match n with
    | .sequence _ none nodes => Node.denoteAll nodes items
    | _ => false
  | .fields fields =>
    match n with
    | .mapping _ none entries => Node.denoteFields entries fields
    | _ => false
termination_by structural i => i

/-- The node trees are what the documents say, one by one. -/
def Node.denoteAll : List Node → List Item → Bool
  | [], [] => true
  | n :: ns, i :: is => n.denotes i && Node.denoteAll ns is
  | _, _ => false
termination_by structural _ is => is

/-- The entries of a mapping are the fields of a record, one by one. -/
def Node.denoteFields : List (Node × Node) → List (String × Item) → Bool
  | [], [] => true
  | (k, v) :: es, (name, i) :: fs =>
    k.isScalar .quoted name && v.denotes i && Node.denoteFields es fs
  | _, _ => false
termination_by structural _ fs => fs

end

namespace Node

/-! ## What a denoting node is -/

theorem eq_of_isScalar {n : Node} {style : Style} {text : String}
    (h : n.isScalar style text = true) : ∃ pos, n = .scalar pos none style text := by
  unfold isScalar at h
  split at h
  · next pos st t =>
    simp only [Bool.and_eq_true, beq_iff_eq] at h
    rw [h.1, h.2]
    exact ⟨pos, rfl⟩
  · cases h

theorem denotes_int {n : Node} {k : Int} (h : n.denotes (.int k) = true) :
    ∃ pos, n = .scalar pos none .plain (toString k) := eq_of_isScalar h

theorem denotes_bool {n : Node} {b : Bool} (h : n.denotes (.bool b) = true) :
    ∃ pos, n = .scalar pos none .plain (if b then "true" else "false") := eq_of_isScalar h

theorem denotes_text {n : Node} {s : String} (h : n.denotes (.text s) = true) :
    ∃ pos, n = .scalar pos none .quoted s := eq_of_isScalar h

theorem denotes_list {n : Node} {items : List Item} (h : n.denotes (.list items) = true) :
    ∃ pos nodes, n = .sequence pos none nodes ∧ denoteAll nodes items = true := by
  cases n with
  | sequence pos tag nodes =>
    cases tag with
    | none => exact ⟨pos, nodes, rfl, h⟩
    | some t => exact absurd h Bool.false_ne_true
  | _ => exact absurd h Bool.false_ne_true

theorem denotes_fields {n : Node} {fields : List (String × Item)}
    (h : n.denotes (.fields fields) = true) :
    ∃ pos entries, n = .mapping pos none entries ∧ denoteFields entries fields = true := by
  cases n with
  | mapping pos tag entries =>
    cases tag with
    | none => exact ⟨pos, entries, rfl, h⟩
    | some t => exact absurd h Bool.false_ne_true
  | _ => exact absurd h Bool.false_ne_true

section Lists

-- All proofs about denoting unfold these, so their equations are made here, at once.
attribute [local simp] denotes denoteAll denoteFields

theorem denoteAll_nil {ns : List Node} (h : denoteAll ns [] = true) : ns = [] := by
  cases ns with
  | nil => rfl
  | cons n ns => simp at h

theorem denoteAll_cons {ns : List Node} {i : Item} {is : List Item}
    (h : denoteAll ns (i :: is) = true) :
    ∃ m ms, ns = m :: ms ∧ m.denotes i = true ∧ denoteAll ms is = true := by
  cases ns with
  | nil => simp at h
  | cons m ms =>
    simp only [denoteAll, Bool.and_eq_true] at h
    exact ⟨m, ms, rfl, h⟩

theorem denoteFields_nil {es : List (Node × Node)} (h : denoteFields es [] = true) : es = [] := by
  cases es with
  | nil => rfl
  | cons e es => simp at h

theorem denoteFields_cons {es : List (Node × Node)} {name : String} {i : Item}
    {fs : List (String × Item)} (h : denoteFields es ((name, i) :: fs) = true) :
    ∃ pos v rest, es = (.scalar pos none .quoted name, v) :: rest ∧ v.denotes i = true ∧
      denoteFields rest fs = true := by
  cases es with
  | nil => simp at h
  | cons e es =>
    rcases e with ⟨k, v⟩
    simp only [denoteFields, Bool.and_eq_true] at h
    rcases eq_of_isScalar h.1.1 with ⟨pos, rfl⟩
    exact ⟨pos, v, es, rfl, h.1.2, h.2⟩

end Lists

/-- No alias denotes a document. -/
theorem follow_of_denotes (g : Graph) {n : Node} {i : Item} (h : n.denotes i = true) :
    g.follow n = n := by
  cases n with
  | scalar | sequence | mapping => rfl
  | _ pos name target => cases i <;> simp [denotes, isScalar] at h

theorem size_pos (n : Node) : 0 < n.size := by
  cases n <;> simp [size]

end Node

/-! ## The node tree of a document -/

mutual

/-- The node tree of a document whose text starts at a column of the first line. -/
def Item.nodeAt (column : Nat) : Item → Node
  | .number x => .scalar ⟨1, column⟩ none .plain (Decimal.written x)
  | .int k => .scalar ⟨1, column⟩ none .plain (toString k)
  | .bool b => .scalar ⟨1, column⟩ none .plain (if b then "true" else "false")
  | .text s => .scalar ⟨1, column⟩ none .quoted s
  | .list items => .sequence ⟨1, column⟩ none (Item.nodesAt (column + 1) items)
  | .fields entries => .mapping ⟨1, column⟩ none (Item.entriesAt (column + 1) entries)

/-- The node trees of documents with a comma and a blank between them. -/
def Item.nodesAt (column : Nat) : List Item → List Node
  | [] => []
  | i :: is => i.nodeAt column :: Item.nodesAt (column + i.render.length + 2) is

/-- The entries of fields with a comma and a blank between them. -/
def Item.entriesAt (column : Nat) : List (String × Item) → List (Node × Node)
  | [] => []
  | (name, i) :: es =>
    let value := column + (Text.quoted name).length + 2
    (.scalar ⟨1, column⟩ none .quoted name, i.nodeAt value) ::
      Item.entriesAt (value + i.render.length + 2) es

end

mutual

/-- It denotes the document. -/
theorem Item.denotes_nodeAt (column : Nat) : (i : Item) → (i.nodeAt column).denotes i = true
  | .number _ | .int _ | .bool _ | .text _ => by simp [nodeAt, Node.denotes, Node.isScalar]
  | .list items => by simp [nodeAt, Node.denotes, denoteAll_nodesAt]
  | .fields entries => by simp [nodeAt, Node.denotes, denoteFields_entriesAt]

theorem Item.denoteAll_nodesAt (column : Nat) :
    (items : List Item) → Node.denoteAll (Item.nodesAt column items) items = true
  | [] => rfl
  | i :: is => by simp [nodesAt, Node.denoteAll, denotes_nodeAt, denoteAll_nodesAt]

theorem Item.denoteFields_entriesAt (column : Nat) :
    (es : List (String × Item)) → Node.denoteFields (Item.entriesAt column es) es = true
  | [] => rfl
  | (name, i) :: es => by
    simp [entriesAt, Node.denoteFields, Node.isScalar, denotes_nodeAt, denoteFields_entriesAt]

end

/-! ## Texts without tabs -/

/-- No tab is in the text. -/
def Tabless (s : String) : Prop := '\t' ∉ s.toList

instance (s : String) : Decidable (Tabless s) := inferInstanceAs (Decidable (¬ _))

theorem tabless_append {s t : String} (hs : Tabless s) (ht : Tabless t) : Tabless (s ++ t) := by
  unfold Tabless at *
  rw [String.toList_append, List.mem_append]
  rintro (h | h)
  · exact hs h
  · exact ht h

theorem tabless_ofList {cs : List Char} (h : '\t' ∉ cs) : Tabless (String.ofList cs) := by
  unfold Tabless
  rwa [String.toList_ofList]

theorem tab_not_mem_toDigits (n : Nat) : '\t' ∉ Nat.toDigits 10 n := by
  intro h
  have hdigit := Nat.isDigit_of_mem_toDigits (by decide) (by decide) h
  exact absurd hdigit (by decide)

theorem tabless_toString (n : Int) : Tabless (toString n) := by
  have hnat : ∀ m : Nat, Tabless (toString m) := by
    intro m
    unfold Tabless
    rw [Nat.toString_eq_repr, Nat.toList_repr]
    exact tab_not_mem_toDigits m
  cases n with
  | ofNat m => exact hnat m
  | negSucc m => exact tabless_append (by decide) (hnat (m + 1))

theorem tabless_written (x : Float) : Tabless (Decimal.written x) := by
  have hpositional : ∀ d : Decimal.Dec, Tabless d.positional := by
    intro d
    have hdigits := tab_not_mem_toDigits d.digits
    unfold Decimal.Dec.positional
    dsimp only
    split
    · split
      · decide
      · exact tabless_ofList (by simp [hdigits])
    · apply tabless_ofList
      -- The point splits the digits, or stands before zeros and all the digits.
      have htake : ∀ k, '\t' ∉ (Nat.toDigits 10 d.digits).take k := fun k h =>
        hdigits (List.mem_of_mem_take h)
      have hdrop : ∀ k, '\t' ∉ (Nat.toDigits 10 d.digits).drop k := fun k h =>
        hdigits (List.mem_of_mem_drop h)
      split <;> simp [htake, hdrop]
  unfold Decimal.written
  split
  · decide
  · split
    · split <;> decide
    · split
      · exact tabless_append (by decide) (hpositional _)
      · exact hpositional _

theorem tab_not_mem_hexDigits (width n : Nat) : '\t' ∉ Text.hexDigits width n := by
  have hdigit : ∀ d < 16, Nat.digitChar d ≠ '\t' := by decide
  induction width generalizing n with
  | zero => simp [Text.hexDigits]
  | succ width ih =>
    rw [Text.hexDigits, List.mem_append, List.mem_singleton]
    rintro (h | h)
    · exact ih _ h
    · exact hdigit (n % 16) (Nat.mod_lt _ (by decide)) h.symm

theorem tab_not_mem_quotedChar (c : Char) : '\t' ∉ Text.quotedChar c := by
  unfold Text.quotedChar
  split
  · decide
  · split
    · decide
    · split
      · next hprintable =>
        intro h
        rw [List.mem_singleton] at h
        subst h
        -- A tab is not printable, so it is always escaped.
        exact absurd hprintable (by decide)
      · unfold Text.escapedChar
        split <;> try decide
        split
        · simp [tab_not_mem_hexDigits]
        · split <;> simp [tab_not_mem_hexDigits]

theorem tabless_quoted (s : String) : Tabless (Text.quoted s) := by
  apply tabless_ofList
  simp [tab_not_mem_quotedChar]

namespace Item

mutual

theorem tabless_render : (i : Item) → Tabless i.render
  | .number x => tabless_written x
  | .int n => tabless_toString n
  | .text s => tabless_quoted s
  | .bool true => by decide
  | .bool false => by decide
  | .list items =>
    tabless_append (tabless_append (by decide) (tabless_renderAll items)) (by decide)
  | .fields entries =>
    tabless_append (tabless_append (by decide) (tabless_renderFields entries)) (by decide)

theorem tabless_renderAll : (items : List Item) → Tabless (renderAll items)
  | [] => by decide
  | [i] => tabless_render i
  | i :: j :: items =>
    tabless_append (tabless_append (tabless_render i) (by decide)) (tabless_renderAll (j :: items))

theorem tabless_renderFields : (entries : List (String × Item)) → Tabless (renderFields entries)
  | [] => by decide
  | [(name, i)] =>
    tabless_append (tabless_append (tabless_quoted name) (by decide)) (tabless_render i)
  | (name, i) :: e :: entries =>
    tabless_append (tabless_append (tabless_append (tabless_append (tabless_quoted name)
      (by decide)) (tabless_render i)) (by decide)) (tabless_renderFields (e :: entries))

end

end Item

/-- The text of a document is read as it is. -/
theorem normalize_render (i : Item) : Reader.normalize i.render = i.render := by
  have hmap : i.render.map (fun c => if c = '\t' then ' ' else c) = i.render := by
    rw [← String.toList_inj, String.toList_map]
    conv => rhs; rw [← List.map_id i.render.toList]
    refine List.map_congr_left fun c hc => ?_
    have hne : c ≠ '\t' := fun heq => i.tabless_render (heq ▸ hc)
    simp [hne]
  unfold Reader.normalize
  split
  · exact hmap
  · exact hmap
  · rfl

end Document

end TreeLang
