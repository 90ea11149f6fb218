import Mathlib.Data.List.Forall2
import TreeLang.Document.Item
import TreeLang.Program.Reader
import TreeLang.Program.Writer

/-!
# What a node says

`Says g i n` means that the node `n`, aliases followed wherever a node is looked at, is the document
`i`. A scalar counts for what it means, however that is written, and the tags of collections count
for nothing. The fields of a record may come in any order; their names stand there themselves, since
the name of a field is not looked up behind an alias.
-/

namespace TreeLang.Reader

open Document (Node Graph Item)

variable {g : Graph}

/-- The number that a scalar means, if it is tagged as one. -/
def numberScalar? : Node → Option Float
  | .scalar _ tag style text =>
    match Document.scalarTag tag style text with
    | "!!int" | "!!float" =>
      match Document.scalarMeaning? tag style text with
      | some (.int n) => some (Float.ofInt n)
      | some (.float x) => some x
      | _ => none
    | _ => none
  | _ => none

/-- The truth value that a scalar means, if it is tagged as one. -/
def boolScalar? : Node → Option Bool
  | .scalar _ tag style text =>
    match Document.scalarTag tag style text with
    | "!!bool" =>
      match Document.scalarMeaning? tag style text with
      | some (.bool b) => some b
      | _ => none
    | _ => none
  | _ => none

mutual

/-- The node is the document. -/
def Says (g : Graph) : Item → Node → Prop
  | .number x, n => numberScalar? (g.follow n) = some x
  | .int k, n => numberScalar? (g.follow n) = some (Float.ofInt k)
  | .text s, n => textScalar? (g.follow n) = some s
  | .bool b, n => boolScalar? (g.follow n) = some b
  | .list items, n => ∃ pos tag nodes, g.follow n = .sequence pos tag nodes ∧ SayAll g items nodes
  | .fields fields, n => ∃ pos tag entries ordered, g.follow n = .mapping pos tag entries ∧
      ordered.Perm entries ∧ SayFields g fields ordered

/-- The nodes are the documents one by one. -/
def SayAll (g : Graph) : List Item → List Node → Prop
  | [], [] => True
  | i :: is, n :: ns => Says g i n ∧ SayAll g is ns
  | _, _ => False

/-- The entries are the fields one by one. -/
def SayFields (g : Graph) : List (String × Item) → List (Node × Node) → Prop
  | [], [] => True
  | (name, i) :: fs, (k, v) :: es => (textScalar? k = some name ∧ Says g i v) ∧ SayFields g fs es
  | _, _ => False

end

theorem sayAll_iff {items : List Item} {nodes : List Node} :
    SayAll g items nodes ↔ List.Forall₂ (Says g) items nodes := by
  induction items generalizing nodes with
  | nil => cases nodes <;> simp [SayAll]
  | cons i is ih => cases nodes <;> simp [SayAll, ih]

theorem sayAll_nil {nodes : List Node} : SayAll g [] nodes ↔ nodes = [] := by
  cases nodes <;> simp [SayAll]

theorem sayAll_cons {i : Item} {is : List Item} {nodes : List Node} :
    SayAll g (i :: is) nodes ↔ ∃ n ns, nodes = n :: ns ∧ Says g i n ∧ SayAll g is ns := by
  cases nodes <;> simp [SayAll]

theorem sayAll_map {α : Type} {f : α → Item} {as : List α} {nodes : List Node} :
    SayAll g (as.map f) nodes ↔ List.Forall₂ (fun a n => Says g (f a) n) as nodes := by
  rw [sayAll_iff, List.forall₂_map_left_iff]

theorem sayFields_iff {fields : List (String × Item)} {entries : List (Node × Node)} :
    SayFields g fields entries ↔
      List.Forall₂ (fun f e => textScalar? e.1 = some f.1 ∧ Says g f.2 e.2) fields entries := by
  induction fields generalizing entries with
  | nil => cases entries <;> simp [SayFields]
  | cons f fs ih => cases entries <;> simp [SayFields, ih]

/-! ## Scalars -/

/-- A text is what stands in the scalar. -/
theorem eq_of_textScalar {n : Node} {s : String} (h : textScalar? n = some s) :
    ∃ pos tag style, n = .scalar pos tag style s := by
  unfold textScalar? at h
  split at h
  · split at h
    · cases h
      exact ⟨_, _, _, rfl⟩
    · cases h
  · cases h

theorem text_of_textScalar {n : Node} {s : String} (h : textScalar? n = some s) : n.text = s := by
  obtain ⟨pos, tag, style, rfl⟩ := eq_of_textScalar h
  rfl

/-- A node that says an operation stands for a sequence with the name in front. -/
theorem says_operation {name : String} {args : List Item} {n : Node} :
    Says g (.operation name args) n ↔ ∃ pos tag first nodes,
      g.follow n = .sequence pos tag (first :: nodes) ∧
        textScalar? (g.follow first) = some name ∧ SayAll g args nodes := by
  constructor
  · rintro ⟨pos, tag, nodes, hfollow, hall⟩
    obtain ⟨first, ns, rfl, hhead, hns⟩ := sayAll_cons.mp hall
    exact ⟨pos, tag, first, ns, hfollow, hhead, hns⟩
  · rintro ⟨pos, tag, first, nodes, hfollow, hhead, hns⟩
    exact ⟨pos, tag, first :: nodes, hfollow, hhead, hns⟩

theorem readName_eq_ok {n : Node} {name : String} :
    readName g n = .ok name ↔ name ≠ "" ∧ Says g (.text name) n := by
  unfold readName Says
  dsimp only
  cases htext : textScalar? (g.follow n) with
  | none => simp [refuse]
  | some s =>
    dsimp only
    split
    · next hempty =>
      have hs : s = "" := by simpa using hempty
      constructor
      · intro h
        cases h
      · rintro ⟨hname, heq⟩
        cases heq
        exact absurd hs hname
    · next hempty =>
      have hs : s ≠ "" := by simpa using hempty
      constructor
      · intro h
        cases h
        exact ⟨hs, rfl⟩
      · rintro ⟨-, heq⟩
        cases heq
        rfl

/-! ## Literals -/

section Literals

variable {pos : Document.Position} {tag : Option String} {style : Document.Style} {text : String}

theorem readLiteral_number {x : Float} :
    readLiteral pos tag style text = .ok (.number x) ↔
      numberScalar? (.scalar pos tag style text) = some x := by
  unfold readLiteral numberScalar?
  dsimp only
  split <;> (try split) <;> simp_all

theorem readLiteral_bool {b : Bool} :
    readLiteral pos tag style text = .ok (.bool b) ↔
      boolScalar? (.scalar pos tag style text) = some b := by
  unfold readLiteral boolScalar?
  dsimp only
  split <;> (try split) <;> simp_all

theorem readLiteral_text {s : String} :
    readLiteral pos tag style text = .ok (.text s) ↔
      textScalar? (.scalar pos tag style text) = some s := by
  unfold readLiteral textScalar?
  dsimp only
  split <;> (try split) <;> simp_all

end Literals

/-- The expression is a literal. -/
def isLiteral : Expr → Bool
  | .number _ | .text _ | .bool _ => true
  | _ => false

theorem isLiteral_of_readLiteral {pos : Document.Position} {tag : Option String}
    {style : Document.Style} {text : String} {e : Expr}
    (h : readLiteral pos tag style text = .ok e) : isLiteral e = true := by
  unfold readLiteral at h
  split at h <;> (try split at h) <;> cases h <;> rfl

/-- A node means a scalar's value if it stands for a scalar from which the value is read. -/
theorem scalar_read {α : Type} {scalar? : Node → Option α} {a : α} {e : Expr}
    (hscalar : ∀ m, (scalar? m).isSome = true →
      ∃ pos tag style text, m = .scalar pos tag style text)
    (hread : ∀ {pos tag style text}, readLiteral pos tag style text = .ok e ↔
      scalar? (.scalar pos tag style text) = some a) {n : Node} :
    scalar? (g.follow n) = some a ↔ ∃ pos tag style text,
      g.follow n = .scalar pos tag style text ∧ readLiteral pos tag style text = .ok e := by
  constructor
  · intro h
    obtain ⟨pos, tag, style, text, hfollow⟩ := hscalar _ (Option.isSome_of_eq_some h)
    rw [hfollow] at h
    exact ⟨pos, tag, style, text, hfollow, hread.mpr h⟩
  · rintro ⟨pos, tag, style, text, hfollow, h⟩
    rw [hfollow]
    exact hread.mp h

/-- A node says a literal if it stands for a scalar from which the literal is read. -/
theorem says_literal {e : Expr} (he : isLiteral e = true) {n : Node} :
    Says g e.item n ↔ ∃ pos tag style text,
      g.follow n = .scalar pos tag style text ∧ readLiteral pos tag style text = .ok e := by
  cases e with
  | number x =>
    exact scalar_read (fun m hm => by cases m <;> simp_all [numberScalar?]) readLiteral_number
  | text s =>
    exact scalar_read (fun m hm => by cases m <;> simp_all [textScalar?]) readLiteral_text
  | bool b =>
    exact scalar_read (fun m hm => by cases m <;> simp_all [boolScalar?]) readLiteral_bool
  | _ => cases he

end TreeLang.Reader
