import TreeLang.Program.Basic
import TreeLang.Document.Item

/-!
# Sample programs

Documents of programs that are well typed by construction, drawn from a list of bytes. Every choice
takes the next byte; when the bytes run out, every choice is the first one, which always leads to a
leaf. A sample assigns a few variables and ends with one more expression, whose kind is known.
-/

namespace TreeLang.Sample

open Document (Item)

/-- The kinds of expressions that are drawn. -/
inductive Kind where
  | number
  | text
  | boolean
  | numberList
deriving DecidableEq, Repr, Inhabited

namespace Kind

/-- The kind that a choice among four stands for. -/
def ofChoice : Nat → Kind
  | 0 => .number
  | 1 => .text
  | 2 => .boolean
  | _ => .numberList

/-- The written form of a kind: the type of its expressions. -/
def name : Kind → String
  | .number => "Number"
  | .text => "String"
  | .boolean => "Boolean"
  | .numberList => "List<Number>"

/-- The type of the expressions of a kind. -/
def type : Kind → Ty
  | .number => .number
  | .text => .text
  | .boolean => .boolean
  | .numberList => .list .number

end Kind

/-- Draws something from the bytes that are left. -/
abbrev Draw := StateM (List UInt8)

/-- A choice among `n`: the next byte modulo `n`. It is the first choice when no byte is left. -/
def choose (n : Nat) : Draw Nat := fun bytes =>
  match bytes with
  | [] => (0, [])
  | b :: rest => if n = 0 then (0, b :: rest) else (b.toNat % n, rest)

/-- A choice from a list. -/
def pick {α : Type} (first : α) (rest : List α) : Draw α := do
  let i ← choose (rest.length + 1)
  pure (((first :: rest)[i]?).getD first)

/-- The variables so far, in order of assignment. -/
abbrev Vars := List (Kind × String)

/-- The names of the variables of a kind. -/
def Vars.ofKind (vars : Vars) (kind : Kind) : List String :=
  vars.filterMap fun (k, name) => if k = kind then some name else none

/-! ## Expressions -/

/-- A reference to a variable or a function. -/
def reference (name : String) : Item := .operation "ref" [.text name]

/-- A call of a function. -/
def call (name : String) (args : List Item) : Item := .operation "call" (.text name :: args)

/-- An operator on two operands. -/
def operator (op : Operator) (left right : Item) : Item := .operation op.symbol [left, right]

/-- A literal of a kind. -/
def literal : Kind → Draw Item
  | .number => do
    let n ← choose 20
    pure (.int ((n : Int) - 5))
  | .text => do pure (.text (← pick "" ["a", "ab", "x,y", "hello"]))
  | .boolean => do
    let n ← choose 2
    pure (.bool (n = 1))
  | .numberList => do
    let a ← choose 9
    let b ← choose 9
    pure (.operation "list" [.int a, .int b])

/-- A variable of a kind, if there is one, or a literal. -/
def leaf (vars : Vars) (kind : Kind) : Draw Item :=
  match vars.ofKind kind with
  | [] => literal kind
  | name :: names => do
    let n ← choose 2
    if n = 0 then do pure (reference (← pick name names)) else literal kind

/-- A compound expression of a kind; `rec` draws the parts. -/
def compound (rec : Kind → Draw Item) : Kind → Draw Item
  | .number => do
    match ← choose 6 with
    | 0 | 1 => do
      let op ← pick Operator.add [.sub, .mul, .div, .rem]
      let a ← rec .number
      let b ← rec .number
      pure (operator op a b)
    | 2 => do pure (call "len" [← rec .text])
    | 3 => do
      let xs ← rec .numberList
      let start ← rec .number
      pure (call "reduce" [xs, reference "plus", start])
    | 4 => choice .number
    | _ => do pure (call "twice" [← rec .number])
  | .text => do
    match ← choose 4 with
    | 0 => do
      let a ← rec .text
      let b ← rec .text
      pure (operator .add a b)
    | 1 => do pure (call "shout" [← rec .text])
    | 2 => do pure (call "join" [call "split" [← rec .text, .text ","], .text "-"])
    | _ => choice .text
  | .boolean => do
    match ← choose 5 with
    | 0 => do
      let op ← pick Operator.lt [.le, .gt, .ge]
      let a ← rec .number
      let b ← rec .number
      pure (operator op a b)
    | 1 => do
      let a ← rec .text
      let b ← rec .text
      pure (operator .eq a b)
    | 2 => do pure (call "not" [← rec .boolean])
    | 3 => do
      let a ← rec .boolean
      let b ← rec .boolean
      pure (call "and" [a, b])
    | _ => do pure (call "positive" [← rec .number])
  | .numberList => do
    match ← choose 3 with
    | 0 => do pure (call "map" [← rec .numberList, reference "twice"])
    | 1 => do pure (call "filter" [← rec .numberList, reference "positive"])
    | _ => do
      let a ← rec .number
      let b ← rec .number
      let c ← rec .number
      pure (.operation "list" [a, b, c])
where
  /-- A condition with two branches of a kind. -/
  choice (kind : Kind) : Draw Item := do
    let c ← rec .boolean
    let t ← rec kind
    let f ← rec kind
    pure (.operation "if" [c, t, f])

/-- An expression of a kind with at most `levels` levels above its leaves. -/
def draw (vars : Vars) : (levels : Nat) → Kind → Draw Item
  | 0, kind => leaf vars kind
  | levels + 1, kind => do
    let n ← choose 3
    if n = 0 then leaf vars kind else compound (draw vars levels) kind

/-- The number of levels above the leaves of an expression. -/
def levels : Nat := 3

/-! ## Programs -/

/-- A function with the kinds of its parameters and of its result. -/
structure Helper where
  name : String
  params : List (String × Kind)
  result : Kind
  body : Item

/-- The document of a function. -/
def Helper.item (h : Helper) : Item :=
  let param (p : String × Kind) : Item := .fields [("name", .text p.1), ("type", .text p.2.name)]
  .fields
    [("name", .text h.name), ("params", .list (h.params.map param)),
     ("returns", .text h.result.name), ("body", h.body)]

/-- The functions that every sample defines. -/
def helpers : List Helper :=
  [⟨"plus", [("a", .number), ("b", .number)], .number,
      operator .add (reference "a") (reference "b")⟩,
   ⟨"twice", [("n", .number)], .number, operator .mul (reference "n") (.int 2)⟩,
   ⟨"positive", [("n", .number)], .boolean, operator .gt (reference "n") (.int 0)⟩,
   ⟨"shout", [("s", .text)], .text, call "toUpperCase" [reference "s"]⟩]

/-- Assignments of `count` more variables, the next of which has number `i`. -/
def assignments : (count i : Nat) → Vars → Draw (List Item × Vars)
  | 0, _, vars => pure ([], vars)
  | count + 1, i, vars => do
    let kind := Kind.ofChoice (← choose 4)
    let name := "v" ++ toString i
    let value ← draw vars levels kind
    let (rest, vars) ← assignments count (i + 1) (vars ++ [(kind, name)])
    pure (.operation "<-" [.text name, value] :: rest, vars)

/-- A sample program: the documents of its expressions. -/
structure Draft where
  exprs : List Item

/-- The document of a sample. -/
def Draft.item (d : Draft) : Item :=
  .fields [("functions", .list (helpers.map Helper.item)), ("expressions", .list d.exprs)]

/-- The source text of a sample. -/
def Draft.source (d : Draft) : String := d.item.render

/-- A sample program and the kind of its last expression. -/
def program : Draw (Draft × Kind) := do
  let n ← choose 3
  let (exprs, vars) ← assignments (n + 1) 0 []
  let kind := Kind.ofChoice (← choose 4)
  let last ← draw vars levels kind
  pure (⟨exprs ++ [last]⟩, kind)

/-- The sample that bytes stand for. -/
def ofBytes (bytes : List UInt8) : Draft × Kind := (program bytes).1

end TreeLang.Sample
