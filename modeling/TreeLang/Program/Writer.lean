import TreeLang.Program.Basic
import TreeLang.Document.Item

/-!
# Documents from programs

A program is written as a record of its functions and its expressions. An operation is a list that
starts with its name, a literal stands for itself. Declared types are written where they are
declared, and a missing one is left out.
-/

namespace TreeLang

open Document (Item)

mutual

/-- The document of a type. -/
def Ty.item : Ty → Item
  | .missing => .text "?"
  | .var name => .text name
  | .con name => .text name
  | .list elem => .operation "List" [elem.item]
  | .dict key value => .operation "Dict" [key.item, value.item]
  | .fn params result _ => .operation "Fun" [.list (Ty.items params), result.item]

/-- The documents of types. -/
def Ty.items : List Ty → List Item
  | [] => []
  | t :: ts => t.item :: Ty.items ts

end

mutual

/-- The document of an expression. -/
def Expr.item : Expr → Item
  | .number x => .number x
  | .text s => .text s
  | .bool b => .bool b
  | .ref name => .operation "ref" [.text name]
  | .assign name value => .operation "<-" [.text name, value.item]
  | .binary op left right => .operation op.symbol [left.item, right.item]
  | .call name args => .operation "call" (.text name :: Expr.items args)
  | .ite c t f => .operation "if" [c.item, t.item, f.item]
  | .loop c b => .operation "while" [c.item, b.item]
  | .seq bodies => .operation "seq" (Expr.items bodies)
  | .list elems => .operation "list" (Expr.items elems)
  | .dict entries => .operation "dict" (Expr.pairItems entries)

/-- The documents of expressions. -/
def Expr.items : List Expr → List Item
  | [] => []
  | e :: es => e.item :: Expr.items es

/-- The documents of entries, each a pair. -/
def Expr.pairItems : List (Expr × Expr) → List Item
  | [] => []
  | (k, v) :: es => .list [k.item, v.item] :: Expr.pairItems es

end

/-- The document of a parameter: a record, or just the name when no type is declared. -/
def Param.item (p : Param) : Item :=
  if p.type.isMissing then .text p.name
  else .fields [("name", .text p.name), ("type", p.type.item)]

/-- The document of a function definition. -/
def FunctionDef.item (d : FunctionDef) : Item :=
  .fields <|
    [("name", .text d.name)] ++
    (if d.typeParams.isEmpty then [] else [("typeParams", .list (d.typeParams.map .text))]) ++
    [("params", .list (d.params.map Param.item))] ++
    (if d.result.isMissing then [] else [("returns", d.result.item)]) ++
    [("body", d.body.item)]

/-- The document of a program. -/
def Program.item (p : Program) : Item :=
  .fields
    [("functions", .list (p.defs.map FunctionDef.item)),
     ("expressions", .list (Expr.items p.exprs))]

/-- The source text of a program. -/
def Program.source (p : Program) : String := p.item.render

end TreeLang
