import TreeLang.Program.Reader
import TreeLang.Decimal.General

/-!
# The tree of a program, spelled out

Every node is written with its kind and its fields, one field a line. A tree of shapes comes first,
and one printer for all shapes then takes care of lines and indentation. A list that the document
does not state is told apart from one that it states and leaves empty.
-/

namespace TreeLang

/-- What a dump is made of. A record may stand behind a pointer. -/
inductive Shape where
  | leaf (kind text : String)
  | record (kind : String) (pointer : Bool) (fields : List (String × Shape))
  | items (kind : String) (elems : List Shape)
deriving Repr, Inhabited

namespace Shape

/-- The blanks in front of a line. -/
def margin (depth : Nat) : String := String.ofList (List.replicate (2 * depth) ' ')

mutual

/-- The text of a shape whose first line starts at the depth given. -/
def render (depth : Nat) : Shape → String
  | .leaf kind text => "(" ++ kind ++ ") " ++ text
  | .record kind pointer fields =>
    (if pointer then "(*" ++ kind ++ ")(\x7b\n" else "(" ++ kind ++ ") \x7b\n") ++
      renderFields (depth + 1) fields ++ margin depth ++ (if pointer then "\x7d)" else "\x7d")
  | .items kind elems =>
    "(" ++ kind ++ ") " ++
      (if elems.isEmpty then "" else "(len=" ++ toString elems.length ++ ") ") ++ "\x7b\n" ++
      renderItems (depth + 1) elems ++ margin depth ++ "\x7d"

/-- Fields, one after the other, with commas between them. -/
def renderFields (depth : Nat) : List (String × Shape) → String
  | [] => ""
  | [(name, s)] => margin depth ++ name ++ ": " ++ s.render depth ++ "\n"
  | (name, s) :: rest =>
    margin depth ++ name ++ ": " ++ s.render depth ++ ",\n" ++ renderFields depth rest

/-- Elements, one after the other, with commas between them. -/
def renderItems (depth : Nat) : List Shape → String
  | [] => ""
  | [s] => margin depth ++ s.render depth ++ "\n"
  | s :: rest => margin depth ++ s.render depth ++ ",\n" ++ renderItems depth rest

end

/-- Nothing where something of a kind could be. -/
def nothing (kind : String) : Shape := .leaf kind "<nil>"

/-- A text with its length in bytes. -/
def text (s : String) : Shape :=
  .leaf "string" ((if s.isEmpty then "" else "(len=" ++ toString s.utf8ByteSize ++ ") ") ++
    Text.quoted s)

/-- A list that is nothing when it is empty. -/
def itemsOrNothing (kind : String) (elems : List Shape) : Shape :=
  if elems.isEmpty then nothing kind else .items kind elems

end Shape

/-- The shape of a type. -/
def Ty.shape (t : Ty) : Shape :=
  match t with
  | .missing => .nothing "typesystem.Type"
  | .var n => .leaf "typesystem.TVar" n
  | .con n => .leaf "typesystem.TCon" n
  | .list _ => .leaf "typesystem.TList" t.render
  | .dict _ _ => .leaf "typesystem.TDict" t.render
  | .fn _ _ _ => .leaf "typesystem.TFunc" t.render

mutual

/-- The shape of an expression. -/
def Expr.shape : Expr → Shape
  | .number x => node "NumberLiteral" [("Value", .leaf "float64" (Decimal.general x))]
  | .text s => node "StringLiteral" [("Value", .text s)]
  | .bool b => node "BooleanLiteral" [("Value", .leaf "bool" (if b then "true" else "false"))]
  | .ref n => node "VarRef" [("Name", .text n)]
  | .assign n v => node "Assignment" [("Name", .text n), ("Value", v.shape)]
  | .binary op l r =>
    node "BinaryOp" [("Operator", .text op.symbol), ("Left", l.shape), ("Right", r.shape)]
  | .call n args =>
    node "Call" [("Name", .text n), ("Args", .items "[]ast.Expression" (Expr.shapes args))]
  | .ite c t f => node "If" [("Cond", c.shape), ("Then", t.shape), ("Else", f.shape)]
  | .loop c b => node "While" [("Cond", c.shape), ("Body", b.shape)]
  | .seq es => node "Seq" [("Bodies", .items "[]ast.Expression" (Expr.shapes es))]
  | .list es => node "ListLiteral" [("Elements", .items "[]ast.Expression" (Expr.shapes es))]
  | .dict es => node "DictLiteral" [("Entries", .items "[]ast.DictEntry" (Expr.entryShapes es))]
where
  /-- A node with its fields. -/
  node (kind : String) (fields : List (String × Shape)) : Shape :=
    .record ("ast." ++ kind) true fields

/-- The shapes of expressions. -/
def Expr.shapes : List Expr → List Shape
  | [] => []
  | e :: es => e.shape :: Expr.shapes es

/-- The shapes of the entries of a dictionary. -/
def Expr.entryShapes : List (Expr × Expr) → List Shape
  | [] => []
  | (k, v) :: es =>
    .record "ast.DictEntry" false [("Key", k.shape), ("Value", v.shape)] :: Expr.entryShapes es

end

/-- The shape of a function. -/
def FunctionDef.shape (d : FunctionDef) : Shape :=
  .record "ast.FunctionDef" true
    [("Name", .text d.name),
     ("Params", .itemsOrNothing "[]ast.Param" (d.params.map fun p =>
       .record "ast.Param" false [("Name", .text p.name), ("Type", p.type.shape)])),
     ("ReturnType", d.result.shape),
     ("Body", d.body.shape),
     ("TypeParams", .itemsOrNothing "[]typesystem.TVar" (d.typeParams.map fun n =>
       .leaf "typesystem.TVar" n))]

/-- The fields that a program document states. -/
structure Stated where
  functions : Bool
  expressions : Bool
deriving DecidableEq, Repr

/-- The fields that the document in a text states. -/
def Reader.stated (source : String) : Stated :=
  match Reader.readGraph source with
  | .ok (_, .mapping _ _ entries) =>
    let keys := entries.map (·.1.text)
    ⟨keys.contains "functions", keys.contains "body" || keys.contains "expressions"⟩
  | _ => ⟨false, false⟩

/-- The shape of a program. -/
def Program.shape (p : Program) (stated : Stated) : Shape :=
  let list (kind : String) (isStated : Bool) (elems : List Shape) : Shape :=
    if isStated then .items kind elems else .itemsOrNothing kind elems
  .record "ast.Program" true
    [("File", .text p.file),
     ("Defs", list "[]*ast.FunctionDef" stated.functions (p.defs.map (·.shape))),
     ("Expressions", list "[]ast.Expression" stated.expressions (p.exprs.map (·.shape)))]

/-- The dump of a program. -/
def Program.dump (p : Program) (stated : Stated) : String := (p.shape stated).render 0 ++ "\n"

end TreeLang
