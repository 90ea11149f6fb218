import TreeLang.Text.Quoted
import TreeLang.Decimal.Written

/-!
# One-line documents

A document as what it says, without positions and styles: numbers, texts, truth values, lists and
records. Its text is one line, with a comma and a blank between items and a colon and a blank after
the name of a field.
-/

namespace TreeLang.Document

/-- A document as what it says. -/
inductive Item where
  | number (x : Float)
  | int (n : Int)
  | text (s : String)
  | bool (b : Bool)
  | list (items : List Item)
  | fields (entries : List (String × Item))
deriving Repr, Inhabited

namespace Item

mutual

/-- The text of a document. -/
def render : Item → String
  | .number x => Decimal.written x
  | .int n => toString n
  | .text s => Text.quoted s
  | .bool b => if b then "true" else "false"
  | .list items => "[" ++ renderAll items ++ "]"
  | .fields entries => "\x7b" ++ renderFields entries ++ "\x7d"

/-- Items with commas between them. -/
def renderAll : List Item → String
  | [] => ""
  | [i] => i.render
  | i :: is => i.render ++ ", " ++ renderAll is

/-- Fields with commas between them. -/
def renderFields : List (String × Item) → String
  | [] => ""
  | [(name, i)] => Text.quoted name ++ ": " ++ i.render
  | (name, i) :: es => Text.quoted name ++ ": " ++ i.render ++ ", " ++ renderFields es

end

/-- A list that starts with the name of an operation. -/
def operation (name : String) (args : List Item) : Item := .list (.text name :: args)

end Item

end TreeLang.Document
