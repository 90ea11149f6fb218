import TreeLang.Program.Basic
import TreeLang.Text.Quoted
import TreeLang.Text.Pieces
import TreeLang.Decimal.Written

/-!
# Programs as text

Programs in a readable notation with infix operators. Parentheses stand where the tree needs them:
around an operand that binds looser, and around a right operand that binds equally, because all
operators group to the left. The spread layout puts the parts of a sequence on lines of their own;
the compact one keeps everything on a line.
-/

namespace TreeLang

/-- Where the printer stands: on one line, or indented so far. -/
inductive Layout where
  | compact
  | spread (indent : Nat)
deriving DecidableEq, Repr

/-- A line break with the indentation. -/
def Layout.newline (indent : Nat) : String :=
  "\n" ++ String.ofList (List.replicate (4 * indent) ' ')

/-- The layout inside a sequence. -/
def Layout.inner : Layout → Layout
  | .compact => .compact
  | .spread n => .spread (n + 1)

namespace Expr

/-- The precedence of an operator expression; anything else needs no parentheses. -/
def precedence? : Expr → Option Nat
  | .binary op _ _ => some op.precedence
  | _ => none

/-- An operand needs parentheses below an operator of precedence `outer`. -/
def wrapped (outer : Nat) (right : Bool) (e : Expr) : Bool :=
  match e.precedence? with
  | some p => p < outer || (right && p == outer)
  | none => false

/-- Text between parentheses, if they are wanted. -/
def parens (wanted : Bool) (s : String) : String := if wanted then "(" ++ s ++ ")" else s

/-- Pieces with a separator between them. -/
def joinPieces (sep : String) : List String → String
  | [] => ""
  | [p] => p
  | p :: ps => p ++ sep ++ joinPieces sep ps

mutual

/-- The expression in a layout. -/
def print (l : Layout) : Expr → String
  | .number x => Decimal.written x
  | .text s => Text.quoted s
  | .bool b => if b then "true" else "false"
  | .ref name => name
  | .assign name value => name ++ " <- " ++ value.print l
  | .binary op left right =>
    parens (left.wrapped op.precedence false) (left.print l) ++ " " ++ op.symbol ++ " " ++
      parens (right.wrapped op.precedence true) (right.print l)
  | .call name args => name ++ "(" ++ joinPieces ", " (printAll l args) ++ ")"
  | .ite c t e => "if " ++ c.print l ++ " then " ++ t.print l ++ " else " ++ e.print l
  | .loop c b => "while " ++ c.print l ++ " do " ++ b.print l
  | .seq [] => "\x7b \x7d"
  | .seq bodies =>
    match l with
    | .compact => "\x7b " ++ joinPieces "; " (printAll .compact bodies) ++ " \x7d"
    | .spread n =>
      let line := Layout.newline (n + 1)
      "\x7b" ++ line ++ joinPieces line (printAll (.spread (n + 1)) bodies) ++
        Layout.newline n ++ "\x7d"
  | .list elems => "[" ++ joinPieces ", " (printAll l elems) ++ "]"
  | .dict [] => "\x7b:\x7d"
  | .dict entries => "\x7b" ++ joinPieces ", " (printEntries l entries) ++ "\x7d"

/-- The expressions one by one. -/
def printAll (l : Layout) : List Expr → List String
  | [] => []
  | e :: es => e.print l :: printAll l es

/-- The entries one by one. -/
def printEntries (l : Layout) : List (Expr × Expr) → List String
  | [] => []
  | (k, v) :: es => (k.print l ++ ": " ++ v.print l) :: printEntries l es

end

/-- The expression on one line, shortened to `limit` characters; zero shortens nothing. -/
def compact (limit : Nat) (e : Expr) : String := Text.shorten limit (e.print .compact)

end Expr

/-- The definition in a layout. -/
def FunctionDef.print (l : Layout) (d : FunctionDef) : String :=
  let typed (t : Ty) : String := if t.isMissing then "" else ": " ++ t.render
  let generics :=
    if d.typeParams.isEmpty then "" else "<" ++ Expr.joinPieces ", " d.typeParams ++ ">"
  "fun " ++ d.name ++ generics ++ "(" ++
    Expr.joinPieces ", " (d.params.map fun p => p.name ++ typed p.type) ++ ")" ++ typed d.result ++
    " = " ++ d.body.print l

/-- The program in a layout: definitions, then expressions, with empty lines between them. -/
def Program.print (l : Layout) (p : Program) : String :=
  let defs := Expr.joinPieces "\n" (p.defs.map fun d => d.print l ++ "\n")
  let gap := if p.defs.isEmpty || p.exprs.isEmpty then "" else "\n"
  defs ++ gap ++ String.join (p.exprs.map fun e => e.print l ++ "\n")

end TreeLang
