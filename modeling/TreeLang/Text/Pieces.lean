/-!
# Cutting and joining texts

`splitOn sep s` cuts at every occurrence of `sep`, left to right; the empty separator cuts between
all characters. `joinWith` puts a separator between the pieces. Both work on character lists, where
the recursion is on the text itself.
-/

namespace TreeLang.Text

/-- What follows `sep` in `s` when `s` starts with it. -/
def afterSep? : (sep s : List Char) → Option (List Char)
  | [], s => some s
  | _ :: _, [] => none
  | a :: sep, b :: s => if a = b then afterSep? sep s else none

/-- Cuts `s` at each occurrence of the non-empty separator `c :: sep`. `skip` characters still
belong to an occurrence that was found; `piece` holds the current piece, reversed. -/
def cutAt (c : Char) (sep : List Char) : (s : List Char) → (skip : Nat) → (piece : List Char) →
    List (List Char)
  | [], _, piece => [piece.reverse]
  | _ :: s, skip + 1, piece => cutAt c sep s skip piece
  | d :: s, 0, piece =>
    match afterSep? (c :: sep) (d :: s) with
    | some _ => piece.reverse :: cutAt c sep s sep.length []
    | none => cutAt c sep s 0 (d :: piece)

/-- The pieces of `s` between occurrences of `sep`; with an empty `sep`, its characters. -/
def splitOn (sep s : List Char) : List (List Char) :=
  match sep with
  | [] => s.map ([·])
  | c :: sep => cutAt c sep s 0 []

/-- The pieces with `sep` between them. -/
def joinWith (sep : List Char) : List (List Char) → List Char
  | [] => []
  | [p] => p
  | p :: ps => p ++ sep ++ joinWith sep ps

/-- `splitOn` on texts. -/
def split (s sep : String) : List String :=
  (splitOn sep.toList s.toList).map String.ofList

/-- `joinWith` on texts. -/
def join (sep : String) (pieces : List String) : String :=
  String.ofList (joinWith sep.toList (pieces.map String.toList))

/-- The first `limit` characters followed by an ellipsis, or the whole text when it is no longer
than `limit`; a `limit` of zero shortens nothing. -/
def shorten (limit : Nat) (s : String) : String :=
  let cs := s.toList
  if limit = 0 || cs.length ≤ limit then s else String.ofList (cs.take limit) ++ "..."

/-- `1 argument`, `2 arguments`: a count with its noun. -/
def counted (n : Nat) (noun : String) : String :=
  if n = 1 then "1 " ++ noun else toString n ++ " " ++ noun ++ "s"

end TreeLang.Text
