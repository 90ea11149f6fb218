import TreeLang.Document.Cursor

/-!
# Tokens of a document

The indicators, names and scalars that a document is made of. Collections in block style have no
brackets in the text; their start and end tokens come from the indentation.
-/

namespace TreeLang.Document

/-- How a scalar is written. Only a plain scalar is read for its meaning; the others are texts. -/
inductive Style where
  | plain
  | quoted
  | block
deriving DecidableEq, Repr

/-- What a token is. -/
inductive Token.Kind where
  | streamStart
  | streamEnd
  | version (major minor : Nat)
  | tagHandle (handle uri : String)
  | documentStart
  | documentEnd
  | blockSequenceStart
  | blockMappingStart
  | blockEnd
  | flowSequenceStart
  | flowSequenceEnd
  | flowMappingStart
  | flowMappingEnd
  | blockEntry
  | flowEntry
  | key
  | value
  | alias (name : String)
  | anchor (name : String)
  | tag (handle suffix : String)
  | scalar (text : String) (style : Style)
deriving DecidableEq, Repr

/-- A token and where it starts and ends. -/
structure Token where
  kind : Token.Kind
  start : Mark
  stop : Mark
deriving DecidableEq, Repr

end TreeLang.Document
