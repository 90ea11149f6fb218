import TreeLang.Program.Basic
import TreeLang.Document.Meaning
import TreeLang.Diagnostic
import TreeLang.Text.Quoted
import TreeLang.Text.Space

/-!
# Programs from documents

A program document is a mapping with functions and expressions. An expression is a scalar, which is
a literal, or a sequence that starts with the name of an operation. A function is a mapping with
declared types or a sequence `[name, [parameters], body]` without them; a type is a name or a
sequence that starts with a type constructor.

Aliases are followed wherever a node is read. A document in which an alias names a collection
around it has no finite reading, and then the answer is `Failure.endless`.
-/

namespace TreeLang.Reader

open Document (Node Graph Position)

/-- What is wrong with a node. -/
inductive Complaint where
  | programNotObject
  | unknownProgramField (name : String)
  | bodyAndExpressions
  | expressionsNotArray
  | functionsNotArray
  | emptyExpression
  | headNotName
  | unknownOperation (name : String)
  | objectAsExpression
  | invalidNumber (text : String)
  | invalidBoolean (text : String)
  | unsupportedLiteral (text : String)
  | operandCount (op : String) (expected given : Nat)
  | expectedName
  | callWithoutName
  | entryNotPair
  | functionShape
  | untypedShape
  | paramsNotNames (function : String)
  | unknownFunctionField (name : String)
  | functionWithoutName
  | functionWithoutBody (function : String)
  | typeParamsNotNames (function : String)
  | paramsNotArray (function : String)
  | paramShape
  | unknownParamField (name : String)
  | paramWithoutName
  | unknownType (name : String)
  | expectedType
  | emptyType
  | unknownConstructor (name : String)
  | typeArgumentCount (constructor : String) (expected given : Nat)
  | functionTypeParams
deriving DecidableEq, Repr

/-- The wording of a complaint. -/
def Complaint.message : Complaint → String
  | .programNotObject => "program must be an object with \"functions\" and \"body\""
  | .unknownProgramField n => "unknown program field " ++ Text.quoted n
  | .bodyAndExpressions => "program has both \"body\" and \"expressions\""
  | .expressionsNotArray => "\"expressions\" must be an array"
  | .functionsNotArray => "\"functions\" must be an array"
  | .emptyExpression => "empty expression array"
  | .headNotName => "expression array must start with an operator name"
  | .unknownOperation n => "unknown operator " ++ Text.quoted n
  | .objectAsExpression => "expected an expression, got an object"
  | .invalidNumber t => "invalid number " ++ Text.quoted t
  | .invalidBoolean t => "invalid boolean " ++ Text.quoted t
  | .unsupportedLiteral t => "unsupported literal " ++ Text.quoted t
  | .operandCount op expected given =>
    Text.quoted op ++ " expects " ++ toString expected ++ " operands, got " ++ toString given
  | .expectedName => "expected a name"
  | .callWithoutName => "\"call\" needs a function name"
  | .entryNotPair => "dictionary entry must be a [key, value] pair"
  | .functionShape => "function must be an array or an object"
  | .untypedShape => "function must be [name, [params], body]"
  | .paramsNotNames f => "parameters of " ++ f ++ " must be an array of names"
  | .unknownFunctionField n => "unknown function field " ++ Text.quoted n
  | .functionWithoutName => "function needs a \"name\""
  | .functionWithoutBody f => "function " ++ f ++ " needs a \"body\""
  | .typeParamsNotNames f => "typeParams of " ++ f ++ " must be an array of names"
  | .paramsNotArray f => "params of " ++ f ++ " must be an array"
  | .paramShape => "parameter must be a name or \x7b\"name\", \"type\"\x7d"
  | .unknownParamField n => "unknown parameter field " ++ Text.quoted n
  | .paramWithoutName => "parameter needs a \"name\""
  | .unknownType n => "unknown type " ++ Text.quoted n
  | .expectedType => "expected a type"
  | .emptyType => "empty type"
  | .unknownConstructor n => "unknown type constructor " ++ Text.quoted n
  | .typeArgumentCount c expected given =>
    c ++ " takes " ++ toString expected ++ " type arguments, got " ++ toString given
  | .functionTypeParams => "function type parameters must be an array"

/-- Why a text is no program. -/
inductive Failure where
  | document (flaw : Document.Flaw)
  | emptyDocument
  | complaint (pos : Position) (what : Complaint)
  | endless
deriving DecidableEq, Repr

/-- The wording of a failure; a complaint starts with its position. -/
def Failure.message : Failure → String
  | .document flaw => flaw.message
  | .emptyDocument => "empty document"
  | .complaint pos what =>
    toString pos.line ++ ":" ++ toString pos.column ++ ": " ++ what.message
  | .endless => "endless document"

/-- The report of a failure. -/
def Failure.diagnostic (file : String) (f : Failure) : Diagnostic :=
  { code := .invalidProgram, phase := .parse, text := f.message, file }

/-- A reading, or why there is none. -/
abbrev Read := Except Failure

/-- Complains about a node. -/
def refuse {α : Type} (n : Node) (what : Complaint) : Read α := .error (.complaint n.pos what)

/-! ## Names and literals -/

/-- The text of a scalar that is a text, whatever its style. -/
def textScalar? : Node → Option String
  | .scalar _ tag style text =>
    if Document.scalarTag tag style text = "!!str" then some text else none
  | _ => none

/-- A name: a text that is not empty. -/
def readName (g : Graph) (n : Node) : Read String :=
  let n := g.follow n
  match textScalar? n with
  | some s => if s.isEmpty then refuse n .expectedName else .ok s
  | none => refuse n .expectedName

/-- A literal: a number, a truth value or a text. -/
def readLiteral (pos : Position) (tag : Option String) (style : Document.Style) (text : String) :
    Read Expr :=
  match Document.scalarTag tag style text with
  | "!!int" | "!!float" =>
    match Document.scalarMeaning? tag style text with
    | some (.int n) => .ok (.number (Float.ofInt n))
    | some (.float x) => .ok (.number x)
    | _ => .error (.complaint pos (.invalidNumber text))
  | "!!bool" =>
    match Document.scalarMeaning? tag style text with
    | some (.bool b) => .ok (.bool b)
    | _ => .error (.complaint pos (.invalidBoolean text))
  | "!!str" => .ok (.text text)
  | _ => .error (.complaint pos (.unsupportedLiteral text))

/-! ## Expressions -/

/-- The operations that are no operators. -/
def forms : List String := ["seq", "if", "while", "<-", "ref", "call", "list", "dict"]

/-- A sequence may start with this name. -/
def isOperation (name : String) : Bool :=
  (Operator.ofSymbol? name).isSome || forms.contains name

/-- Complains about the number of operands. -/
def wrongCount {α : Type} (n : Node) (op : String) (expected : Nat) (args : List Node) : Read α :=
  refuse n (.operandCount op expected args.length)

/-- One operation with its operands; `rec` reads the expressions inside. -/
def readOperation (g : Graph) (rec : Node → Read Expr) (n : Node) (op : String)
    (args : List Node) : Read Expr :=
  match Operator.ofSymbol? op with
  | some o =>
    match args with
    | [a, b] => do
      let left ← rec a
      let right ← rec b
      pure (.binary o left right)
    | _ => wrongCount n op 2 args
  | none =>
    match op with
    | "seq" => do pure (.seq (← args.mapM rec))
    | "if" =>
      match args with
      | [a, b, c] => do
        let cond ← rec a
        let thenBranch ← rec b
        let elseBranch ← rec c
        pure (.ite cond thenBranch elseBranch)
      | _ => wrongCount n op 3 args
    | "while" =>
      match args with
      | [a, b] => do
        let cond ← rec a
        let body ← rec b
        pure (.loop cond body)
      | _ => wrongCount n op 2 args
    | "<-" =>
      match args with
      | [a, b] => do
        let name ← readName g a
        let value ← rec b
        pure (.assign name value)
      | _ => wrongCount n op 2 args
    | "ref" =>
      match args with
      | [a] => do pure (.ref (← readName g a))
      | _ => wrongCount n op 1 args
    | "call" =>
      match args with
      | [] => refuse n .callWithoutName
      | a :: rest => do
        let name ← readName g a
        pure (.call name (← rest.mapM rec))
    | "list" => do pure (.list (← args.mapM rec))
    | _ => do
      let entries ← args.mapM fun a =>
        match g.follow a with
        | .sequence _ _ [k, v] => do
          let key ← rec k
          let value ← rec v
          pure (key, value)
        | pair => refuse pair .entryNotPair
      pure (.dict entries)

/-- An expression; `depth` bounds the nesting. -/
def readExpr (g : Graph) : (depth : Nat) → Node → Read Expr
  | 0, _ => .error .endless
  | depth + 1, n =>
    match g.follow n with
    | .scalar pos tag style text => readLiteral pos tag style text
    | .sequence pos tag items =>
      match items with
      | [] => .error (.complaint pos .emptyExpression)
      | first :: args =>
        let head := g.follow first
        match textScalar? head with
        | none => refuse head .headNotName
        | some op =>
          if isOperation op then
            readOperation g (readExpr g depth) (.sequence pos tag items) op args
          else refuse head (.unknownOperation op)
    | n => refuse n .objectAsExpression

/-! ## Types -/

/-- The names of the base types. -/
def baseTypes : List String := ["Number", "String", "Boolean", "Void"]

/-- The type constructors and the number of their arguments. -/
def typeConstructors : List (String × Nat) := [("List", 1), ("Dict", 2), ("Fun", 2)]

/-- A type, in which the given names are type parameters; `depth` bounds the nesting. -/
def readType (g : Graph) (typeParams : List String) : (depth : Nat) → Node → Read Ty
  | 0, _ => .error .endless
  | depth + 1, n =>
    match g.follow n with
    | .scalar pos _ _ text =>
      if baseTypes.contains text then .ok (.con text)
      else if typeParams.contains text then .ok (.var text)
      else .error (.complaint pos (.unknownType text))
    | .sequence pos _ [] => .error (.complaint pos .emptyType)
    | .sequence pos _ (first :: args) =>
      let head := g.follow first
      match typeConstructors.find? (·.1 == head.text) with
      | none => refuse head (.unknownConstructor head.text)
      | some (name, count) =>
        if args.length ≠ count then
          .error (.complaint pos (.typeArgumentCount name count args.length))
        else
          match name, args with
          | "List", [a] => do pure (.list (← readType g typeParams depth a))
          | "Dict", [a, b] => do
            let key ← readType g typeParams depth a
            let value ← readType g typeParams depth b
            pure (.dict key value)
          | _, [a, b] =>
            match g.follow a with
            | .sequence _ _ items => do
              let params ← items.mapM (readType g typeParams depth)
              let result ← readType g typeParams depth b
              pure (.fn params result false)
            | list => refuse list .functionTypeParams
          | _, _ => .error (.complaint pos .expectedType)
    | n => refuse n .expectedType

/-! ## Functions -/

/-- A depth of nesting that only an endless document exceeds: on a way down that ends, no node of
the tree comes up twice. -/
def nodeCount (g : Graph) : Nat := g.root.size + 1

/-- A name without a type, or a mapping with a name and a type. -/
def readParam (g : Graph) (typeParams : List String) (depth : Nat) (n : Node) : Read Param :=
  match g.follow n with
  | .scalar pos tag style text => do
    pure { name := ← readName g (.scalar pos tag style text) }
  | .mapping pos _ entries => do
    let param ← entries.foldlM (fun (p : Param) (key, value) =>
      match key.text with
      | "name" => do pure { p with name := ← readName g value }
      | "type" => do pure { p with type := ← readType g typeParams depth value }
      | other => refuse key (.unknownParamField other)) { name := "" }
    if param.name.isEmpty then .error (.complaint pos .paramWithoutName) else pure param
  | n => refuse n .paramShape

/-- A function without types. -/
def readUntyped (g : Graph) (depth : Nat) (pos : Position) (items : List Node) : Read FunctionDef :=
  match items with
  | [a, b, c] => do
    let name ← readName g a
    match g.follow b with
    | .sequence _ _ ps => do
      let params ← ps.mapM fun p => do pure ({ name := ← readName g p } : Param)
      let body ← readExpr g depth c
      pure { name, params, body }
    | list => refuse list (.paramsNotNames name)
  | _ => .error (.complaint pos .untypedShape)

/-- The fields of a function object. -/
def functionFields : List String := ["name", "typeParams", "params", "returns", "body"]

/-- A function with declared types. -/
def readTyped (g : Graph) (depth : Nat) (pos : Position) (entries : List (Node × Node)) :
    Read FunctionDef := do
  let fields ← entries.foldlM (fun (t : Table Node) (key, value) =>
    if functionFields.contains key.text then pure (t.insert key.text value)
    else refuse key (.unknownFunctionField key.text)) ∅
  match fields.get? "name" with
  | none => .error (.complaint pos .functionWithoutName)
  | some nameNode =>
    let name ← readName g nameNode
    match fields.get? "body" with
    | none => .error (.complaint pos (.functionWithoutBody name))
    | some bodyNode =>
      let typeParams ← match fields.get? "typeParams" with
        | none => pure []
        | some n =>
          match g.follow n with
          | .sequence _ _ items => items.mapM (readName g)
          | n => refuse n (.typeParamsNotNames name)
      let params ← match fields.get? "params" with
        | none => pure []
        | some n =>
          match g.follow n with
          | .sequence _ _ items => items.mapM (readParam g typeParams depth)
          | n => refuse n (.paramsNotArray name)
      let result ← match fields.get? "returns" with
        | none => pure Ty.missing
        | some n => readType g typeParams depth n
      let body ← readExpr g depth bodyNode
      pure { name, params, result, body, typeParams }

/-- A function in either form. -/
def readFunction (g : Graph) (depth : Nat) (n : Node) : Read FunctionDef :=
  match g.follow n with
  | .sequence pos _ items => readUntyped g depth pos items
  | .mapping pos _ entries => readTyped g depth pos entries
  | n => refuse n .functionShape

/-! ## Whole documents -/

/-- Tabs become blanks in a text that starts with a bracket, since such a text is JSON and its
indentation means nothing. -/
def normalize (source : String) : String :=
  match Text.trim source.toList with
  | '[' :: _ => source.map fun c => if c = '\t' then ' ' else c
  | '\x7b' :: _ => source.map fun c => if c = '\t' then ' ' else c
  | _ => source

/-- Finds the node graph in a text; there is none in a text without content. -/
abbrev Decoder := String → Except Document.Flaw (Option Graph)

/-- The graph that a decoder finds in a source text, with its root resolved. -/
def readGraphBy (decode : Decoder) (source : String) : Read (Graph × Node) :=
  match decode (normalize source) with
  | .error flaw => .error (.document flaw)
  | .ok none => .error .emptyDocument
  | .ok (some g) => .ok (g, g.follow g.root)

/-- The graph of a source text with its root resolved. -/
def readGraph (source : String) : Read (Graph × Node) := readGraphBy Document.read source

/-- The parts of a program document while its fields are read. -/
structure Fields where
  defs : List FunctionDef := []
  body : Option Node := none
  exprs : Option Node := none

/-- The program in a document. Functions are read where they stand, expressions after all fields. -/
def programOf (g : Graph) (root : Node) (file : String) : Read Program :=
  let depth := nodeCount g
  match root with
  | .mapping pos _ entries => do
    let fields ← entries.foldlM (fun (f : Fields) (key, value) =>
      match key.text with
      | "functions" =>
        match g.follow value with
        | .sequence _ _ items => do pure { f with defs := ← items.mapM (readFunction g depth) }
        | n => refuse n .functionsNotArray
      | "body" => pure { f with body := some value }
      | "expressions" => pure { f with exprs := some value }
      | other => refuse key (.unknownProgramField other)) {}
    match fields.body, fields.exprs with
    | some _, some _ => .error (.complaint pos .bodyAndExpressions)
    | some b, none => do
      let e ← readExpr g depth b
      pure { file, defs := fields.defs, exprs := [e] }
    | none, some es =>
      match g.follow es with
      | .sequence _ _ items => do
        let exprs ← items.mapM (readExpr g depth)
        pure { file, defs := fields.defs, exprs }
      | n => refuse n .expressionsNotArray
    | none, none => pure { file, defs := fields.defs }
  | n => refuse n .programNotObject

/-- A function definition or an expression. -/
inductive Entry where
  | definition (d : FunctionDef)
  | expression (e : Expr)

/-- The node has the form of a function without types, and its name is no operation. -/
def isUntypedFunction (g : Graph) : Node → Bool
  | .sequence _ _ [a, b, _] =>
    match textScalar? (g.follow a), g.follow b with
    | some name, .sequence .. => !isOperation name
    | _, _ => false
  | _ => false

/-- Reads a program from what a decoder finds. -/
def readProgramBy (decode : Decoder) (source file : String) : Read Program := do
  let (g, root) ← readGraphBy decode source
  programOf g root file

/-- Reads a program. -/
def readProgram (source file : String) : Read Program := readProgramBy Document.read source file

/-- Reads a document that holds one expression. -/
def readExpression (source : String) : Read Expr := do
  let (g, root) ← readGraph source
  readExpr g (nodeCount g) root

/-- Reads one entry: an object or a function without types is a definition, all else an
expression. -/
def readEntry (source : String) : Read Entry := do
  let (g, root) ← readGraph source
  let isDefinition := match root with
    | .mapping .. => true
    | n => isUntypedFunction g n
  if isDefinition then do pure (.definition (← readFunction g (nodeCount g) root))
  else do pure (.expression (← readExpr g (nodeCount g) root))

end TreeLang.Reader
